import Dialogue.Proofs.Address
import Dialogue.Proofs.Simulation

/-!
# Sessions carry out the structured reading

A session knows no more than a position and climbs out of blocks by looking around it; the
interpreter recurses over the tree. Step by step, the session does what the interpreter tells: from
a step that is about to be driven it comes to where `advance` leads, with the callbacks of the
branches that ended there still to be run.
-/

namespace Dialogue

variable {κ W : Type}

section
variable {host : Host κ W} {script : Script κ} {settings : Settings} {here next : Position}
variable {exited : List Position}

/-! ## Outputs -/

theorem simulates_say (speaker : Speaker) (text : String) (effects : List (Effect κ))
    (event : Option Event) {phase : Phase} (hp : phase.status = .active) (talk : Talk W)
    (least : Nat) :
    Simulates host script settings least
      (.busy (.appendMessage speaker text :: effects) event here phase talk)
      (fun _ talk => .busy effects event here phase talk) (say here speaker text talk) := by
  unfold say
  rw [← hp]
  exact simulates_tell (by rfl) (by intro published; rfl) least

theorem leads_of_moveOn {event : Event} {phase : Phase} {talk : Talk W}
    (effects : List (Effect κ)) (ha : advance script.steps here = ⟨next, exited⟩)
    (ht : transition script ⟨here, phase, talk.prompts⟩ event =
      .ok (moveOn script ⟨here, phase, talk.prompts⟩ effects)) :
    Leads host script settings 1 (.busy [] (some event) here phase talk) []
      (.busy (effects ++ exitHooks script exited) none next .running talk) := by
  have hm : moveOn script ⟨here, phase, talk.prompts⟩ effects =
      ⟨⟨next, .running, talk.prompts⟩, effects ++ exitHooks script exited⟩ := by
    rw [moveOn, ha]
  rw [hm] at ht
  exact leads_of_event ht

theorem simulates_produce {o : Output κ} (talk : Talk W) (least : Nat) :
    Simulates host script settings least
      (.busy [.resolveText o.wording] none here .resolvingText talk)
      (fun text talk => .busy [] (some (.textResolved text)) here .resolvingText talk)
      (consulting .active here (o.produce host) talk) := by
  refine simulates_consulting (o.produce host) (some ∘ .textResolved) (fun published => ?_) least
  unfold Output.produce
  cases o.wording with
  | none => rfl
  | some wording => rfl

theorem simulates_output {o : Output κ} (hs : script.stepAt? here = some (.output o))
    (ha : advance script.steps here = ⟨next, exited⟩) (bound : Nat) (talk : Talk W) :
    Simulates host script settings bound (.busy [] none here .running talk)
      (fun _ talk => .busy (exitHooks script exited) none next .running talk)
      (Step.run host settings bound here next (.output o) talk) := by
  have hd : drive script ⟨here, .running, talk.prompts⟩ =
      ⟨⟨here, .resolvingText, talk.prompts⟩, [.resolveText o.wording]⟩ := by
    simp [drive, hs]
  have ht : ∀ text prompts, transition script ⟨here, .resolvingText, prompts⟩
      (.textResolved text) = .ok ⟨⟨here, .settling, prompts⟩,
        [.appendMessage .bot text, .settleOutput o.wait o.complete]⟩ := by
    simp [transition, hs]
  rw [Step.run]
  refine Simulates.from (leads_of_drive hd) ?_
  refine Simulates.bind (simulates_produce talk bound) fun text talk₁ _ => ?_
  refine Simulates.from (leads_of_event (ht text talk₁.prompts)) ?_
  refine Simulates.bind (simulates_say .bot text _ none rfl talk₁ bound) fun _ talk₂ _ => ?_
  refine Simulates.leads (simulates_consulting _ (fun _ => some .outputSettled) ?_ bound) ?_
  · intro published
    rfl
  · intro _ talk₃
    exact ⟨1, leads_of_moveOn [] ha rfl⟩

/-! ## Inputs -/

theorem simulates_present {i : Input κ} (hs : script.stepAt? here = some (.input i))
    (talk : Talk W) (least : Nat) :
    Simulates host script settings least (.busy [] none here .running talk)
      (fun _ talk => .idle here .awaitingInput talk) (present here talk) := by
  have hd : drive script ⟨here, .running, talk.prompts⟩ =
      ⟨⟨here, .awaitingInput, talk.prompts + 1⟩, [.publishStatus .waiting]⟩ := by
    simp [drive, hs]
  refine Simulates.from (leads_of_drive hd) ?_
  refine Simulates.bind (simulates_tell (by rfl) (by intro published; rfl) least) ?_
  intro _ talk₁ _
  exact ⟨0, leads_of_rest (by simp) talk₁⟩

theorem present_calls {talk later : Talk W} {v : Unit}
    (h : (present here talk : Told κ W Unit).fate = .goesOn v later) :
    later.calls = talk.calls := by
  cases h
  rfl

theorem consulting_calls {α : Type} {status : Status} {ask : Answers → W → Consulted κ W α}
    {talk later : Talk W} {v : α}
    (h : (consulting status here ask talk).fate = .goesOn v later) :
    later.calls = talk.calls := by
  cases hr : (ask talk.answers talk.world).result with
  | ok v => rw [consulting_ok hr] at h; cases h; rfl
  | error e => rw [consulting_error hr] at h; cases h

theorem simulates_check {rules : List (Rule κ)} {text : String} (talk : Talk W) (least : Nat) :
    Simulates host script settings least
      (.busy [.validate rules text] none here (.validating text) talk)
      (fun verdict talk => .busy [] (some (match verdict with
        | none => .validationPassed
        | some errorText => .validationFailed errorText)) here (.validating text) talk)
      (consulting .active here (fun answers world => checkRules host text answers rules world)
        talk) := by
  refine Simulates.leads (simulates_consulting _ (fun
    | none => some .validationPassed
    | some errorText => some (.validationFailed errorText)) ?_ least) ?_
  · intro published
    rfl
  · intro verdict talk
    cases verdict with
    | none => exact ⟨0, Leads.refl _⟩
    | some errorText => exact ⟨0, Leads.refl _⟩

theorem simulates_listen {i : Input κ} (hs : script.stepAt? here = some (.input i)) (least : Nat) :
    ∀ (calls : List (String × Nat)) (talk : Talk W), talk.calls = calls →
      Simulates host script settings least (.idle here .awaitingInput talk)
        (fun text talk => .busy [] (some .validationPassed) here (.validating text) talk)
        (i.listen host here calls talk)
  | [], talk, hc => by
    intro published
    refine ⟨0, fun bound => ?_, fun n hn => absurd hn (Nat.not_lt_zero n)⟩
    rw [record_idle hc]
    rfl
  | (text, turn) :: calls, talk, hc => by
    rw [Input.listen]
    by_cases ht : turn = talk.prompts
    · have hcall : transition script ⟨here, .awaitingInput, talk.prompts⟩ (.submitted text turn) =
          .ok ⟨⟨here, .validating text, talk.prompts⟩,
            [.publishStatus .active, .appendMessage .user text, .validate i.rules text]⟩ := by
        simp [transition, hs, ht]
      rw [if_pos ht]
      refine Simulates.from (leads_of_call hc hcall) ?_
      refine Simulates.bind (simulates_tell (by rfl) (by intro published; rfl) least) ?_
      intro _ talk₁ h₁
      refine Simulates.bind (simulates_say .user text _ none rfl talk₁ least) ?_
      intro _ talk₂ h₂
      refine Simulates.bind (simulates_check talk₂ least) ?_
      intro verdict talk₃ h₃
      cases verdict with
      | none => exact ⟨0, Leads.refl _⟩
      | some errorText =>
        refine Simulates.from (leads_of_event rfl) ?_
        refine Simulates.bind (simulates_say .bot errorText _ none rfl talk₃ least) ?_
        intro _ talk₄ h₄
        refine Simulates.bind (simulates_present hs talk₄ least) ?_
        intro _ talk₅ h₅
        refine simulates_listen hs least calls talk₅ ?_
        cases h₁
        cases h₂
        cases h₄
        rw [present_calls h₅]
        exact consulting_calls h₃
    · have hcall : transition script ⟨here, .awaitingInput, talk.prompts⟩ (.submitted text turn) =
          .error (.staleSubmission turn talk.prompts) := by
        simp [transition, ht]
      have hrefused : Simulates host script settings least (.idle here .awaitingInput talk)
          (fun _ talk => .idle here .awaitingInput talk)
          (returns (.error (.rejected (.staleSubmission turn talk.prompts))) { talk with calls }) :=
        ⟨1, leads_of_refused hc hcall⟩
      rw [if_neg ht]
      refine Simulates.bind hrefused ?_
      intro _ talk₁ h₁
      cases h₁
      exact simulates_listen hs least calls _ rfl

theorem simulates_input {i : Input κ} (hs : script.stepAt? here = some (.input i))
    (ha : advance script.steps here = ⟨next, exited⟩) (bound : Nat) (talk : Talk W) :
    Simulates host script settings bound (.busy [] none here .running talk)
      (fun _ talk => .busy (exitHooks script exited) none next .running talk)
      (Step.run host settings bound here next (.input i) talk) := by
  have ht : ∀ text prompts, transition script ⟨here, .validating text, prompts⟩
      .validationPassed = .ok (moveOn script ⟨here, .validating text, prompts⟩
        (.storeAnswer i.name text :: Effect.hooks "input" i.complete)) := by
    simp [transition, hs]
  rw [Step.run]
  refine Simulates.bind (simulates_present hs talk bound) fun _ talk₁ _ => ?_
  refine Simulates.bind (simulates_listen hs bound talk₁.calls talk₁ rfl) fun text talk₂ _ => ?_
  refine Simulates.from (leads_of_moveOn _ ha (ht text talk₂.prompts)) ?_
  refine Simulates.bind (simulates_tell (by rfl) (by intro published; rfl) bound) ?_
  intro _ talk₃ _
  exact simulates_finish "input" i.complete _ none next .running talk₃ bound

/-! ## Blocks -/

theorem simulates_repeatWhile {condition : Act κ W Bool} {body : Act κ W Unit} {bound : Nat}
    {top test : Talk W → Scene κ W} {mid : Bool → Talk W → Scene κ W} {done : Talk W → Scene κ W}
    (htop : ∀ talk, Leads host script settings 1 (top talk) [] (test talk))
    (htest : ∀ talk, Simulates host script settings bound (test talk) mid (condition talk))
    (hbody : ∀ talk, Simulates host script settings bound (mid true talk) (fun _ => top)
      (body talk))
    (hdone : ∀ talk, ∃ k, Leads host script settings k (mid false talk) [] (done talk)) :
    ∀ (n : Nat) (talk : Talk W), n ≤ bound →
      Simulates host script settings n (top talk) (fun _ => done)
        (repeatWhile condition body n talk)
  | 0, talk, _ => by
    intro published
    exact ⟨0, Nat.le_refl 0, List.nil_prefix, fun n hn => absurd hn (Nat.not_lt_zero n)⟩
  | n + 1, talk, hn => by
    -- every pass takes an event at least, so a loop that is cut off has outlasted as many
    rw [repeatWhile, Nat.add_comm]
    refine Simulates.after (htop talk) ?_
    refine Simulates.bind ((htest talk).mono (by omega)) fun holds talk₁ _ => ?_
    cases holds with
    | false => exact hdone talk₁
    | true =>
      refine Simulates.bind ((hbody talk₁).mono (by omega)) fun _ talk₂ _ => ?_
      exact simulates_repeatWhile htop htest hbody hdone n talk₂ (by omega)

theorem drive_block {kind : BlockKind} {condition : κ} {children : List (Step κ)}
    {complete : Option κ}
    (hs : script.stepAt? here = some (.block kind condition children complete)) (prompts : Nat) :
    drive script ⟨here, .running, prompts⟩ =
      ⟨⟨here, .evaluatingCondition, prompts⟩, [.evaluateCondition condition]⟩ := by
  simp [drive, hs]

theorem simulates_test (condition : κ) (talk : Talk W) (least : Nat) :
    Simulates host script settings least
      (.busy [.evaluateCondition condition] none here .evaluatingCondition talk)
      (fun holds talk => .busy [] (some (.conditionEvaluated holds)) here .evaluatingCondition talk)
      (consulting .active here (consultCondition host condition) talk) :=
  simulates_consulting (consultCondition host condition) (some ∘ .conditionEvaluated)
    (by intro published; rfl) least

theorem leads_inside (talk : Talk W) :
    Leads host script settings 1
      (.busy [] (some (.conditionEvaluated true)) here .evaluatingCondition talk) []
      (.busy [] none (here.child 0) .running talk) := by
  have ht : transition script ⟨here, .evaluatingCondition, talk.prompts⟩
      (.conditionEvaluated true) = .ok ⟨⟨here.descend, .running, talk.prompts⟩, []⟩ := rfl
  exact leads_of_event ht

theorem leads_past {kind : BlockKind} {condition : κ} {children : List (Step κ)}
    {complete : Option κ}
    (hs : script.stepAt? here = some (.block kind condition children complete))
    (ha : advance script.steps here = ⟨next, exited⟩) (talk : Talk W) :
    Leads host script settings 1
      (.busy [] (some (.conditionEvaluated false)) here .evaluatingCondition talk) []
      (.busy (Effect.hooks kind.name complete ++ exitHooks script exited) none next .running
        talk) :=
  leads_of_moveOn _ ha (by simp [transition, hs])

mutual

theorem simulates_step (bound : Nat) : ∀ (step : Step κ) {here next : Position}
    {exited : List Position}, resolve? script.steps here = some step →
      advance script.steps here = ⟨next, exited⟩ → ∀ talk : Talk W,
        Simulates host script settings bound (.busy [] none here .running talk)
          (fun _ talk => .busy (exitHooks script exited) none next .running talk)
          (step.run host settings bound here next talk)
  | .output o, here, next, exited, hr, ha, talk =>
    simulates_output (lookup_of_resolve? hr) ha bound talk
  | .input i, here, next, exited, hr, ha, talk =>
    simulates_input (lookup_of_resolve? hr) ha bound talk
  | .block .branch condition children complete, here, next, exited, hr, ha, talk => by
    have hs : script.stepAt? here = some (.block .branch condition children complete) :=
      lookup_of_resolve? hr
    have hlast := advance_end hr (i := children.length - 1) (by omega)
    rw [ha] at hlast
    have hhooks : exitHooks script (here :: exited) =
        Effect.hooks "if" complete ++ exitHooks script exited := by
      simp [exitHooks, hs, Step.complete?]
    rw [Step.run]
    refine Simulates.from (leads_of_drive (drive_block hs talk.prompts)) ?_
    refine Simulates.bind (simulates_test condition talk bound) fun holds talk₁ _ => ?_
    cases holds with
    | false =>
      refine Simulates.from (leads_past hs ha talk₁) ?_
      exact simulates_finish "if" complete _ none next .running talk₁ bound
    | true =>
      refine Simulates.from (leads_inside talk₁) ?_
      refine Simulates.bind (simulates_runFrom bound children (bodyAt?_of_block hr) rfl
        (script.block_nonempty hr) hlast talk₁) fun _ talk₂ _ => ?_
      rw [hhooks]
      exact simulates_finish "if" complete _ none next .running talk₂ bound
  | .block .loop condition children complete, here, next, exited, hr, ha, talk => by
    have hs : script.stepAt? here = some (.block .loop condition children complete) :=
      lookup_of_resolve? hr
    have hlast := advance_end hr (i := children.length - 1) (by omega)
    rw [Step.run]
    refine Simulates.bind (simulates_repeatWhile
      (fun talk => leads_of_drive (drive_block hs talk.prompts))
      (fun talk => simulates_test condition talk bound)
      (fun talk₁ => Simulates.from (leads_inside talk₁) (simulates_runFrom bound children
        (bodyAt?_of_block hr) rfl (script.block_nonempty hr) hlast talk₁))
      (fun talk₁ => ⟨1, leads_past hs ha talk₁⟩) bound talk (Nat.le_refl bound)) ?_
    intro _ talk₂ _
    exact simulates_finish "while" complete _ none next .running talk₂ bound

/-- The steps of a body from one on, the last of which leads where the body ends. -/
theorem simulates_runFrom (bound : Nat) : ∀ (steps : List (Step κ)) {parent after : Position}
    {i : Nat} {body : List (Step κ)} {exited : List Position},
      bodyAt? script.steps parent = some body → body.drop i = steps → steps ≠ [] →
      advance script.steps (parent ++ [body.length - 1]) = ⟨after, exited⟩ → ∀ talk : Talk W,
        Simulates host script settings bound (.busy [] none (parent.child i) .running talk)
          (fun _ talk => .busy (exitHooks script exited) none after .running talk)
          (runFrom host settings bound parent i after steps talk)
  | [], _, _, _, _, _, _, _, hne, _, _ => absurd rfl hne
  | step :: rest, parent, after, i, body, exited, hb, hd, _, ha, talk => by
    obtain ⟨hr, hrest, hlen⟩ := step_of_drop hb hd
    rw [runFrom]
    cases hrs : rest with
    | nil =>
      have hlast : advance script.steps (parent.child i) = ⟨after, exited⟩ := by
        rw [hrs, List.length_nil] at hlen
        rw [← ha, hlen]
        rfl
      refine Simulates.bind (simulates_step bound step hr hlast talk) fun _ talk₁ _ => ?_
      exact ⟨0, Leads.refl _⟩
    | cons other others =>
      have hnext : advance script.steps (parent.child i) = ⟨parent.child (i + 1), []⟩ := by
        rw [hrs, List.length_cons] at hlen
        exact advance_sibling hb (by omega)
      refine Simulates.bind (simulates_step bound step hr hnext talk) fun _ talk₁ _ => ?_
      rw [← hrs]
      exact simulates_runFrom bound rest hb hrest (by simp [hrs]) ha talk₁

end

/-! ## Conversations -/

theorem simulates_steps (bound : Nat) (talk : Talk W) :
    Simulates host script settings bound (.busy [] none .start .running talk)
      (fun _ talk => .busy [] none [script.steps.length] .running talk)
      (runFrom host settings bound [] 0 [script.steps.length] script.steps talk) := by
  cases hs : script.steps with
  | nil => exact ⟨0, Leads.refl _⟩
  | cons step steps =>
    have hb : bodyAt? script.steps [] = some script.steps := rfl
    have hne : script.steps ≠ [] := by simp [hs]
    have ha : advance script.steps ([] ++ [script.steps.length - 1]) =
        ⟨[script.steps.length], []⟩ := by
      have hlen : script.steps.length - 1 + 1 = script.steps.length := by simp [hs]
      rw [List.nil_append, advance_top, hlen]
    rw [← hs]
    exact simulates_runFrom bound script.steps hb rfl hne ha talk

theorem simulates_formHook (effects : List (Effect κ)) (position : Position) (phase : Phase)
    (talk : Talk W) (least : Nat) :
    Simulates host script settings least (.busy (.runFormHook :: effects) none position phase talk)
      (fun _ talk => .busy effects none position phase talk)
      (finish host phase.status position script.complete talk) := by
  cases hc : script.complete with
  | none =>
    have hl : Leads host script settings 0
        (.busy (.runFormHook :: effects) none position phase talk) (List.map .occurred [])
        (.busy effects (Option.or none none) position phase talk) :=
      leads_of_perform rfl fun published => ⟨published, by simp [Session.perform, Talk.session, hc]⟩
    exact ⟨0, hl⟩
  | some callback =>
    refine simulates_consulting (consultHook host callback) (fun _ => none) (fun published => ?_)
      least
    simp [Session.perform, Talk.session, hc]

theorem simulates_script (bound : Nat) (talk : Talk W) :
    Simulates host script settings bound (.busy [] none .start .running talk)
      (fun _ talk => .idle [script.steps.length] .completed talk)
      (script.run host settings bound talk) := by
  have hd : ∀ prompts, drive script ⟨[script.steps.length], .running, prompts⟩ =
      ⟨⟨[script.steps.length], .completed, prompts⟩,
        [.runFormHook, .publishStatus .completed]⟩ := by
    simp [drive, Script.stepAt?, lookup]
  unfold Script.run
  refine Simulates.bind (simulates_steps bound talk) fun _ talk₁ _ => ?_
  refine Simulates.from (leads_of_drive (hd talk₁.prompts)) ?_
  refine Simulates.bind (simulates_formHook _ _ .completed talk₁ bound) fun _ talk₂ _ => ?_
  refine Simulates.bind (simulates_tell (by rfl) (by intro published; rfl) bound) ?_
  intro _ talk₃ _
  have hrest : Simulates host script settings bound
      (.busy [] none [script.steps.length] .completed talk₃)
      (fun _ talk => .idle [script.steps.length] .completed talk) (returns (.ok ()) talk₃) :=
    ⟨0, leads_of_rest (by simp) talk₃⟩
  refine Simulates.bind hrest fun _ talk₄ _ => ?_
  exact ends_of_completed _ talk₄

theorem bind_goesOn {α β : Type} {m : Act κ W α} {f : α → Act κ W β} {talk later : Talk W} {v : β}
    (h : ((m >>= f) talk).fate = .goesOn v later) :
    ∃ u middle, (f u middle).fate = .goesOn v later := by
  change (Act.bind m f talk).fate = .goesOn v later at h
  unfold Act.bind at h
  cases hm : (m talk).fate with
  | goesOn u middle => rw [hm] at h; exact ⟨u, middle, h⟩
  | ended => rw [hm] at h; cases h
  | cut => rw [hm] at h; cases h

theorem run_ends {bound : Nat} {talk later : Talk W} {v : Unit}
    (h : (script.run host settings bound talk).fate = .goesOn v later) : False := by
  unfold Script.run at h
  obtain ⟨_, _, h⟩ := bind_goesOn h
  obtain ⟨_, _, h⟩ := bind_goesOn h
  obtain ⟨_, _, h⟩ := bind_goesOn h
  obtain ⟨_, _, h⟩ := bind_goesOn h
  cases h

def opening (world : W) (calls : List (String × Nat)) : Scene κ W :=
  .busy [] none .start .running ⟨.empty, [], 0, world, calls⟩

theorem record_opening (bound : Nat) (world : W) (calls : List (String × Nat)) :
    ((opening world calls).record host script settings (bound + 1)
      (Session.fresh script settings).published) =
        (Session.fresh script settings).record host bound world calls := by
  rw [opening, Scene.record, Session.carry_nil_running host rfl, Stage.record_again rfl]
  rfl

variable (host script settings)

theorem interpret_told (bound : Nat) (world : W) (calls : List (String × Nat)) :
    ((interpret host settings bound script world calls).fate = .ended ∧
      Ends host script settings (opening world calls)
        (interpret host settings bound script world calls).marks) ∨
    ((interpret host settings bound script world calls).fate = .cut ∧
      Lasts host script settings bound (opening world calls)
        (interpret host settings bound script world calls).marks) := by
  have h : Simulates host script settings bound (opening world calls) _
      (script.run host settings bound ⟨.empty, [], 0, world, calls⟩) := simulates_script bound _
  unfold Simulates at h
  unfold interpret
  cases hf : (script.run host settings bound ⟨.empty, [], 0, world, calls⟩).fate with
  | goesOn v later => exact (run_ends hf).elim
  | ended => rw [hf] at h; exact .inl ⟨rfl, h⟩
  | cut => rw [hf] at h; exact .inr ⟨rfl, h⟩

/-- An interpreter with a larger bound tells all that is on record. -/
theorem record_within {bound n : Nat} (hn : n + 1 < bound) (world : W)
    (calls : List (String × Nat)) :
    ((Session.fresh script settings).record host n world calls).marks <+:
        (interpret host settings bound script world calls).marks ∧
      (((Session.fresh script settings).record host n world calls).complete = true →
        interpret host settings bound script world calls =
          ⟨((Session.fresh script settings).record host n world calls).marks, .ended⟩) := by
  rw [← record_opening]
  rcases interpret_told host script settings bound world calls with ⟨hf, h⟩ | ⟨hf, h⟩
  · obtain ⟨k, hall, hbefore⟩ := h (Session.fresh script settings).published
    by_cases hk : n + 1 < k
    · obtain ⟨early, he, hp⟩ := hbefore (n + 1) hk
      rw [he]
      exact ⟨hp, nofun⟩
    · have he := hall (n + 1 - k)
      rw [Nat.add_sub_cancel' (by omega)] at he
      rw [he]
      exact ⟨List.prefix_rfl, fun _ => by rw [← hf]⟩
  · obtain ⟨k, hk, _, hbefore⟩ := h (Session.fresh script settings).published
    obtain ⟨early, he, hp⟩ := hbefore (n + 1) (by omega)
    rw [he]
    exact ⟨hp, nofun⟩

/-- All that the interpreter tells is on record at some bound. -/
theorem interpret_within (bound : Nat) (world : W) (calls : List (String × Nat)) :
    ∃ n, (interpret host settings bound script world calls).marks <+:
        ((Session.fresh script settings).record host n world calls).marks ∧
      ((interpret host settings bound script world calls).fate = .ended →
        (Session.fresh script settings).record host n world calls =
          ⟨(interpret host settings bound script world calls).marks, true⟩) := by
  rcases interpret_told host script settings bound world calls with ⟨hf, h⟩ | ⟨hf, h⟩
  · obtain ⟨k, hall, _⟩ := h (Session.fresh script settings).published
    have he := hall 1
    rw [record_opening] at he
    exact ⟨k, ⟨[], by rw [he, List.append_nil]⟩, fun _ => he⟩
  · obtain ⟨k, _, hp, _⟩ := h (Session.fresh script settings).published
    rw [hf]
    cases k with
    | zero => exact ⟨0, hp.trans List.nil_prefix, nofun⟩
    | succ k => rw [record_opening] at hp; exact ⟨k, hp, nofun⟩

end

/-- The refinement of the structured reading. Where all calls return, session and interpreter agree
on the whole record, and in any case on the beginnings of it, also where a loop never ends. -/
theorem conversation_refines (host : Host κ W) (settings : Settings) (script : Script κ) (world : W)
    (calls : List (String × Nat)) :
    (∀ marks, (∃ bound, (Session.fresh script settings).converse host bound world calls =
        some marks) ↔
      ∃ bound, interpret host settings bound script world calls = ⟨marks, .ended⟩) ∧
    ∀ marks, (∃ bound,
        marks <+: ((Session.fresh script settings).record host bound world calls).marks) ↔
      ∃ bound, marks <+: (interpret host settings bound script world calls).marks := by
  refine ⟨fun marks => ?_, fun marks => ?_⟩
  · rw [converse_iff_record]
    constructor
    · rintro ⟨bound, h⟩
      have hw := (record_within host script settings (Nat.lt_succ_self (bound + 1)) world
        calls).2
      rw [h] at hw
      exact ⟨bound + 2, hw rfl⟩
    · rintro ⟨bound, h⟩
      obtain ⟨n, _, hn⟩ := interpret_within host script settings bound world calls
      rw [h] at hn
      exact ⟨n, hn rfl⟩
  · constructor
    · rintro ⟨bound, h⟩
      have hw := (record_within host script settings (Nat.lt_succ_self (bound + 1)) world
        calls).1
      exact ⟨bound + 2, h.trans hw⟩
    · rintro ⟨bound, h⟩
      obtain ⟨n, hn, _⟩ := interpret_within host script settings bound world calls
      exact ⟨n, h.trans hn⟩

end Dialogue
