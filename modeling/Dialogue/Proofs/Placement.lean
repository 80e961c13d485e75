import Dialogue.Proofs.Brackets
import Dialogue.Proofs.Breakdown
import Dialogue.Proofs.Moments

/-!
# Placement

Where the failure of a callback is reported: with the role of the callback, at the position where
control is then. That is the step to which the callback belongs, with one exception. Control has
already gone on when the callbacks for the end of inputs and blocks are called, so their failures
are reported at the step that comes next and never at their own.
-/

namespace Dialogue

variable {κ W α β : Type}

/-! ## The callbacks of a step -/

inductive Step.Has : Step κ → Role → κ → Prop
  | text {o : Output κ} {callback : κ} (h : o.wording = some (.computed callback)) :
    Has (.output o) .text callback
  | condition (kind : BlockKind) (condition : κ) (children : List (Step κ)) (complete : Option κ) :
    Has (.block kind condition children complete) .condition condition
  | predicate {i : Input κ} {rule : Rule κ} {callback : κ} (hr : rule ∈ i.rules)
    (h : rule.predicate = some callback) : Has (.input i) .validation callback
  | errorText {i : Input κ} {rule : Rule κ} {callback : κ} (hr : rule ∈ i.rules)
    (h : rule.errorText = .computed callback) : Has (.input i) .text callback
  | complete {step : Step κ} {callback : κ} (h : step.complete? = some callback) :
    Has step .hook callback

/-- The callback belongs to the step at the position; that for the end of the script belongs to the
index just past the last step. -/
inductive Script.Has (script : Script κ) : Position → Role → κ → Prop
  | step {q : Position} {step : Step κ} {role : Role} {callback : κ}
    (hq : resolve? script.steps q = some step) (h : step.Has role callback) :
    Has script q role callback
  | complete {q : Position} {callback : κ} (hq : q = [script.steps.length])
    (h : script.complete = some callback) : Has script q .hook callback

inductive Script.Calls (script : Script κ) : Effect κ → Role → κ → Prop
  | text (callback : κ) : Calls script (.resolveText (some (.computed callback))) .text callback
  | output (wait : Duration) (callback : κ) :
    Calls script (.settleOutput wait (some callback)) .hook callback
  | condition (callback : κ) : Calls script (.evaluateCondition callback) .condition callback
  | predicate {rules : List (Rule κ)} {rule : Rule κ} {callback : κ} (text : String)
    (hr : rule ∈ rules) (h : rule.predicate = some callback) :
    Calls script (.validate rules text) .validation callback
  | errorText {rules : List (Rule κ)} {rule : Rule κ} {callback : κ} (text : String)
    (hr : rule ∈ rules) (h : rule.errorText = .computed callback) :
    Calls script (.validate rules text) .text callback
  | hook (callback : κ) (step : String) : Calls script (.runHook callback step) .hook callback
  | complete {callback : κ} (h : script.complete = some callback) :
    Calls script .runFormHook .hook callback

/-! ## The callbacks that an effect calls -/

def OnlyCalls (P : Role → κ → Prop) (history : List (Occurrence κ)) : Prop :=
  ∀ call reply, .called call reply ∈ history → P call.role call.callback

section
variable {P : Role → κ → Prop} {a b : List (Occurrence κ)}

theorem OnlyCalls.nil : OnlyCalls P [] := nofun

theorem OnlyCalls.append (ha : OnlyCalls P a) (hb : OnlyCalls P b) : OnlyCalls P (a ++ b) := by
  intro call reply h
  rcases List.mem_append.mp h with h | h
  · exact ha call reply h
  · exact hb call reply h

theorem consultFor_calls {call : Call κ} (h : P call.role call.callback) (record : α → Value)
    (reply : Reply α) (millis : Nat) (world : W) :
    OnlyCalls P (consultFor call record reply millis world).history := by
  intro call' reply' hmem
  simp only [consultFor, List.mem_cons, Occurrence.called.injEq, reduceCtorEq, List.not_mem_nil,
    or_false] at hmem
  obtain ⟨rfl, -⟩ := hmem
  exact h

theorem consult_calls {call : Call κ} (h : P call.role call.callback) (record : α → Value)
    (answer : Reply α × W) : OnlyCalls P (consult call record answer).history :=
  consultFor_calls h _ _ _ _

theorem onlyCalls_iff {history : List (Occurrence κ)} : OnlyCalls P history ↔
    ∀ o ∈ history, ∀ call reply, o = .called call reply → P call.role call.callback :=
  ⟨fun h _ ho call reply he => h call reply (he ▸ ho), fun h _ _ ho => h _ ho _ _ rfl⟩

theorem calls_closed :
    Consulted.Closed P fun α (c : Consulted κ W α) => OnlyCalls P c.history := by
  simp only [onlyCalls_iff]
  exact closed_forall (fun _ _ h _ _ ho => by cases ho; exact h) fun _ _ _ ho => by cases ho

section
variable (host : Host κ W) (answers : Answers)

theorem settleOutput_calls (pause : Nat) {complete : Option κ}
    (h : ∀ callback, complete = some callback → P .hook callback) (world : W) :
    OnlyCalls P (settleOutput host pause complete answers world).history := by
  cases complete with
  | none => simp [OnlyCalls, settleOutput]
  | some callback => exact consultFor_calls (h callback rfl) _ _ _ _

end

end

theorem perform_calls (host : Host κ W) (s : Session κ) (world : W) (effect : Effect κ) :
    OnlyCalls (s.script.Calls effect) (s.perform host world effect).history := by
  cases effect with
  | resolveText wording =>
    cases wording with
    | none => exact .nil
    | some wording =>
      refine calls_closed.wording host s.answers (fun callback h => ?_) world
      subst h
      exact .text callback
  | settleOutput wait complete =>
    refine settleOutput_calls host s.answers _ (fun callback h => ?_) world
    subst h
    exact .output wait callback
  | evaluateCondition condition => exact consult_calls (.condition condition) _ _
  | validate rules text =>
    exact calls_closed.rules host text s.answers (fun _ hr _ h => .predicate text hr h)
      (fun _ hr _ h => .errorText text hr h) world
  | runHook callback step => exact consult_calls (.hook callback step) _ _
  | runFormHook =>
    unfold Session.perform
    cases h : s.script.complete with
    | none => exact .nil
    | some callback => exact consult_calls (.complete h) _ _
  | _ => simp [OnlyCalls, Session.perform, Session.announce, Session.told]

theorem conclude_position {s : Session κ} {c : Consulted κ W α} {answer : α → Option Event}
    {failure : Failure} (h : (s.conclude c answer).outcome = .error failure) :
    failure.position = s.state.position := by
  cases hc : c.result with
  | ok a => simp [Session.conclude, hc] at h
  | error e =>
    simp only [Session.conclude, hc, Except.error.injEq] at h
    rw [← h]

theorem perform_position {host : Host κ W} {s : Session κ} {world : W} {effect : Effect κ}
    {failure : Failure} (h : (s.perform host world effect).outcome = .error failure) :
    failure.position = s.state.position := by
  cases effect with
  | resolveText wording =>
    cases wording with
    | none => cases h
    | some wording => exact conclude_position h
  | settleOutput wait complete => exact conclude_position h
  | evaluateCondition condition => exact conclude_position h
  | validate rules text => exact conclude_position h
  | runHook callback step => exact conclude_position h
  | runFormHook =>
    unfold Session.perform at h
    cases hc : s.script.complete with
    | none => simp [hc] at h
    | some callback =>
      simp only [hc] at h
      exact conclude_position h
  | _ => cases h

/-! ## Where control goes on -/

section
variable {steps : List (Step κ)} {p : Position} {a : Advance}

theorem Advances.eq_advance (h : Advances steps p a) : a = advance steps p := by
  induction h with
  | sibling hb hi => rw [advance_sibling hb hi]
  | past => rw [advance_top]
  | again hp hi => rw [advance_end hp (by omega)]
  | leave hp hi _ ih => rw [advance_end hp (by omega), ← ih]

theorem Advances.next_length_le (h : Advances steps p a) : a.next.length ≤ p.length := by
  induction h with
  | sibling => simp
  | past => simp
  | again => simp
  | leave _ _ _ ih => exact Nat.le_trans ih (by simp)

theorem Advances.next_ne (h : Advances steps p a) : a.next ≠ p := by
  cases h with
  | sibling => simp
  | past => simp
  | again => simp
  | leave _ _ ha =>
    intro he
    have hle := ha.next_length_le
    rw [he, List.length_append, List.length_singleton] at hle
    omega

/-- Where control goes on from a step, it goes on from the branches that end with it. -/
theorem Advances.exited_next (h : Advances steps p a) :
    ∀ q ∈ a.exited, (advance steps q).next = a.next := by
  induction h with
  | leave _ _ ha ih =>
    refine List.forall_mem_cons.mpr ⟨?_, ih⟩
    rw [← ha.eq_advance]
  | _ => exact nofun

end

/-! ## The step that an effect is about -/

/-- The effect is about the step at the position of the state, or it calls for the end of one of
the steps that the event closes: `done` has the effects before it. -/
inductive State.Concerns (script : Script κ) (s : State) (event : Event) (done : List (Effect κ))
    (effect : Effect κ) : Position → Prop
  | own (h : effect.isHook = false) : Concerns script s event done effect s.position
  | closed {earlier later : List Position} {q : Position}
    (hclosed : s.closes script event = earlier ++ q :: later)
    (heffect : script.hooksAt q = [effect])
    (hdone : done.filter Effect.isHook = earlier.flatMap script.hooksAt) :
    Concerns script s event done effect q

section
variable {script : Script κ} {s : State} {event : Event} {t : Transition κ}
  {done left : List (Effect κ)} {effect : Effect κ} {role : Role} {callback : κ} {q : Position}

theorem hooksAt_cases (script : Script κ) (q : Position) : script.hooksAt q = [] ∨
    ∃ step callback, script.stepAt? q = some step ∧ step.complete? = some callback ∧
      script.hooksAt q = [.runHook callback step.kindName] := by
  unfold Script.hooksAt
  cases hq : script.stepAt? q with
  | none => exact .inl rfl
  | some step =>
    simp only
    cases hc : step.complete? with
    | none => exact .inl rfl
    | some callback => exact .inr ⟨step, callback, rfl, hc, rfl⟩

theorem hooksAt_split : ∀ {positions : List Position} {before after : List (Effect κ)},
    positions.flatMap script.hooksAt = before ++ effect :: after → ∃ earlier q later,
      positions = earlier ++ q :: later ∧ script.hooksAt q = [effect] ∧
        before = earlier.flatMap script.hooksAt
  | [], before, after, h => by simp at h
  | p :: positions, before, after, h => by
    rw [List.flatMap_cons] at h
    rcases hooksAt_cases script p with hp | ⟨step, callback, _, _, hp⟩
    · rw [hp] at h
      obtain ⟨earlier, q, later, rfl, hq, rfl⟩ := hooksAt_split h
      exact ⟨p :: earlier, q, later, rfl, hq, by rw [List.flatMap_cons, hp]; rfl⟩
    · rw [hp] at h
      cases before with
      | nil =>
        obtain ⟨rfl, -⟩ := List.cons.inj h
        exact ⟨[], p, positions, rfl, hp, rfl⟩
      | cons first before =>
        obtain ⟨rfl, hrest⟩ := List.cons.inj h
        obtain ⟨earlier, q, later, rfl, hq, rfl⟩ := hooksAt_split hrest
        exact ⟨p :: earlier, q, later, rfl, hq, by rw [List.flatMap_cons, hp]; rfl⟩

theorem hooksAt_has (hq : script.hooksAt q = [effect])
    (hr : ∃ step, resolve? script.steps q = some step) (hc : script.Calls effect role callback) :
    script.Has q role callback := by
  obtain ⟨step, hr⟩ := hr
  rcases hooksAt_cases script q with hnone | ⟨step', callback', hstep, hcomplete, hq'⟩
  · rw [hnone] at hq
    cases hq
  · rw [hq'] at hq
    cases hq
    cases (lookup_of_resolve? hr).symm.trans hstep
    cases hc
    exact .step hr (.complete hcomplete)

theorem closes_next (hw : s.WellFormed script) (h : Moves script s event t) :
    ∀ q ∈ s.closes script event, t.state.position = (advance script.steps q).next := by
  intro q hq
  obtain ⟨step, hs, hnext, rfl | hexited⟩ := mem_closes hw h hq
  · exact hnext
  · exact hnext.trans ((advance_advances hs).exited_next q hexited).symm

theorem moves_own (hw : s.WellFormed script) (h : Moves script s event t)
    (hmem : effect ∈ t.effects) (hh : effect.isHook = false)
    (hc : script.Calls effect role callback) :
    t.state.position = s.position ∧ script.Has s.position role callback := by
  have hrunHook {callback : κ} {step : String} (he : effect = .runHook callback step) : False := by
    rw [he] at hh
    cases hh
  have he := hw.exact
  cases h with
  | finish _ h =>
    simp only [List.mem_cons, List.not_mem_nil, or_false] at hmem
    rcases hmem with rfl | rfl
    · cases hc with
      | complete hcomplete =>
        rcases hw.lands with ⟨step, hs⟩ | hend
        · rw [he, hs] at h
          cases h
        · exact ⟨rfl, .complete hend hcomplete⟩
    · cases hc
  | produce _ h =>
    obtain rfl := List.mem_singleton.mp hmem
    generalize hwording : Output.wording _ = wording at hc
    cases hc with
    | text => exact ⟨rfl, .step (he ▸ h) (.text hwording)⟩
  | present =>
    obtain rfl := List.mem_singleton.mp hmem
    cases hc
  | ask _ h =>
    obtain rfl := List.mem_singleton.mp hmem
    cases hc with
    | condition => exact ⟨rfl, .step (he ▸ h) (.condition _ _ _ _)⟩
  | @say o _ _ h =>
    simp only [List.mem_cons, List.not_mem_nil, or_false] at hmem
    rcases hmem with rfl | rfl
    · cases hc
    · generalize hcomplete : o.complete = complete at hc
      cases hc with
      | output _ callback =>
        have hstep : (Step.output o).complete? = some callback := hcomplete
        exact ⟨rfl, .step (he ▸ h) (.complete hstep)⟩
  | settle =>
    obtain ⟨_, hhook⟩ := mem_exitHooks hmem
    exact (hrunHook hhook).elim
  | enter => cases hmem
  | leave =>
    obtain ⟨_, _, hhook⟩ := mem_closing hmem
    exact (hrunHook hhook).elim
  | submit _ h =>
    simp only [List.mem_cons, List.not_mem_nil, or_false] at hmem
    rcases hmem with rfl | rfl | rfl
    · cases hc
    · cases hc
    · cases hc with
      | predicate _ hr hp => exact ⟨rfl, .step (he ▸ h) (.predicate hr hp)⟩
      | errorText _ hr ht => exact ⟨rfl, .step (he ▸ h) (.errorText hr ht)⟩
  | accept =>
    rcases List.mem_cons.mp hmem with rfl | hmem
    · cases hc
    · obtain ⟨_, _, hhook⟩ := mem_closing hmem
      exact (hrunHook hhook).elim
  | refuse =>
    obtain rfl := List.mem_singleton.mp hmem
    cases hc

/-- An effect that calls a callback is about a step that has it. Control is there, unless it has
gone on from there before the callback for its end is called. -/
theorem moves_concerns (hw : s.WellFormed script) (h : Moves script s event t)
    (hsplit : t.effects = done ++ effect :: left) (hc : script.Calls effect role callback) :
    ∃ q, s.Concerns script event done effect q ∧ script.Has q role callback ∧
      t.state.position = (if effect.isHook then (advance script.steps q).next else q) ∧
        (effect.isHook = true → t.state.position ≠ q) := by
  by_cases hh : effect.isHook = true
  · have hhooks := moves_hooks hw h
    rw [hsplit, List.filter_append, List.filter_cons_of_pos hh] at hhooks
    obtain ⟨earlier, q, later, hclosed, hq, hdone⟩ := hooksAt_split hhooks.symm
    have hmem : q ∈ s.closes script event := by
      rw [hclosed]
      exact List.mem_append_right _ List.mem_cons_self
    have hresolve := closes_resolve hw h q hmem
    have hnext := closes_next hw h q hmem
    refine ⟨q, .closed hclosed hq hdone, hooksAt_has hq hresolve hc, by rw [if_pos hh, hnext], ?_⟩
    intro _
    obtain ⟨step, hs⟩ := hresolve
    rw [hnext]
    exact (advance_advances hs).next_ne
  · have hown : effect.isHook = false := Bool.eq_false_iff.mpr hh
    have hmem : effect ∈ t.effects := by
      rw [hsplit]
      exact List.mem_append_right _ List.mem_cons_self
    obtain ⟨hposition, hhas⟩ := moves_own hw h hmem hown hc
    exact ⟨s.position, .own hown, hhas, by rw [if_neg hh, hposition], fun h => absurd h hh⟩

end

/-! ## Failures that are returned -/

/-- The failure of the callback of `call`, which belongs to the step at `q` and was called for by
the effect. -/
structure Failure.Placed (script : Script κ) (failure : Failure) (call : Call κ)
    (effect : Effect κ) (q : Position) : Prop where
  role : failure.role = call.role
  owner : script.Has q call.role call.callback
  -- it is reported there, or where control has gone on from there
  position : failure.position = if effect.isHook then (advance script.steps q).next else q
  moved : effect.isHook = true → failure.position ≠ q

section
variable {host : Host κ W} {script : Script κ}

theorem mem_stage_marks {stage : Stage κ W} {result : CallResult}
    (h : .returned result ∈ stage.marks) : stage.next = .returns result := by
  unfold Stage.marks at h
  cases hn : stage.next with
  | again event => simp [hn] at h
  | returns result' =>
    simp [hn] at h
    rw [h]

namespace Conversation

variable {c : Conversation κ W} {failure : Failure} {n : Nat}

theorem returned_taken (h : .returned (.error (.callback failure)) ∈ (c.after host n).marks) :
    .returned (.error (.callback failure)) ∈ c.marks ∨ ∃ m < n, ∃ event requests t,
      (c.after host m).event? = some (event, requests) ∧
      (c.after host m).session.halted = false ∧
      transition (c.after host m).session.script (c.after host m).session.state event = .ok t ∧
      ((c.after host m).session.react host (c.after host m).world event).next =
        .returns (.error (.callback failure)) := by
  induction n with
  | zero => exact .inl h
  | succ n ih =>
    by_cases hold : .returned (.error (.callback failure)) ∈ (c.after host n).marks
    · exact (ih hold).imp_right fun ⟨m, hlt, hm⟩ => ⟨m, Nat.lt_succ_of_lt hlt, hm⟩
    have hturn := next_turn host (c.after host n)
    rw [after] at h
    generalize (c.after host n).next host = c' at hturn h
    cases hturn with
    | idle => exact absurd h hold
    | declined _ he _ =>
      cases List.mem_singleton.mp ((List.mem_append.mp h).resolve_left hold)
      cases he
    | @taken event requests t he hh ht =>
      have hstage := (List.mem_append.mp h).resolve_left hold
      exact .inr ⟨n, Nat.lt_succ_self n, event, requests, t, he, hh, ht, mem_stage_marks hstage⟩

theorem clean_of_live (hh : c.session.halted = false) (hm : Clean c.marks)
    (hlive : (c.after host n).session.halted = false) : Clean (c.after host n).marks := by
  rcases after_cases hh hm n with ⟨_, hclean⟩ | ⟨m, hlt, before, call, reply, t, b, hbreaks⟩
  · exact hclean
  · obtain ⟨k, hk⟩ := after_later host hlt c
    rw [hk, hbreaks.frozen.session k, hbreaks.frozen.halted] at hlive
    cases hlive

end Conversation

theorem react_failed {s : Session κ} {event : Event} {t : Transition κ} {world : W}
    {failure : Failure} (ht : transition s.script s.state event = .ok t)
    (hn : (s.react host world event).next = .returns (.error (.callback failure))) :
    ∃ b : Breakdown host t.effects { s with state := t.state } world, b.failure = failure := by
  unfold Session.react at hn
  rw [ht] at hn
  cases ho : (Session.performAll host t.effects { s with state := t.state } world).outcome with
  | error failure' =>
    simp only [ho] at hn
    cases hn
    exact Breakdown.exists_of_error ho
  | ok answer =>
    cases answer with
    | some later => simp [ho] at hn
    | none =>
      simp only [ho] at hn
      split at hn <;> cases hn

theorem breakdown_placed {s : Session κ} {event : Event} {t : Transition κ} {world : W}
    (hs : s.script = script) (hw : s.state.WellFormed script)
    (ht : transition script s.state event = .ok t)
    (b : Breakdown host t.effects { s with state := t.state } world) {call : Call κ}
    {reply : Reply Value} (hc : .called call reply ∈ b.failed.history)
    (hrole : call.role = b.failure.role) : ∃ q, s.state.Concerns script event b.done b.effect q ∧
      b.failure.Placed script call b.effect q := by
  have hgrows := b.reached_grows
  have hscript : b.reached.session.script = script := hgrows.script.trans hs
  have hcalls := perform_calls host b.reached.session b.reached.world b.effect
  have hfails := b.fails
  rw [← b.failed_eq] at hc hfails
  have hposition : b.failure.position = t.state.position := by
    rw [perform_position hfails, hgrows.state]
  have hcall : script.Calls b.effect call.role call.callback := hscript ▸ hcalls call reply hc
  obtain ⟨q, hq, hhas, hat, hmoved⟩ := moves_concerns hw (transition_moves ht) b.split hcall
  exact ⟨q, hq, hrole.symm, hhas, hposition.trans hat, fun hh => hposition ▸ hmoved hh⟩

end

/-- **Placement.** A failure that is returned is that of the callback at which the conversation has
broken off. It has the role of the callback, and it is reported at the step to which the callback
belongs, or else, for the end of an input or a block, at the one where control has gone on. -/
theorem failure_placed (host : Host κ W) (script : Script κ) (settings : Settings) (world : W)
    (requests : List Request) (n : Nat) (failure : Failure) :
    let c := (Conversation.opened script settings world requests).after host
    .returned (.error (.callback failure)) ∈ (c n).marks →
    ∃ m < n, ∃ event later before call reply, ∃ (t : Transition κ) (b : Breakdown host t.effects
      { (c m).session with state := t.state } (c m).world) (q : Position),
      (c m).event? = some (event, later) ∧
      transition script (c m).session.state event = .ok t ∧
      (c m).BreaksOff host before call reply b ∧ b.failure = failure ∧
      (c m).session.state.Concerns script event b.done b.effect q ∧
      failure.Placed script call b.effect q := by
  intro c h
  have hopened : Clean (Conversation.opened script settings world requests).marks := .nil
  rcases Conversation.returned_taken h with hnone | ⟨m, hlt, event, later, t, he, hh, ht, hn⟩
  · cases hnone
  have hclean := Conversation.clean_of_live rfl hopened hh
  have hgoing := Conversation.after_going host
    (Conversation.opened_going script settings world requests) m
  obtain ⟨b, rfl⟩ := react_failed ht hn
  obtain ⟨before, call, reply, hbreaks, hcall⟩ := Conversation.exists_breaksOff he hh ht hclean b
  rw [hgoing.kept] at ht
  obtain ⟨q, hq, hplaced⟩ := breakdown_placed hgoing.kept hgoing.reachable.wellFormed ht b hcall
    hbreaks.role
  exact ⟨m, hlt, event, later, before, call, reply, t, b, q, he, ht, hbreaks, rfl, hq, hplaced⟩

/-- The callback for the end of the second input fails when control is back at the loop. -/
theorem survey_placed :
    let c := (Conversation.opened survey .instant 0 [.start, .submit "cat", .submit "ball"]).after
      (failingAt 3)
    let failure : Failure := ⟨.hook, [0], "out of order"⟩
    .returned (.error (.callback failure)) ∈ (c 11).marks ∧
      ∃ call effect q, failure.Placed survey call effect q ∧ q ≠ [0] := by
  intro c failure
  have hlast : (c 11).marks.getLast? = some (.returned (.error (.callback failure))) := rfl
  have hmem := List.mem_of_getLast? hlast
  obtain ⟨_, _, _, _, _, call, _, _, b, q, _, _, _, _, _, hplaced⟩ :=
    failure_placed (failingAt 3) survey .instant 0 [.start, .submit "cat", .submit "ball"] 11
      failure hmem
  refine ⟨hmem, call, b.effect, q, hplaced, ?_⟩
  rintro rfl
  -- the loop has no callback for its end
  have howner := hplaced.owner
  rw [← hplaced.role] at howner
  cases howner with
  | step hq h =>
    cases hq
    cases h with
    | complete h => cases h
  | complete hq _ => cases hq

def signup : Script Unit where
  steps := [.input ⟨"name", [], some ()⟩, .output ⟨some (.literal "Welcome"), .zero, none⟩]
  complete := none
  filled := rfl

/-- The callback for the end of the input fails, and the output is blamed, which has none. -/
theorem input_hook_misplaced :
    let c := (Conversation.opened signup .instant 0 [.start, .submit "Ada"]).after (failingAt 0)
    ∃ failure, .returned (.error (.callback failure)) ∈ (c 3).marks ∧
      ∀ callback, ¬ signup.Has failure.position failure.role callback := by
  intro c
  have hlast : (c 3).marks.getLast? =
      some (.returned (.error (.callback ⟨.hook, [1], "out of order"⟩))) := rfl
  refine ⟨_, List.mem_of_getLast? hlast, fun callback h => ?_⟩
  cases h with
  | step hq h =>
    cases hq
    cases h with
    | complete h => cases h
  | complete _ h => cases h

end Dialogue
