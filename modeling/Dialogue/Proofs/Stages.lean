import Dialogue.Proofs.Carry
import Dialogue.Proofs.History
import Dialogue.Proofs.WellFormed

/-!
# Stages

What taking one event comes to. The effects of a transition end in the one that is answered, if
there is one, and its answer is an event that the new phase awaits. So a call goes on until a
callback fails or the conversation is at rest.
-/

namespace Dialogue

variable {κ W β : Type}

/-! ## Effects that are answered -/

def Effect.asking? : Effect κ → Option Phase
  | .resolveText _ => some .resolvingText
  | .settleOutput _ _ => some .settling
  | .evaluateCondition _ => some .evaluatingCondition
  | .validate _ text => some (.validating text)
  | _ => none

inductive Asks (phase : Phase) : List (Effect κ) → Prop
  | last {effect : Effect κ} (h : effect.asking? = some phase) : Asks phase [effect]
  | cons {effect : Effect κ} {effects : List (Effect κ)} (h : effect.asking? = none) :
    Asks phase effects → Asks phase (effect :: effects)

def Quiet (effects : List (Effect κ)) : Prop :=
  ∀ effect ∈ effects, effect.asking? = none

def Event.Internal (event : Event) : Prop :=
  ∀ text turn, event ≠ .submitted text turn

inductive Event.Has : Event → Effect κ → Prop
  | hook {event : Event} (callback : κ) (step : String) : Has event (.runHook callback step)
  | status {event : Event} (status : Status) : Has event (.publishStatus status)
  | complete : Has .drive .runFormHook
  | produce (wording : Option (Wording κ)) : Has .drive (.resolveText wording)
  | ask (condition : κ) : Has .drive (.evaluateCondition condition)
  | say (text : String) : Has (.textResolved text) (.appendMessage .bot text)
  | settle (text : String) (wait : Duration) (complete : Option κ) :
    Has (.textResolved text) (.settleOutput wait complete)
  | hear (text : String) (turn : Nat) : Has (.submitted text turn) (.appendMessage .user text)
  | check (text : String) (turn : Nat) (rules : List (Rule κ)) :
    Has (.submitted text turn) (.validate rules text)
  | store (name value : String) : Has .validationPassed (.storeAnswer name value)
  | refuse (errorText : String) :
    Has (.validationFailed errorText) (.appendMessage .bot errorText)

theorem mem_hooks {step : String} {complete : Option κ} {effect : Effect κ}
    (h : effect ∈ Effect.hooks step complete) : ∃ callback, effect = .runHook callback step := by
  cases complete with
  | none => cases h
  | some callback => exact ⟨callback, List.mem_singleton.mp h⟩

theorem mem_exitHooks {script : Script κ} {exited : List Position} {effect : Effect κ}
    (h : effect ∈ exitHooks script exited) : ∃ callback, effect = .runHook callback "if" := by
  obtain ⟨p, _, hp⟩ := List.mem_flatMap.mp h
  exact mem_hooks hp

/-- All that is left to do at the end of a step is to call for what the ends of steps have. -/
theorem mem_closing {script : Script κ} {step : String} {complete : Option κ}
    {exited : List Position} {effect : Effect κ}
    (h : effect ∈ Effect.hooks step complete ++ exitHooks script exited) :
    ∃ callback name, effect = .runHook callback name := by
  rcases List.mem_append.mp h with h | h
  · obtain ⟨callback, rfl⟩ := mem_hooks h
    exact ⟨callback, _, rfl⟩
  · obtain ⟨callback, rfl⟩ := mem_exitHooks h
    exact ⟨callback, _, rfl⟩

section
variable {script : Script κ} {s : State} {event : Event} {t : Transition κ}

theorem quiet_moveOn {finish : List (Effect κ)} (h : Quiet finish) :
    Quiet (moveOn script s finish).effects := by
  intro effect he
  rcases List.mem_append.mp he with he | he
  · exact h effect he
  · obtain ⟨callback, rfl⟩ := mem_exitHooks he
    rfl

theorem quiet_hooks (step : String) (complete : Option κ) : Quiet (Effect.hooks step complete) := by
  intro effect he
  obtain ⟨callback, rfl⟩ := mem_hooks he
  rfl

/-- An effect is answered exactly in the phases that await something other than a submission. -/
theorem moves_asks (h : Moves script s event t) : Asks t.state.phase t.effects ∨
    Quiet t.effects ∧ (t.state.phase = .running ∨ t.state.phase = .awaitingInput ∨
      t.state.phase = .completed) := by
  cases h with
  | finish hp h => exact .inr ⟨by simp [Quiet, Effect.asking?], .inr (.inr rfl)⟩
  | produce hp h => exact .inl (.last rfl)
  | present hp h => exact .inr ⟨by simp [Quiet, Effect.asking?], .inr (.inl rfl)⟩
  | ask hp h => exact .inl (.last rfl)
  | say hp h => exact .inl (.cons rfl (.last rfl))
  | settle hp => exact .inr ⟨quiet_moveOn nofun, .inl rfl⟩
  | enter hp => exact .inr ⟨nofun, .inl rfl⟩
  | leave hp h => exact .inr ⟨quiet_moveOn (quiet_hooks _ _), .inl rfl⟩
  | submit hp h => exact .inl (.cons rfl (.cons rfl (.last rfl)))
  | accept hp h =>
    refine .inr ⟨quiet_moveOn fun effect he => ?_, .inl rfl⟩
    rcases List.mem_cons.mp he with rfl | he
    · rfl
    · exact quiet_hooks _ _ effect he
  | refuse hp => exact .inr ⟨by simp [Quiet, Effect.asking?], .inl rfl⟩

theorem moves_has (h : Moves script s event t) : ∀ effect ∈ t.effects, event.Has effect := by
  intro effect he
  cases h with
  | finish =>
    simp only [List.mem_cons, List.not_mem_nil, or_false] at he
    rcases he with rfl | rfl
    · exact .complete
    · exact .status _
  | produce =>
    cases List.mem_singleton.mp he
    exact .produce _
  | present =>
    cases List.mem_singleton.mp he
    exact .status _
  | ask =>
    cases List.mem_singleton.mp he
    exact .ask _
  | say =>
    simp only [List.mem_cons, List.not_mem_nil, or_false] at he
    rcases he with rfl | rfl
    · exact .say _
    · exact .settle _ _ _
  | enter => cases he
  | settle =>
    obtain ⟨callback, rfl⟩ := mem_exitHooks he
    exact .hook _ _
  | leave =>
    obtain ⟨callback, step, rfl⟩ := mem_closing he
    exact .hook _ _
  | submit =>
    simp only [List.mem_cons, List.not_mem_nil, or_false] at he
    rcases he with rfl | rfl | rfl
    · exact .status _
    · exact .hear _ _
    · exact .check _ _ _
  | accept =>
    rcases List.mem_cons.mp he with rfl | he
    · exact .store _ _
    · obtain ⟨callback, step, rfl⟩ := mem_closing he
      exact .hook _ _
  | refuse =>
    cases List.mem_singleton.mp he
    exact .refuse _

theorem moves_internal (h : Moves script s event t) (hi : event.Internal) :
    ∀ effect ∈ t.effects, (∀ text, effect ≠ .appendMessage .user text) ∧
      ∀ rules text, effect ≠ .validate rules text := by
  intro effect he
  cases moves_has h effect he with
  | hear text turn => exact absurd rfl (hi text turn)
  | check text turn => exact absurd rfl (hi text turn)
  | _ => exact ⟨nofun, nofun⟩

/-- Only a submission is taken by a conversation that waits, and nothing by one that is complete. -/
theorem moves_active (h : Moves script s event t) (hi : event.Internal) : s.status = .active := by
  cases h with
  | submit => exact absurd rfl (hi _ _)
  | _ => simp [State.status, Phase.status, *]

theorem moves_storing (h : Moves script s event t) (hv : event ≠ .validationPassed) :
    ∀ effect ∈ t.effects, ∀ name value, effect ≠ .storeAnswer name value := by
  intro effect he
  cases moves_has h effect he with
  | store name value => exact absurd rfl hv
  | _ => exact nofun

/-- A new prompt is presented whenever the conversation comes to wait, and at no other time. -/
theorem moves_prompts (h : Moves script s event t) :
    t.state.phase = .awaitingInput ∧ t.state.prompts = s.prompts + 1 ∨
      t.state.phase ≠ .awaitingInput ∧ t.state.prompts = s.prompts := by
  cases h with
  | present hp h => exact .inl ⟨rfl, rfl⟩
  | _ => exact .inr ⟨by simp [moveOn], rfl⟩

theorem moves_awaiting (h : Moves script s event t) (hp : t.state.phase = .awaitingInput) :
    event = .drive ∧ s.phase = .running ∧ ∃ i, script.stepAt? s.position = some (.input i) := by
  cases h with
  | present hp' h => exact ⟨rfl, hp', _, h⟩
  | settle => cases hp
  | leave => cases hp
  | accept => cases hp
  | _ => cases hp

theorem moves_validating {text : String} (h : Moves script s event t)
    (hp : t.state.phase = .validating text) : event = .submitted text s.prompts := by
  cases h with
  | submit => cases hp; rfl
  | settle => cases hp
  | leave => cases hp
  | accept => cases hp
  | _ => cases hp

end

theorem accepts_of_awaits {script : Script κ} {s : State} {event : Event} (hw : s.WellFormed script)
    (ha : s.phase.Awaits event) (hi : event.Internal) : ∃ t, transition script s event = .ok t := by
  cases h : transition script s event with
  | ok t => exact ⟨t, rfl⟩
  | error r =>
    cases rejection_explained hw h with
    | phase hp hs => exact absurd ha hp
    | notAwaiting hp => exact absurd rfl (hi _ _)
    | turn hp ht => exact absurd rfl (hi _ _)

theorem submission_accepted_iff {script : Script κ} {s : State} (hw : s.WellFormed script)
    (text : String) (turn : Nat) : (∃ t, transition script s (.submitted text turn) = .ok t) ↔
      s.phase = .awaitingInput ∧ turn = s.prompts := by
  constructor
  · rintro ⟨t, ht⟩
    cases transition_moves ht with
    | submit hp _ => exact ⟨hp, rfl⟩
  · rintro ⟨hp, rfl⟩
    cases ht : transition script s (.submitted text s.prompts) with
    | ok t => exact ⟨t, rfl⟩
    | error r =>
      cases rejection_explained hw ht with
      | phase _ hs => exact absurd rfl (hs _ _)
      | notAwaiting h => exact absurd hp h
      | turn _ h => exact absurd rfl h

def Stage.Fails (stage : Stage κ W) : Prop :=
  stage.session.halted = true ∧ ∃ failure, stage.next = .returns (.error (.callback failure))

namespace Session

section
variable (host : Host κ W)

/-! ## Answers -/

theorem perform_halted (s : Session κ) (world : W) (effect : Effect κ) :
    (s.perform host world effect).session.halted = s.halted := by
  cases effect with
  | resolveText wording => cases wording <;> rfl
  | runFormHook =>
    unfold perform
    cases s.script.complete <;> rfl
  | _ => rfl

theorem conclude_ok {α : Type} {s : Session κ} {c : Consulted κ W α} {answer : α → Option Event}
    {event : Option Event} (h : (s.conclude c answer).outcome = .ok event) :
    ∃ a, event = answer a := by
  unfold conclude at h
  cases hc : c.result with
  | ok a => rw [hc] at h; cases h; exact ⟨a, rfl⟩
  | error e => rw [hc] at h; cases h

theorem perform_quiet {host : Host κ W} {s : Session κ} {world : W} {effect : Effect κ}
    {answer : Option Event} (hq : effect.asking? = none)
    (h : (s.perform host world effect).outcome = .ok answer) : answer = none := by
  cases effect with
  | appendMessage speaker text => cases h; rfl
  | storeAnswer name value => cases h; rfl
  | publishStatus status => cases h; rfl
  | runHook callback step =>
    obtain ⟨_, ha⟩ := conclude_ok h
    exact ha
  | runFormHook =>
    unfold perform at h
    cases hc : s.script.complete with
    | none => simp only [hc] at h; cases h; rfl
    | some callback =>
      simp only [hc] at h
      obtain ⟨_, ha⟩ := conclude_ok h
      exact ha
  | _ => cases hq

theorem perform_asking {host : Host κ W} {s : Session κ} {world : W} {effect : Effect κ}
    {phase : Phase} {answer : Option Event} (hq : effect.asking? = some phase)
    (h : (s.perform host world effect).outcome = .ok answer) :
    ∃ event, answer = some event ∧ phase.Awaits event ∧ event.Internal := by
  cases effect with
  | resolveText wording =>
    cases hq
    cases wording with
    | none => cases h; exact ⟨_, rfl, .text "", nofun⟩
    | some wording =>
      obtain ⟨text, rfl⟩ := conclude_ok h
      exact ⟨_, rfl, .text text, nofun⟩
  | settleOutput wait complete =>
    cases hq
    obtain ⟨_, rfl⟩ := conclude_ok h
    exact ⟨_, rfl, .settled, nofun⟩
  | evaluateCondition condition =>
    cases hq
    obtain ⟨holds, rfl⟩ := conclude_ok h
    exact ⟨_, rfl, .condition holds, nofun⟩
  | validate rules text =>
    cases hq
    obtain ⟨verdict, rfl⟩ := conclude_ok h
    cases verdict with
    | none => exact ⟨_, rfl, .passed text, nofun⟩
    | some errorText => exact ⟨_, rfl, .failed text errorText, nofun⟩
  | _ => cases hq

/-! ## Carrying out effects -/

theorem carry_grows : ∀ (effects : List (Effect κ)) (event : Option Event) (s : Session κ)
    (world : W), s.Grows (carry host effects event s world).history
      (carry host effects event s world).session
  | [], event, s, world => by
    obtain ⟨next, hc, _⟩ := carry_nil host event s world
    rw [hc]
    exact grows_of_asking nofun
  | effect :: effects, event, s, world => by
    have hf := perform_grows host s world effect
    cases h : (s.perform host world effect).outcome with
    | error failure =>
      rw [carry_cons_error host h]
      exact hf.trans (told_grows _ (.failed failure.message))
    | ok answer =>
      rw [carry_cons_ok host h]
      exact hf.trans (carry_grows effects _ _ _)

theorem carry_fails {host : Host κ W} {s : Session κ} {world : W} {effect : Effect κ}
    {failure : Failure} (h : (s.perform host world effect).outcome = .error failure)
    (effects : List (Effect κ)) (event : Option Event) :
    (carry host (effect :: effects) event s world).Fails := by
  rw [carry_cons_error host h]
  exact ⟨rfl, failure, rfl⟩

theorem carry_quiet : ∀ {effects : List (Effect κ)}, Quiet effects → ∀ (s : Session κ) (world : W),
    (carry host effects none s world).Fails ∨
      (carry host effects none s world).session.halted = s.halted ∧
        (carry host effects none s world).next =
          if s.state.phase = .running then .again .drive else .returns (.ok ())
  | [], _, s, world => by
    by_cases hp : s.state.phase = .running
    · rw [carry_nil_running host hp, if_pos hp]
      exact .inr ⟨rfl, rfl⟩
    · rw [carry_nil_resting host hp, if_neg hp]
      exact .inr ⟨rfl, rfl⟩
  | effect :: effects, hq, s, world => by
    cases h : (s.perform host world effect).outcome with
    | error failure => exact .inl (carry_fails h _ _)
    | ok answer =>
      have ha : answer = none := perform_quiet (hq effect List.mem_cons_self) h
      subst ha
      have hs := (perform_grows host s world effect).state
      have hq' : Quiet effects := fun e he => hq e (List.mem_cons_of_mem effect he)
      have ih := carry_quiet hq' (s.perform host world effect).session
        (s.perform host world effect).world
      rw [hs, perform_halted] at ih
      rw [carry_cons_ok host h]
      exact ih

theorem carry_asks {phase : Phase} {effects : List (Effect κ)} (ha : Asks phase effects) :
    ∀ (s : Session κ) (world : W), (carry host effects none s world).Fails ∨
      (carry host effects none s world).session.halted = s.halted ∧
        ∃ event, (carry host effects none s world).next = .again event ∧ phase.Awaits event ∧
          event.Internal := by
  induction ha with
  | @last effect hq =>
    intro s world
    cases h : (s.perform host world effect).outcome with
    | error failure => exact .inl (carry_fails h _ _)
    | ok answer =>
      obtain ⟨event, rfl, haw, hi⟩ := perform_asking hq h
      rw [carry_cons_ok host h]
      exact .inr ⟨perform_halted host s world effect, event, rfl, haw, hi⟩
  | @cons effect effects hq _ ih =>
    intro s world
    cases h : (s.perform host world effect).outcome with
    | error failure => exact .inl (carry_fails h _ _)
    | ok answer =>
      have ha : answer = none := perform_quiet hq h
      subst ha
      have ih := ih (s.perform host world effect).session (s.perform host world effect).world
      rw [perform_halted] at ih
      rw [carry_cons_ok host h]
      exact ih

theorem carry_silent {read : Occurrence κ → Option β}
    (hr : ∀ message view, [Occurrence.notified (.failed message), .published view].filterMap read =
      []) : ∀ {effects : List (Effect κ)},
    (∀ effect ∈ effects, ∀ (s : Session κ) (world : W),
      (s.perform host world effect).history.filterMap read = []) →
      ∀ (event : Option Event) (s : Session κ) (world : W),
        (carry host effects event s world).history.filterMap read = []
  | [], _, event, s, world => by
    obtain ⟨next, hc, _⟩ := carry_nil host event s world
    rw [hc]
    rfl
  | effect :: effects, he, event, s, world => by
    have hf := he effect List.mem_cons_self s world
    have he' := fun e hm => he e (List.mem_cons_of_mem effect hm)
    cases h : (s.perform host world effect).outcome with
    | error failure =>
      rw [carry_cons_error host h, List.filterMap_append, hf]
      exact hr _ _
    | ok answer =>
      rw [carry_cons_ok host h, Stage.after, List.filterMap_append, hf]
      exact carry_silent hr he' _ _ _

/-! ## Taking events -/

theorem react_grows {s : Session κ} {event : Event} {t : Transition κ}
    (h : transition s.script s.state event = .ok t) (world : W) :
    Grows { s with state := t.state } (s.react host world event).history
      (s.react host world event).session := by
  rw [react_of_ok host h]
  exact carry_grows host _ _ _ _

theorem react_next {s : Session κ} {event : Event} {t : Transition κ}
    (h : transition s.script s.state event = .ok t) (world : W) :
    (s.react host world event).Fails ∨
      (s.react host world event).session.halted = s.halted ∧
        ((∃ later, (s.react host world event).next = .again later ∧ t.state.phase.Awaits later ∧
            later.Internal) ∨
          (s.react host world event).next = .returns (.ok ()) ∧
            (t.state.phase = .awaitingInput ∨ t.state.phase = .completed)) := by
  rw [react_of_ok host h]
  rcases moves_asks (transition_moves h) with ha | ⟨hq, hp⟩
  · rcases carry_asks host ha { s with state := t.state } world with hf | ⟨hh, hn⟩
    · exact .inl hf
    · exact .inr ⟨hh, .inl hn⟩
  · rcases carry_quiet host hq { s with state := t.state } world with hf | ⟨hh, hn⟩
    · exact .inl hf
    · refine .inr ⟨hh, ?_⟩
      rcases hp with hp | hp
      · rw [if_pos hp] at hn
        rw [hp]
        exact .inl ⟨.drive, hn, .drive, nofun⟩
      · have hne : t.state.phase ≠ .running := by
          rcases hp with hp | hp <;> simp [hp]
        rw [if_neg hne] at hn
        exact .inr ⟨hn, hp⟩

/-- The rules pass a text only right after its submission. -/
theorem react_not_passed {s : Session κ} {event : Event} {t : Transition κ}
    (h : transition s.script s.state event = .ok t) (hi : event.Internal) (world : W) :
    (s.react host world event).next ≠ .again .validationPassed := by
  rcases react_next host h world with ⟨_, failure, hn⟩ | ⟨_, ⟨later, hn, ha, _⟩ | ⟨hn, _⟩⟩
  · rw [hn]
    exact nofun
  · rw [hn]
    intro he
    cases he
    generalize hp : t.state.phase = phase at ha
    cases ha with
    | passed text => exact hi _ _ (moves_validating (transition_moves h) hp)
  · rw [hn]
    exact nofun

end

end Session

end Dialogue
