import Dialogue.Proofs.Store
import Dialogue.Proofs.WellFormed

/-!
# Chronicles

The events that a machine has accepted, the latest first, each with the state that took it. All that
has been said and every answer that was accepted can be read off a chronicle, and its counts are
those of the state it leads to: a prompt is either answered or still open, and a submission is
accepted, refused or still with its rules.
-/

namespace Dialogue

variable {κ : Type}

abbrev Chronicle := List (State × Event)

/-- The chronicle of a run that leads from the initial state to this one. -/
inductive Chronicle.To (script : Script κ) : Chronicle → State → Prop
  | nil : To script [] .initial
  | cons {c : Chronicle} {s : State} {event : Event} {t : Transition κ} :
    To script c s → transition script s event = .ok t → To script ((s, event) :: c) t.state

theorem Chronicle.To.reachable {script : Script κ} {c : Chronicle} {s : State}
    (h : Chronicle.To script c s) : Reachable script s := by
  induction h with
  | nil => exact .initial
  | cons _ ht ih => exact ih.step ht

/-! ## Readings -/

namespace Event

def isOutput : Event → Bool
  | .textResolved _ => true
  | _ => false

def isSubmission : Event → Bool
  | .submitted _ _ => true
  | _ => false

def isAcceptance : Event → Bool
  | .validationPassed => true
  | _ => false

def isRefusal : Event → Bool
  | .validationFailed _ => true
  | _ => false

def spoken? : Event → Option (Speaker × String)
  | .textResolved text => some (.bot, text)
  | .submitted text _ => some (.user, text)
  | .validationFailed errorText => some (.bot, errorText)
  | _ => none

end Event

def Phase.isValidating : Phase → Bool
  | .validating _ => true
  | _ => false

namespace Transcript

def count (t : Transcript) (speaker : Speaker) : Nat :=
  t.countP fun m => m.speaker = speaker

def add? (t : Transcript) : Option (Speaker × String) → Transcript
  | none => t
  | some (speaker, text) => t.add speaker text

theorem count_add (t : Transcript) (speaker other : Speaker) (text : String) :
    (t.add other text).count speaker = t.count speaker + if other = speaker then 1 else 0 := by
  by_cases h : other = speaker <;> simp [count, add, next, h]

theorem numbers_add {t : Transcript} (h : t.map Message.number = List.range' 1 t.length)
    (speaker : Speaker) (text : String) :
    (t.add speaker text).map Message.number = List.range' 1 (t.add speaker text).length := by
  unfold add
  rw [List.map_append, h, List.length_append]
  simp [next, List.range'_concat, Nat.add_comm]

end Transcript

namespace Chronicle

def outputs (c : Chronicle) : Nat := c.countP fun e => e.2.isOutput

def submissions (c : Chronicle) : Nat := c.countP fun e => e.2.isSubmission

def acceptances (c : Chronicle) : Nat := c.countP fun e => e.2.isAcceptance

def refusals (c : Chronicle) : Nat := c.countP fun e => e.2.isRefusal

def transcript : Chronicle → Transcript
  | [] => []
  | (_, event) :: c => (transcript c).add? event.spoken?

def accepted (script : Script κ) : Chronicle → List (String × String)
  | (_, .validationPassed) :: (s, .submitted text _) :: c =>
    match script.stepAt? s.position with
    | some (.input i) => accepted script c ++ [(i.name, text)]
    | _ => accepted script c
  | _ :: c => accepted script c
  | [] => []

def acceptedAs (script : Script κ) (c : Chronicle) (name : String) : List String :=
  Answers.pushedAs name (c.accepted script)

section
variable {script : Script κ} {c : Chronicle} {s : State}

theorem accepted_cons {event : Event} (h : event ≠ .validationPassed) (s : State) (c : Chronicle) :
    accepted script ((s, event) :: c) = accepted script c := by
  cases event with
  | validationPassed => exact absurd rfl h
  | _ => simp [accepted]

/-- A text that is being validated is that of the latest event, a submission at the same step. -/
theorem To.validating (h : To script c s) {text : String} (hp : s.phase = .validating text) :
    ∃ before turn earlier, c = (before, .submitted text turn) :: earlier ∧
      before.position = s.position := by
  cases h with
  | nil => cases hp
  | cons _ ht =>
    cases transition_moves ht with
    | submit => cases hp; exact ⟨_, _, _, rfl, rfl⟩
    | _ => cases hp

theorem To.accepted_passed (h : To script c s) {text : String} {i : Input κ}
    (hp : s.phase = .validating text) (hs : script.stepAt? s.position = some (.input i)) :
    accepted script ((s, .validationPassed) :: c) = accepted script c ++ [(i.name, text)] := by
  obtain ⟨before, turn, earlier, rfl, hb⟩ := h.validating hp
  rw [accepted, hb, hs, accepted_cons (by simp)]

/-! ## Counts -/

theorem countP_cons_toNat (p : State × Event → Bool) (e : State × Event) (c : Chronicle) :
    List.countP p (e :: c) = List.countP p c + (p e).toNat := by
  cases h : p e <;> simp [h]

theorem transcript_cons (s : State) (event : Event) (c : Chronicle) :
    transcript ((s, event) :: c) = (transcript c).add? event.spoken? := rfl

theorem transcript_prefix (s : State) (event : Event) (c : Chronicle) :
    transcript c <+: transcript ((s, event) :: c) := by
  rw [transcript_cons]
  cases event.spoken? with
  | none => exact List.prefix_rfl
  | some said => exact List.prefix_append _ _

theorem numbers_transcript (c : Chronicle) :
    c.transcript.map Message.number = List.range' 1 c.transcript.length := by
  induction c with
  | nil => rfl
  | cons e c ih =>
    obtain ⟨s, event⟩ := e
    rw [transcript_cons]
    cases event.spoken? with
    | none => exact ih
    | some said => exact Transcript.numbers_add ih _ _

theorem users_transcript (c : Chronicle) : c.transcript.count .user = c.submissions := by
  induction c with
  | nil => rfl
  | cons e c ih =>
    obtain ⟨s, event⟩ := e
    cases event <;> simp [transcript, Event.spoken?, Event.isSubmission, Transcript.add?,
      Transcript.count_add, ih, submissions]

theorem bots_transcript (c : Chronicle) : c.transcript.count .bot = c.outputs + c.refusals := by
  induction c with
  | nil => rfl
  | cons e c ih =>
    obtain ⟨s, event⟩ := e
    cases event <;> simp [transcript, Event.spoken?, Event.isOutput, Event.isRefusal,
      Transcript.add?, Transcript.count_add, ih, outputs, refusals] <;> omega

theorem moves_answered {event : Event} {t : Transition κ} (h : Moves script s event t) :
    t.state.prompts + (if s.phase = .awaitingInput then 1 else 0) =
      s.prompts + event.isSubmission.toNat + if t.state.phase = .awaitingInput then 1 else 0 := by
  cases h <;> simp [moveOn, Event.isSubmission, *]

theorem moves_decided {event : Event} {t : Transition κ} (h : Moves script s event t) :
    event.isSubmission.toNat + (if s.phase.isValidating then 1 else 0) =
      event.isAcceptance.toNat + event.isRefusal.toNat +
        if t.state.phase.isValidating then 1 else 0 := by
  cases h <;> simp [moveOn, Event.isSubmission, Event.isAcceptance, Event.isRefusal,
    Phase.isValidating, *]

/-- Every prompt but the one that is open has been answered by one submission. -/
theorem To.prompts (h : To script c s) :
    s.prompts = c.submissions + if s.phase = .awaitingInput then 1 else 0 := by
  induction h with
  | nil => rfl
  | cons _ ht ih =>
    have hm := moves_answered (transition_moves ht)
    simp only [Chronicle.submissions, countP_cons_toNat] at ih ⊢
    omega

/-- Every submission but the one that is with its rules has been accepted or refused. -/
theorem To.submissions (h : To script c s) : c.submissions =
    c.acceptances + c.refusals + if s.phase.isValidating then 1 else 0 := by
  induction h with
  | nil => rfl
  | cons _ ht ih =>
    have hm := moves_decided (transition_moves ht)
    simp only [Chronicle.submissions, Chronicle.acceptances, refusals, countP_cons_toNat] at ih ⊢
    omega

theorem To.acceptances (h : To script c s) : (c.accepted script).length = c.acceptances := by
  induction h with
  | nil => rfl
  | @cons c s event t hc ht ih =>
    by_cases hv : event = .validationPassed
    · subst hv
      cases transition_moves ht with
      | accept hp hs =>
        rw [hc.accepted_passed hp hs, List.length_append, ih]
        exact (countP_cons_toNat (fun e => e.2.isAcceptance) (s, .validationPassed) c).symm
    · rw [accepted_cons hv, ih]
      cases event with
      | validationPassed => exact absurd rfl hv
      | _ => rfl

end

end Chronicle

end Dialogue
