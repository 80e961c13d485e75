import Dialogue.Machine.Transition

/-!
# Rehearsals

A script walked without its callbacks: conditions and rule chains are answered from prepared lists,
texts are all the same, and every prompt is answered at once. The record of a rehearsal shows each
event with what came of it.
-/

namespace Dialogue

/-- The prepared answers that are left. A condition beyond them is false, a chain passes. -/
structure Cues where
  conditions : List Bool
  validations : List Bool
  deriving Repr

structure Beat (κ : Type) where
  event : Event
  state : State
  outcome : Except Rejection (List (Effect κ))

inductive Ending
  | completed
  -- nothing is left to do, but the conversation is not complete
  | stalled
  | exhausted
  deriving Repr, DecidableEq

namespace Cues

def answer {κ : Type} (cues : Cues) : Effect κ → Cues × Option Event
  | .resolveText _ => (cues, some (.textResolved "text"))
  | .settleOutput _ _ => (cues, some .outputSettled)
  | .evaluateCondition _ =>
    ({ cues with conditions := cues.conditions.tail },
      some (.conditionEvaluated (cues.conditions.headD false)))
  | .validate _ _ =>
    ({ cues with validations := cues.validations.tail },
      some (if cues.validations.headD true then .validationPassed else .validationFailed "invalid"))
  | _ => (cues, none)

def answerAll {κ : Type} : Cues → List (Effect κ) → Cues × Option Event
  | cues, [] => (cues, none)
  | cues, effect :: effects =>
    let (cues, event) := cues.answer effect
    let (cues, later) := cues.answerAll effects
    (cues, later.or event)

end Cues

def State.nextEvent? (s : State) : Option Event :=
  match s.phase with
  | .running => some .drive
  | .awaitingInput => some (.submitted ("answer " ++ toString s.prompts) s.prompts)
  | _ => none

def State.ending (s : State) : Ending :=
  if s.isTerminal then .completed else .stalled

variable {κ : Type}

def rehearse (script : Script κ) :
    (budget : Nat) → State → Option Event → Cues → List (Beat κ) × Ending
  | 0, _, _, _ => ([], .exhausted)
  | budget + 1, s, pending, cues =>
    match pending.or s.nextEvent? with
    | none => ([], s.ending)
    | some event =>
      match transition script s event with
      | .error rejection =>
        let (beats, ending) := rehearse script budget s none cues
        (⟨event, s, .error rejection⟩ :: beats, ending)
      | .ok t =>
        let (cues, pending) := cues.answerAll t.effects
        let (beats, ending) := rehearse script budget t.state pending cues
        (⟨event, t.state, .ok t.effects⟩ :: beats, ending)

end Dialogue
