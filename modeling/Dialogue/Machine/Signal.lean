import Dialogue.Machine.State
import Dialogue.Script.Step
import Dialogue.Transcript

/-!
# Signals

What goes into the machine and what comes out of it. An event is something that happens to a
conversation: its own work goes on or is answered, or the user submits a text for the prompt of a
certain number. An effect is something that a transition asks to be done; those that consult the
script (`resolveText`, `settleOutput`, `evaluateCondition`, `validate`) are answered by an event.
-/

namespace Dialogue

/-! ## Events -/

inductive Event
  | drive
  | textResolved (text : String)
  | outputSettled
  | conditionEvaluated (holds : Bool)
  | submitted (text : String) (turn : Nat)
  | validationPassed
  | validationFailed (errorText : String)
  deriving Repr, DecidableEq

def Event.name : Event → String
  | .drive => "drive"
  | .textResolved _ => "text_resolved"
  | .outputSettled => "output_settled"
  | .conditionEvaluated _ => "condition_evaluated"
  | .submitted _ _ => "user_submit"
  | .validationPassed => "validation_passed"
  | .validationFailed _ => "validation_failed"

/-! ## Effects -/

inductive Effect (κ : Type)
  -- produce the text of an output; without a wording it is empty
  | resolveText (wording : Option (Wording κ))
  | appendMessage (speaker : Speaker) (text : String)
  -- run the callback of an output while its pause goes on, until both are over
  | settleOutput (wait : Duration) (complete : Option κ)
  | evaluateCondition (condition : κ)
  | validate (rules : List (Rule κ)) (text : String)
  | storeAnswer (name value : String)
  | runHook (callback : κ) (step : String)
  -- run the script's own callback for its end, if it has one
  | runFormHook
  | publishStatus (status : Status)

def Effect.hooks {κ : Type} (step : String) : Option κ → List (Effect κ)
  | none => []
  | some callback => [.runHook callback step]

end Dialogue
