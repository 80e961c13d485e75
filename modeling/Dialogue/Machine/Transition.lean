import Dialogue.Machine.Printer

/-!
# Transitions

The pure rules of a conversation: from a state, a script and an event to the next state and the
effects to carry out, or to the reason why the event is rejected. A rejected event changes nothing,
and no callback is run here.
-/

namespace Dialogue

inductive Expected
  | output
  | block
  | input
  deriving Repr, DecidableEq

def Expected.name : Expected → String
  | .output => "output"
  | .block => "block"
  | .input => "input"

inductive Rejection
  | notAwaitingInput (status : Status)
  | staleSubmission (submitted current : Nat)
  | outOfPhase (event : Event) (state : State)
  -- the phase allows the event, but the step at the position is of another form
  | unexpectedStep (expected : Expected) (state : State)
  deriving Repr, DecidableEq

def Rejection.message : Rejection → String
  | .notAwaitingInput status => "form is " ++ status.name ++ ", not waiting for input"
  | .staleSubmission submitted current =>
    "submission answers prompt " ++ toString submitted ++ ", current prompt is "
      ++ toString current
  | .outOfPhase event s =>
    "Invalid transition: " ++ event.name ++ " while " ++ s.phase.describe ++ " at "
      ++ s.position.render
  | .unexpectedStep expected s =>
    "Invalid transition: expected " ++ expected.name ++ " step at " ++ s.position.render
      ++ " while " ++ s.phase.describe

structure Transition (κ : Type) where
  state : State
  effects : List (Effect κ)

variable {κ : Type}

/-- Interprets the step at the position; past the last step the conversation is complete. -/
def drive (script : Script κ) (s : State) : Transition κ :=
  match script.stepAt? s.position with
  | none => ⟨{ s with phase := .completed }, [.runFormHook, .publishStatus .completed]⟩
  | some (.output o) => ⟨{ s with phase := .resolvingText }, [.resolveText o.wording]⟩
  | some (.input _) =>
    ⟨⟨s.position, .awaitingInput, s.prompts + 1⟩, [.publishStatus .waiting]⟩
  | some (.block _ condition _ _) =>
    ⟨{ s with phase := .evaluatingCondition }, [.evaluateCondition condition]⟩

def exitHooks (script : Script κ) (exited : List Position) : List (Effect κ) :=
  exited.flatMap fun p => Effect.hooks "if" ((script.stepAt? p).bind Step.complete?)

def moveOn (script : Script κ) (s : State) (finish : List (Effect κ)) : Transition κ :=
  let a := advance script.steps s.position
  ⟨⟨a.next, .running, s.prompts⟩, finish ++ exitHooks script a.exited⟩

def transition (script : Script κ) (s : State) (event : Event) :
    Except Rejection (Transition κ) :=
  match s.phase, event with
  | .running, .drive => .ok (drive script s)
  | .resolvingText, .textResolved text =>
    match script.stepAt? s.position with
    | some (.output o) =>
      .ok ⟨{ s with phase := .settling },
        [.appendMessage .bot text, .settleOutput o.wait o.complete]⟩
    | _ => .error (.unexpectedStep .output s)
  | .settling, .outputSettled => .ok (moveOn script s [])
  | .evaluatingCondition, .conditionEvaluated true =>
    .ok ⟨⟨s.position.descend, .running, s.prompts⟩, []⟩
  | .evaluatingCondition, .conditionEvaluated false =>
    match script.stepAt? s.position with
    | some (.block kind _ _ complete) =>
      .ok (moveOn script s (Effect.hooks kind.name complete))
    | _ => .error (.unexpectedStep .block s)
  | .awaitingInput, .submitted text turn =>
    if turn = s.prompts then
      match script.stepAt? s.position with
      | some (.input i) =>
        .ok ⟨{ s with phase := .validating text },
          [.publishStatus .active, .appendMessage .user text, .validate i.rules text]⟩
      | _ => .error (.unexpectedStep .input s)
    else .error (.staleSubmission turn s.prompts)
  | phase, .submitted _ _ => .error (.notAwaitingInput phase.status)
  | .validating text, .validationPassed =>
    match script.stepAt? s.position with
    | some (.input i) =>
      .ok (moveOn script s (.storeAnswer i.name text :: Effect.hooks "input" i.complete))
    | _ => .error (.unexpectedStep .input s)
  | .validating _, .validationFailed errorText =>
    .ok ⟨{ s with phase := .running }, [.appendMessage .bot errorText]⟩
  | _, event => .error (.outOfPhase event s)

end Dialogue
