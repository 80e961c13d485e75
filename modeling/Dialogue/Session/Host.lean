import Dialogue.Answers

/-!
# Hosts

The world around a conversation that answers its callbacks. A host is any function on a state of
its own: what a callback comes to may depend on the answers so far, on the submitted text and on
everything that was asked before, and it may be a failure.
-/

namespace Dialogue

inductive Role
  | text
  | condition
  | validation
  | hook
  deriving Repr, DecidableEq

def Role.describe : Role → String
  | .text => "text"
  | .condition => "condition"
  | .validation => "validation"
  | .hook => "completion hook"

/-- A callback sleeps for some milliseconds; then it has a result or fails with a message. -/
structure Reply (α : Type) where
  sleep : Nat
  result : Except String α

def Reply.map {α β : Type} (f : α → β) (r : Reply α) : Reply β :=
  ⟨r.sleep, r.result.map f⟩

inductive Value
  | text (text : String)
  | truth (holds : Bool)
  | done
  deriving Repr, DecidableEq

structure Host (κ W : Type) where
  produce : κ → Answers → W → Reply String × W
  holds : κ → Answers → W → Reply Bool × W
  accepts : κ → String → Answers → W → Reply Bool × W
  complete : κ → Answers → W → Reply Unit × W

structure Call (κ : Type) where
  role : Role
  callback : κ
  answers : Answers
  text : String

end Dialogue
