import Dialogue.Position

/-!
# States

Where a conversation stands in its script, what it is doing there, and how many prompts it has
shown so far. Submissions are counted against that number: each answers one prompt.
-/

namespace Dialogue

inductive Status
  | active
  | waiting
  | completed
  deriving Repr, DecidableEq

def Status.name : Status → String
  | .active => "active"
  | .waiting => "waiting"
  | .completed => "completed"

inductive Phase
  | running
  | resolvingText
  -- the message of an output is out, its callback and its pause are not over
  | settling
  | evaluatingCondition
  -- suspended until an answer to the current prompt comes
  | awaitingInput
  | validating (text : String)
  | completed
  deriving Repr, DecidableEq

def Phase.status : Phase → Status
  | .awaitingInput => .waiting
  | .completed => .completed
  | _ => .active

structure State where
  position : Position
  phase : Phase
  prompts : Nat
  deriving Repr, DecidableEq

namespace State

def initial : State := ⟨.start, .running, 0⟩

instance : Inhabited State := ⟨initial⟩

def status (s : State) : Status := s.phase.status

def isTerminal (s : State) : Bool := s.phase = .completed

end State

end Dialogue
