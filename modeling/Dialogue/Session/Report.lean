import Dialogue.Machine.Transition
import Dialogue.Session.Host

/-!
# Reports

What a conversation shows of itself. Observers see views, which are full snapshots, and notices,
which are increments; a caller gets the result of its call; and the history of a conversation is
the list of its occurrences.
-/

namespace Dialogue

structure View where
  status : Status
  position : Position
  -- the number of the prompt that a submission has to answer
  prompt : Nat
  transcript : Transcript
  answers : Answers
  -- a callback has failed, and nothing further is accepted
  halted : Bool
  deriving Repr, DecidableEq

inductive Notice
  | message (message : Message)
  | statusChanged (status : Status)
  | answerStored (name value : String)
  | failed (message : String)
  deriving Repr, DecidableEq

/-- The failure of a callback, at the position where control is then. -/
structure Failure where
  role : Role
  position : Position
  source : String
  deriving Repr, DecidableEq

def Failure.message (f : Failure) : String :=
  f.role.describe ++ " callback failed at " ++ f.position.render ++ ": " ++ f.source

inductive CallError
  | callback (failure : Failure)
  | rejected (rejection : Rejection)
  | halted
  deriving Repr, DecidableEq

def CallError.message : CallError → String
  | .callback failure => failure.message
  | .rejected rejection => rejection.message
  | .halted => "form halted after a callback failure"

abbrev CallResult := Except CallError Unit

inductive Occurrence (κ : Type)
  -- a callback is entered; the reply is what will come of it
  | called (call : Call κ) (reply : Reply Value)
  -- time passes, in milliseconds
  | slept (millis : Nat)
  | notified (notice : Notice)
  | published (view : View)

def elapsed {κ : Type} : List (Occurrence κ) → Nat
  | [] => 0
  | .slept n :: history => n + elapsed history
  | _ :: history => elapsed history

end Dialogue
