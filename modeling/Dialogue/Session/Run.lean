import Dialogue.Session.Basic

/-!
# Calls

A call carried on until it returns. A script can loop for ever, so a call is given a bound on the
events it may take and has no result when they are used up.
-/

namespace Dialogue

structure Returned (κ W : Type) where
  history : List (Occurrence κ)
  session : Session κ
  world : W
  result : CallResult

variable {κ W : Type}

namespace Session

/-- Carries on from a stage, for at most `bound` further events. -/
def finish (host : Host κ W) : (bound : Nat) → Stage κ W → Option (Returned κ W)
  | bound, stage =>
    match stage.next, bound with
    | .returns result, _ => some ⟨stage.history, stage.session, stage.world, result⟩
    | .again _, 0 => none
    | .again event, bound + 1 =>
      (finish host bound (stage.session.react host stage.world event)).map fun r =>
        { r with history := stage.history ++ r.history }

def call (host : Host κ W) (bound : Nat) (s : Session κ) (world : W) (event : Event) :
    Option (Returned κ W) :=
  finish host bound (s.receive host world event)

def start (host : Host κ W) (bound : Nat) (s : Session κ) (world : W) : Option (Returned κ W) :=
  s.call host bound world .drive

def submitForTurn (host : Host κ W) (bound : Nat) (s : Session κ) (world : W) (text : String)
    (turn : Nat) : Option (Returned κ W) :=
  s.call host bound world (.submitted text turn)

def submit (host : Host κ W) (bound : Nat) (s : Session κ) (world : W) (text : String) :
    Option (Returned κ W) :=
  s.submitForTurn host bound world text s.state.prompts

end Session

end Dialogue
