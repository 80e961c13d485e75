import Dialogue.Form.Basic

/-!
# Waiting

How time passes for a form whose clients only wait. The clock stands still while the task has moves
to make; when it sleeps, the clock goes straight to the time at which it wakes, or to the deadline
of the wait if that comes first.
-/

namespace Dialogue

variable {κ W : Type}

namespace Form

/-- Makes at most `bound` moves until the task has none to make and `ready` holds, or until the
deadline. The result says whether `ready` held. -/
def waitUntil (host : Host κ W) (deadline : Nat) (ready : Form κ W → Bool) :
    (bound : Nat) → Form κ W → Bool × Form κ W
  | 0, f => (false, f)
  | bound + 1, f =>
    match f.move? host with
    | some moved => waitUntil host deadline ready bound moved
    | none =>
      if ready f then (true, f)
      else match f.wake? with
        | none => (false, { f with clock := deadline })
        | some wake =>
          if wake ≤ deadline then waitUntil host deadline ready bound { f with clock := wake }
          else (false, { f with clock := deadline })

def settle (host : Host κ W) (bound : Nat) (f : Form κ W) : Form κ W :=
  (f.waitUntil host f.clock (fun _ => true) bound).2

/-- Lets some milliseconds pass. No time at all is no wait, and the task makes no move. -/
def pass (host : Host κ W) (bound : Nat) (f : Form κ W) (millis : Nat) : Form κ W :=
  if millis = 0 then f
  else (f.waitUntil host (f.clock + millis) (fun _ => false) bound).2

/-- Waits for something, for at most `patience` milliseconds. What is there already is not waited
for, and the task makes no move. -/
def await (host : Host κ W) (bound : Nat) (f : Form κ W) (patience : Nat)
    (ready : Form κ W → Bool) : Bool × Form κ W :=
  if ready f then (true, f) else f.waitUntil host (f.clock + patience) ready bound

/-- Waits until every ticket has its reply. If one has none in the end, the wait was in vain, and
senders that still wait for room are given up. -/
def awaitReplies (host : Host κ W) (bound : Nat) (f : Form κ W) (patience : Nat)
    (tickets : List Nat) : Option (List CallResult) × Form κ W :=
  let (_, f) := f.await host bound patience fun f => tickets.all fun t => (f.reply? t).isSome
  (tickets.mapM f.reply?, f.giveUp)

def reached (status : Status) (f : Form κ W) : Bool :=
  f.view.status = status || f.view.halted

/-- Waits until the latest view has the status. A halted view of another status ends the wait with
an error. -/
def awaitStatus (host : Host κ W) (bound : Nat) (f : Form κ W) (patience : Nat)
    (status : Status) : Option (Except CallError View) × Form κ W :=
  let (seen, f) := f.await host bound patience (reached status)
  (if seen then some (if f.view.status = status then .ok f.view else .error .halted) else none, f)

end Form

end Dialogue
