import Dialogue.Duration
import Dialogue.Number.Decimal
import Dialogue.Number.Rounding
import Dialogue.Text.Blank

/-!
# Settings

What is set from outside: the factor on the pauses of outputs and two capacities. Each setting is
read from a variable of its own; one that is unset, or whose text is refused, has its default, and
a refused text is reported.
-/

namespace Dialogue

structure Settings where
  -- the factor on the pauses of outputs; zero leaves them out
  timeScale : Float
  eventCapacity : Nat
  broadcastCapacity : Nat

structure Warning where
  key : String
  value : String
  used : String
  deriving Repr, DecidableEq

namespace Settings

def standard : Settings := ⟨1.0, 32, 128⟩

def instant : Settings := { standard with timeScale := 0.0 }

def scaledWait (s : Settings) (wait : Duration) : Duration :=
  wait.scale s.timeScale

def same (s t : Settings) : Bool :=
  s.timeScale == t.timeScale && s.eventCapacity == t.eventCapacity
    && s.broadcastCapacity == t.broadcastCapacity

/-! ## Reading -/

def readScale? (text : String) : Option Float :=
  (Number.readFloat? (Text.trim text)).filter fun x => x.isFinite && 0.0 ≤ x

def readCapacity? (text : String) : Option Nat :=
  (Number.readNat? (Text.trim text)).filter fun n => 0 < n && n < Number.wordCount

def readOne {α : Type} (key : String) (read? : String → Option α) (default : α) (used : String) :
    Option String → α × List Warning
  | none => (default, [])
  | some text =>
    match read? text with
    | some value => (value, [])
    | none => (default, [⟨key, text, used⟩])

def timeScaleKey : String := "CHAT_FORM_TIME_SCALE"

def eventCapacityKey : String := "CHAT_FORM_EVENT_CAPACITY"

def broadcastCapacityKey : String := "CHAT_FORM_BROADCAST_CAPACITY"

def read (value? : String → Option String) : Settings × List Warning :=
  let (timeScale, w₁) :=
    readOne timeScaleKey readScale? standard.timeScale "1" (value? timeScaleKey)
  let (eventCapacity, w₂) :=
    readOne eventCapacityKey readCapacity? standard.eventCapacity "32" (value? eventCapacityKey)
  let (broadcastCapacity, w₃) :=
    readOne broadcastCapacityKey readCapacity? standard.broadcastCapacity "128"
      (value? broadcastCapacityKey)
  (⟨timeScale, eventCapacity, broadcastCapacity⟩, w₁ ++ w₂ ++ w₃)

end Settings

end Dialogue
