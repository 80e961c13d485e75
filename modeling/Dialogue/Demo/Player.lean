import Dialogue.Demo.Script
import Dialogue.Form.Clock
import Dialogue.Text.Lines

/-!
# The player

Plays a form to someone at a terminal. The player looks at the latest view, prints the messages of
the bot that it has not printed yet, and then does what the status of the view calls for: it waits
while the form is active, reads a line and submits it for the prompt of the view while the form
waits, and ends when the form is complete or nothing is left to read. What it prints depends on the
views it happens to see only through the last of them.
-/

namespace Dialogue.Demo

/-! ## Printing -/

def newMessages (t : Transcript) (printed : Nat) : List Message :=
  t.filter fun m => printed < m.number

def newTexts (t : Transcript) (printed : Nat) : List String :=
  ((newMessages t printed).filter fun m => m.speaker = .bot).map Message.text

def lastPrinted (t : Transcript) (printed : Nat) : Nat :=
  (newMessages t printed).foldl (fun _ m => m.number) printed

/-! ## Playing -/

inductive Verdict
  | success
  | failure
  | crash (failure : SpawnFailure)
  deriving Repr, DecidableEq

/-- The exit status. There is none to tell when the memory gives out. -/
def Verdict.code? : Verdict → Option Nat
  | .success => some 0
  | .failure => some 1
  | .crash .queue | .crash .feed => some 101
  | .crash .memory => none

inductive Cue
  | finish (verdict : Verdict)
  | readLine (prompt : Nat)
  | watch
  deriving Repr, DecidableEq

def cueOf (v : View) : Cue :=
  if v.halted then .finish .failure
  else match v.status with
    | .completed => .finish .success
    | .waiting => .readLine v.prompt
    | .active => .watch

structure Player where
  form : Form Callback Unit
  printed : Nat

namespace Player

def spawn (settings : Settings) : Player :=
  ⟨.spawn script settings (), 0⟩

def spawn? (slots : Nat) (settings : Settings) : Except SpawnFailure Player :=
  (Form.spawn? slots script settings ()).map fun form => ⟨form, 0⟩

def look (p : Player) : List String × Cue × Player :=
  let view := p.form.view
  (newTexts view.transcript p.printed, cueOf view,
    { p with printed := lastPrinted view.transcript p.printed })

def answer (p : Player) (line : String) (prompt : Nat) : Nat × Player :=
  let (ticket, form) := p.form.send line prompt
  (ticket, { p with form })

def settle (bound : Nat) (p : Player) : Player :=
  { p with form := p.form.settle host bound }

def wake? (p : Player) : Option Player :=
  p.form.wake?.map fun wake => { p with form := { p.form with clock := wake } }

end Player

/-! ## A play from beginning to end -/

structure Play where
  printed : List String
  verdict : Verdict
  deriving Repr, DecidableEq

def Play.after (texts : List String) (p : Play) : Play :=
  { p with printed := texts ++ p.printed }

def rest (bound : Nat) : (sleeps : Nat) → Player → Player
  | 0, p => p.settle bound
  | sleeps + 1, p =>
    let p := p.settle bound
    match p.wake? with
    | none => p
    | some p => rest bound sleeps p

/-- Plays with the lines that are left to read, a line that is no text as none, for at most
`looks` looks at the form. -/
def playFrom (bound : Nat) : (looks : Nat) → Player → List (Option String) → Option Play
  | 0, _, _ => none
  | looks + 1, p, lines =>
    let (texts, cue, p) := p.look
    match cue, lines with
    | .finish verdict, _ => some ⟨texts, verdict⟩
    | .watch, lines => (playFrom bound looks (rest bound bound p) lines).map (·.after texts)
    | .readLine _, [] => some ⟨texts, .success⟩
    | .readLine _, none :: _ => some ⟨texts, .failure⟩
    | .readLine prompt, some line :: lines =>
      let p := rest bound bound (p.answer line prompt).2
      (playFrom bound looks p lines).map (·.after texts)

/-- Plays the demo with some settings to someone who types the given bytes. If there is no form to
play, nothing is read or printed. -/
def play (slots bound : Nat) (settings : Settings) (input : List UInt8) : Option Play :=
  match Player.spawn? slots settings with
  | .error failure => some ⟨[], .crash failure⟩
  | .ok player =>
    let lines := (Text.splitLines input).map Text.decode?
    playFrom bound (2 * lines.length + 4) player lines

end Dialogue.Demo
