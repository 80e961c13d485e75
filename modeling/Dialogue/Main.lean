import Dialogue.Demo.Player

/-!
# The command line

Plays the demo at the terminal. Messages go to standard output, answers are read line by line from
standard input, and warnings about settings go to standard error.
-/

namespace Dialogue.Demo

/-- More moves than a form makes between two sleeps. -/
def moveBound : Nat := 1000000000

/-- Feeds are lists here, which take up no room in advance. -/
def slots : Nat := Form.feedLimit + 1

def environmentSettings : IO Settings := do
  let timeScale ← IO.getEnv Settings.timeScaleKey
  let eventCapacity ← IO.getEnv Settings.eventCapacityKey
  let broadcastCapacity ← IO.getEnv Settings.broadcastCapacityKey
  let value? (key : String) : Option String :=
    if key = Settings.timeScaleKey then timeScale
    else if key = Settings.eventCapacityKey then eventCapacity
    else broadcastCapacity
  let (settings, warnings) := Settings.read value?
  for w in warnings do
    IO.eprintln ("Ignoring " ++ w.key ++ "=" ++ Text.quote w.value ++ ", using " ++ w.used)
  return settings

/-- The bytes of the next line, with its line feed; empty at the end of the input. -/
partial def readLineBytes (input : IO.FS.Stream) (line : List UInt8) : IO (List UInt8) := do
  match (← input.read 1).toList with
  | [] => return line.reverse
  | b :: _ =>
    if b = Text.lineFeed then return (b :: line).reverse else readLineBytes input (b :: line)

/-- Sleeps in parts that fit the clock of the system. -/
partial def sleepMillis (millis : Nat) : IO Unit := do
  let part := min millis 86400000
  IO.sleep part.toUInt32
  if part < millis then sleepMillis (millis - part)

partial def waitForRest (p : Player) : IO Player := do
  let p := p.settle moveBound
  match p.wake? with
  | none => return p
  | some woken =>
    sleepMillis (woken.form.clock - p.form.clock)
    waitForRest woken

partial def playAtTerminal (input : IO.FS.Stream) (p : Player) : IO Verdict := do
  let (texts, cue, p) := p.look
  for text in texts do
    IO.println text
  match cue with
  | .finish verdict => return verdict
  | .watch => playAtTerminal input (← waitForRest p)
  | .readLine prompt =>
    match Text.splitLines (← readLineBytes input []) with
    | [] => return .success
    | line :: _ =>
      match Text.decode? line with
      | none =>
        IO.eprintln "A line of the input is not UTF-8"
        return .failure
      | some text => playAtTerminal input (← waitForRest (p.answer text prompt).2)

end Dialogue.Demo

open Dialogue.Demo in
def main : IO UInt32 := do
  let settings ← environmentSettings
  let verdict ← match Player.spawn? slots settings with
    | .error failure => do
      IO.eprintln ("No form with these capacities: " ++ toString (repr failure))
      pure (.crash failure)
    | .ok player => playAtTerminal (← IO.getStdin) player
  return (verdict.code?.getD 1).toUInt32
