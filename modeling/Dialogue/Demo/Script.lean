import Dialogue.Session.Host
import Dialogue.Script.Basic
import Dialogue.Text.Blank

/-!
# The demo

A script that asks for a name, thinks about it and says hello, and the host of its callbacks.
-/

namespace Dialogue.Demo

inductive Callback
  | notBlank
  | greeting
  deriving Repr, DecidableEq

def steps : List (Step Callback) :=
  [.output ⟨some (.literal "Enter your name: "), .zero, none⟩,
   .input ⟨"name", [⟨some .notBlank, .literal "Please enter a name."⟩], none⟩,
   .output ⟨some (.literal "Thinking..."), .ofMillis 2000, none⟩,
   .output ⟨some (.computed .greeting), .zero, none⟩]

def script : Script Callback := ⟨steps, none, rfl⟩

def greet (answers : Answers) : String :=
  "Hello, " ++ (answers.first? "name").getD "" ++ "!"

def host : Host Callback Unit where
  produce
    | .greeting, answers, _ => (⟨0, .ok (greet answers)⟩, ())
    | .notBlank, _, _ => (⟨0, .ok ""⟩, ())
  holds _ _ _ := (⟨0, .ok true⟩, ())
  accepts
    | .notBlank, value, _, _ => (⟨0, .ok (!Text.isAllBlank value)⟩, ())
    | .greeting, _, _, _ => (⟨0, .ok true⟩, ())
  complete _ _ _ := (⟨0, .ok ()⟩, ())

end Dialogue.Demo
