import Dialogue.Duration

/-!
# Steps

The tree of a script. An output says something, an input asks for one answer, and a block holds
further steps under a condition: a branch runs them at most once, a loop again and again. Wherever
a script calls for a decision or a text that depends on the conversation, it holds the name of a
callback (of type `κ`); a script is therefore plain data.
-/

namespace Dialogue

inductive Wording (κ : Type)
  | literal (text : String)
  | computed (callback : κ)

/-- What an output says, how long it pauses, and the callback for its end. Without a wording the
message is empty. -/
structure Output (κ : Type) where
  wording : Option (Wording κ)
  wait : Duration
  complete : Option κ

/-- One rule of an input: without a predicate it never rejects. -/
structure Rule (κ : Type) where
  predicate : Option κ
  errorText : Wording κ

structure Input (κ : Type) where
  name : String
  rules : List (Rule κ)
  complete : Option κ

inductive BlockKind
  | branch
  | loop
  deriving Repr, DecidableEq

def BlockKind.name : BlockKind → String
  | .branch => "if"
  | .loop => "while"

inductive Step (κ : Type)
  | output (output : Output κ)
  | input (input : Input κ)
  | block (kind : BlockKind) (condition : κ) (children : List (Step κ)) (complete : Option κ)

variable {κ : Type}

namespace Step

def children? : Step κ → Option (List (Step κ))
  | .block _ _ children _ => some children
  | _ => none

def complete? : Step κ → Option κ
  | .output o => o.complete
  | .input i => i.complete
  | .block _ _ _ complete => complete

def kindName : Step κ → String
  | .output _ => "output"
  | .input _ => "input"
  | .block kind _ _ _ => kind.name

def isBranch : Step κ → Bool
  | .block .branch _ _ _ => true
  | _ => false

end Step

end Dialogue
