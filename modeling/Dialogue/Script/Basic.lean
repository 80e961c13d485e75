import Dialogue.Script.Walk

/-!
# Scripts

A script is a list of steps in which no block is empty, at any depth, together with the callback
for the end of the conversation. Main operation: `Script.ofSteps`, which refuses a tree with an
empty block and names the first one in document order (a block before its children, siblings from
left to right).
-/

namespace Dialogue

inductive ScriptError
  | emptyStep (position : Position)
  | ambiguousStep (position : Position) (populated : Nat)
  | emptyBlock (position : Position) (kind : BlockKind)
  deriving Repr, DecidableEq

def ScriptError.message : ScriptError → String
  | .emptyStep p => "step " ++ p.render ++ " defines none of input, output, if, while"
  | .ambiguousStep p n =>
    "step " ++ p.render ++ " defines " ++ toString n
      ++ " of input, output, if, while; exactly one is required"
  | .emptyBlock p kind => kind.name ++ " block at " ++ p.render ++ " has no children"

variable {κ : Type}

/-! ## Empty blocks -/

mutual

def Step.emptyBlock? (p : Position) : Step κ → Option (Position × BlockKind)
  | .output _ => none
  | .input _ => none
  | .block kind _ [] _ => some (p, kind)
  | .block _ _ (step :: steps) _ => emptyBlockFrom? p 0 (step :: steps)

def emptyBlockFrom? (p : Position) (i : Nat) : List (Step κ) → Option (Position × BlockKind)
  | [] => none
  | step :: steps =>
    match step.emptyBlock? (p.child i) with
    | some found => some found
    | none => emptyBlockFrom? p (i + 1) steps

end

def emptyBlock? (steps : List (Step κ)) : Option (Position × BlockKind) :=
  emptyBlockFrom? [] 0 steps

/-! ## Scripts -/

structure Script (κ : Type) where
  steps : List (Step κ)
  complete : Option κ
  filled : emptyBlock? steps = none

namespace Script

def ofSteps (steps : List (Step κ)) (complete : Option κ) : Except ScriptError (Script κ) :=
  match h : emptyBlock? steps with
  | none => .ok ⟨steps, complete, h⟩
  | some (p, kind) => .error (.emptyBlock p kind)

def stepAt? (script : Script κ) (p : Position) : Option (Step κ) :=
  lookup script.steps p

end Script

end Dialogue
