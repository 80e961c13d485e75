import Dialogue.Text.Described

/-!
# Positions

A position is a path of indices, the outermost first: `[i]` is the top-level step `i` and `[i, j]`
the child `j` of the block there. The empty path addresses nothing.
-/

namespace Dialogue

abbrev Position := List Nat

namespace Position

def start : Position := [0]

def child (p : Position) (i : Nat) : Position := p ++ [i]

def descend (p : Position) : Position := p.child 0

def nextSibling : Position → Position
  | [] => []
  | [i] => [i + 1]
  | i :: j :: p => i :: nextSibling (j :: p)

def parent? : Position → Option Position
  | [] => none
  | [_] => none
  | i :: j :: p => some (i :: (parent? (j :: p)).getD [])

def render (p : Position) : String :=
  Text.describeList (List.map toString p)

end Position

end Dialogue
