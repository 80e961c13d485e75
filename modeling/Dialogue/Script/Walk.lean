import Dialogue.Position
import Dialogue.Script.Step

/-!
# Walking a script

Which step a position addresses, and where control goes when a step has finished: to the next
sibling; at the end of a loop's body back to the loop; at the end of a branch's body on from the
branch; at the end of the script to the index just past it. Blocks may be empty here.
-/

namespace Dialogue

variable {κ : Type}

/-- The step at a position. A block is entered only while indices remain, and a leaf ignores the
indices below it. -/
def lookup : List (Step κ) → Position → Option (Step κ)
  | _, [] => none
  | steps, i :: path =>
    match steps[i]? with
    | none => none
    | some step =>
      match step.children?, path with
      | some children, _ :: _ => lookup children path
      | _, _ => some step

/-- Where control goes next, and the branches that ended on the way, innermost first. -/
structure Advance where
  next : Position
  exited : List Position
  deriving Repr, DecidableEq

/-- Climbs from a finished step, given by its indices from the innermost outwards. -/
def climb (steps : List (Step κ)) : List Nat → Advance
  | [] => ⟨[], []⟩
  | i :: up =>
    let sibling := ((i + 1) :: up).reverse
    if (lookup steps sibling).isSome || up.isEmpty then ⟨sibling, []⟩
    else
      let parent := up.reverse
      if (lookup steps parent).any Step.isBranch then
        let outer := climb steps up
        ⟨outer.next, parent :: outer.exited⟩
      else ⟨parent, []⟩

def advance (steps : List (Step κ)) (p : Position) : Advance :=
  climb steps p.reverse

end Dialogue
