import Dialogue.Script.Basic

/-!
# Drafts

The shape in which scripts are written down: a draft of a step has a place for each of the four
forms of step, and exactly one is to be filled. Main operation: `Script.ofDrafts`, which names the
first draft, in document order, that is filled otherwise or whose block is empty.
-/

namespace Dialogue

mutual

inductive Draft (κ : Type)
  | mk (output : Option (Output κ)) (input : Option (Input κ)) (branch loop : Option (DraftBlock κ))

inductive DraftBlock (κ : Type)
  | mk (condition : κ) (children : List (Draft κ)) (complete : Option κ)

end

variable {κ : Type}

def Draft.populated : Draft κ → Nat
  | .mk output input branch loop =>
    output.isSome.toNat + input.isSome.toNat + branch.isSome.toNat + loop.isSome.toNat

mutual

def Draft.toStep (p : Position) : Draft κ → Except ScriptError (Step κ)
  | .mk (some output) none none none => .ok (.output output)
  | .mk none (some input) none none => .ok (.input input)
  | .mk none none (some block) none => block.toStep p .branch
  | .mk none none none (some block) => block.toStep p .loop
  | .mk none none none none => .error (.emptyStep p)
  | draft => .error (.ambiguousStep p draft.populated)

def DraftBlock.toStep (p : Position) (kind : BlockKind) :
    DraftBlock κ → Except ScriptError (Step κ)
  | .mk _ [] _ => .error (.emptyBlock p kind)
  | .mk condition (draft :: drafts) complete =>
    match draftSteps p 0 (draft :: drafts) with
    | .ok children => .ok (.block kind condition children complete)
    | .error e => .error e

def draftSteps (p : Position) (i : Nat) : List (Draft κ) → Except ScriptError (List (Step κ))
  | [] => .ok []
  | draft :: drafts =>
    match draft.toStep (p.child i) with
    | .error e => .error e
    | .ok step =>
      match draftSteps p (i + 1) drafts with
      | .error e => .error e
      | .ok steps => .ok (step :: steps)

end

def Script.ofDrafts (drafts : List (Draft κ)) (complete : Option κ) :
    Except ScriptError (Script κ) :=
  match draftSteps [] 0 drafts with
  | .ok steps => Script.ofSteps steps complete
  | .error e => .error e

end Dialogue
