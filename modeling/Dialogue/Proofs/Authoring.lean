import Dialogue.Proofs.Drafts

/-!
# Two ways to a script

A tree of steps can be checked as it is, or written down as drafts, with one place filled in each,
and read from these. Both ways lead to the same script, or to the same error: that of the first
empty block.
-/

namespace Dialogue

variable {κ : Type}

mutual

def Step.toDraft : Step κ → Draft κ
  | .output o => .mk (some o) none none none
  | .input i => .mk none (some i) none none
  | .block .branch condition children complete =>
    .mk none none (some (.mk condition (toDrafts children) complete)) none
  | .block .loop condition children complete =>
    .mk none none none (some (.mk condition (toDrafts children) complete))

def toDrafts : List (Step κ) → List (Draft κ)
  | [] => []
  | step :: steps => step.toDraft :: toDrafts steps

end

def verdict {α : Type} (a : α) : Option (Position × BlockKind) → Except ScriptError α
  | none => .ok a
  | some (p, kind) => .error (.emptyBlock p kind)

theorem DraftBlock.toStep_toDrafts {p : Position} {kind : BlockKind} {condition : κ}
    {children : List (Step κ)} {complete : Option κ}
    (h : draftSteps p 0 (toDrafts children) = verdict children (emptyBlockFrom? p 0 children)) :
    DraftBlock.toStep p kind (.mk condition (toDrafts children) complete) =
      verdict (.block kind condition children complete)
        ((Step.block kind condition children complete).emptyBlock? p) := by
  cases children with
  | nil => rfl
  | cons child children =>
    rw [toDrafts] at h ⊢
    rw [DraftBlock.toStep, h, Step.emptyBlock?]
    cases emptyBlockFrom? p 0 (child :: children) <;> rfl

mutual

theorem toStep_toDraft (p : Position) :
    ∀ step : Step κ, step.toDraft.toStep p = verdict step (step.emptyBlock? p)
  | .output _ => rfl
  | .input _ => rfl
  | .block .branch _ children _ => DraftBlock.toStep_toDrafts (draftSteps_toDrafts p 0 children)
  | .block .loop _ children _ => DraftBlock.toStep_toDrafts (draftSteps_toDrafts p 0 children)

theorem draftSteps_toDrafts (p : Position) : ∀ (i : Nat) (steps : List (Step κ)),
    draftSteps p i (toDrafts steps) = verdict steps (emptyBlockFrom? p i steps)
  | _, [] => rfl
  | i, step :: steps => by
    have hstep := toStep_toDraft (p.child i) step
    have hsteps := draftSteps_toDrafts p (i + 1) steps
    rw [toDrafts, draftSteps, emptyBlockFrom?, hstep, hsteps]
    cases step.emptyBlock? (p.child i) with
    | some found => rfl
    | none => cases emptyBlockFrom? p (i + 1) steps <;> rfl

end

theorem ofDrafts_toDrafts (steps : List (Step κ)) (complete : Option κ) :
    Script.ofDrafts (toDrafts steps) complete = Script.ofSteps steps complete := by
  have h : draftSteps [] 0 (toDrafts steps) = verdict steps (emptyBlock? steps) :=
    draftSteps_toDrafts [] 0 steps
  unfold Script.ofDrafts
  rw [h]
  cases hs : emptyBlock? steps with
  | none => rfl
  | some found => rw [Script.ofSteps_some hs]; rfl

/-- **Two ways to a script.** A tree that is checked and a tree that is read from its drafts come to
the same: to the script of the tree if none of its blocks is empty, at any depth, and otherwise to
the error that names the first empty one. -/
theorem authoring_paths_agree (steps : List (Step κ)) (complete : Option κ) :
    ((∃ script, Script.ofSteps steps complete = .ok script) ↔
      ∀ p kind, ¬ EmptyAt steps p kind) ∧
    ((∃ script, script.steps = steps ∧ script.complete = complete ∧
        Script.ofSteps steps complete = .ok script ∧
        Script.ofDrafts (toDrafts steps) complete = .ok script) ∨
      ∃ p kind, FirstEmpty steps p kind ∧
        Script.ofSteps steps complete = .error (.emptyBlock p kind) ∧
        Script.ofDrafts (toDrafts steps) complete = .error (.emptyBlock p kind)) := by
  rw [ofDrafts_toDrafts]
  cases h : emptyBlock? steps with
  | none =>
    have hok : Script.ofSteps steps complete = .ok ⟨steps, complete, h⟩ := Script.ofSteps_none h
    have hnone := emptyBlock?_none_iff.mp h
    exact ⟨⟨fun _ => hnone, fun _ => ⟨_, hok⟩⟩, .inl ⟨_, rfl, rfl, hok, hok⟩⟩
  | some found =>
    obtain ⟨p, kind⟩ := found
    have herr : Script.ofSteps steps complete = .error (.emptyBlock p kind) :=
      Script.ofSteps_some h
    have hfirst := emptyBlock?_first h
    refine ⟨⟨?_, fun hnone => absurd hfirst.empty (hnone p kind)⟩,
      .inr ⟨p, kind, hfirst, herr, herr⟩⟩
    rintro ⟨script, hok⟩
    rw [herr] at hok
    cases hok

end Dialogue
