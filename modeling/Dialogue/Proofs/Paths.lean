import Dialogue.Proofs.Onward

/-!
# Paths

A lookup stops for two reasons: the path is used up, or a leaf has been reached with indices left
over. So it goes on from what is found at the first part of a path: in a block by the rest of the
path, at a leaf not at all. What is found is a block only if the path is used up, and a path that
leads through blocks is used up in any case.
-/

namespace Dialogue

variable {κ : Type}

/-- What is found at a path that goes on from a step: in a block by its children, at a leaf the
leaf itself. -/
def Step.lookupFrom (q : Position) : Step κ → Option (Step κ)
  | .block _ _ children _ => lookup children q
  | leaf => some leaf

def Descends (steps : List (Step κ)) (p : Position) : Prop :=
  ∀ q, q ≠ [] → p.Inside q → ∃ kind condition children complete,
    lookup steps q = some (.block kind condition children complete)

/-! ## Going on -/

theorem lookup_singleton (steps : List (Step κ)) (i : Nat) : lookup steps [i] = steps[i]? := by
  rw [lookup]
  cases steps[i]? with
  | none => rfl
  | some step => cases step <;> rfl

theorem lookup_cons_of_ne_nil (steps : List (Step κ)) (i : Nat) {q : Position} (hq : q ≠ []) :
    lookup steps (i :: q) = steps[i]?.bind (Step.lookupFrom q) := by
  obtain ⟨j, q, rfl⟩ := List.exists_cons_of_ne_nil hq
  rw [lookup]
  cases steps[i]? with
  | none => rfl
  | some step => cases step <;> rfl

/-- The induction is on the first part of the path. At a leaf both sides have come to their end. -/
theorem lookup_append : ∀ (steps : List (Step κ)) {p q : Position}, p ≠ [] → q ≠ [] →
    lookup steps (p ++ q) = (lookup steps p).bind (Step.lookupFrom q)
  | steps, [i], q, _, hq => by
    rw [List.singleton_append, lookup_cons_of_ne_nil steps i hq, lookup_singleton]
  | steps, i :: j :: p, q, _, hq => by
    rw [List.cons_append, lookup_cons_of_ne_nil steps i (by simp),
      lookup_cons_of_ne_nil steps i (by simp)]
    cases steps[i]? with
    | none => rfl
    | some step =>
      cases step with
      | block kind condition children complete =>
        exact lookup_append children (List.cons_ne_nil j p) hq
      | _ => rfl

/-! ## Paths that are used up -/

section
variable {steps : List (Step κ)} {p : Position}

/-- What is found is either addressed by the whole path, or it is a leaf. -/
theorem resolve?_of_lookup : ∀ {steps : List (Step κ)} {p : Position} {step : Step κ},
    lookup steps p = some step → resolve? steps p = some step ∨ step.children? = none
  | steps, [], step, h => by
    rw [lookup] at h
    cases h
  | steps, [i], step, h => by
    rw [lookup_singleton] at h
    exact .inl h
  | steps, i :: j :: p, step, h => by
    rw [lookup_cons_of_ne_nil steps i (List.cons_ne_nil j p)] at h
    obtain ⟨found, hi, h⟩ := Option.bind_eq_some_iff.mp h
    rw [resolve?, hi]
    cases found with
    | block kind condition children complete => exact resolve?_of_lookup h
    | output o =>
      cases h
      exact .inr rfl
    | input i =>
      cases h
      exact .inr rfl

theorem resolve?_of_lookup_block {kind : BlockKind} {condition : κ} {children : List (Step κ)}
    {complete : Option κ} (h : lookup steps p = some (.block kind condition children complete)) :
    resolve? steps p = some (.block kind condition children complete) := by
  rcases resolve?_of_lookup h with hr | hleaf
  · exact hr
  · cases hleaf

theorem descends_of_resolve? {step : Step κ} (h : resolve? steps p = some step) :
    Descends steps p := by
  intro q hq hin
  obtain ⟨kind, condition, children, complete, hblock⟩ := isBlock_of_inside ⟨step, h⟩ hq hin
  exact ⟨kind, condition, children, complete, lookup_of_resolve? hblock⟩

/-- Only the last of the blocks matters: it was found with all indices that lead to it. -/
theorem Descends.body {i : Nat} (h : Descends steps (p ++ [i])) :
    ∃ body, bodyAt? steps p = some body := by
  by_cases hp : p = []
  · subst hp
    exact ⟨steps, rfl⟩
  · have hin : Position.Inside (p ++ [i]) p := (Position.inside_snoc p p i).mpr (.inl rfl)
    obtain ⟨kind, condition, children, complete, hfound⟩ := h p hp hin
    exact ⟨children, bodyAt?_of_block (resolve?_of_lookup_block hfound)⟩

end

/-- **Paths.** A lookup of two paths in a row is a lookup of the second from what the first one
leads to. So a block is found only when every index was used to descend to it; and when all indices
but the last lead into blocks, what is found is exactly what the path addresses, which is there if
the last index is in range. -/
theorem lookup_composes (steps : List (Step κ)) :
    (∀ p q, p ≠ [] → q ≠ [] →
      (lookup steps p = none → lookup steps (p ++ q) = none) ∧
      (∀ kind condition children complete,
        lookup steps p = some (.block kind condition children complete) →
          lookup steps (p ++ q) = lookup children q) ∧
      ∀ leaf, lookup steps p = some leaf → leaf.children? = none →
        lookup steps (p ++ q) = some leaf) ∧
    (∀ p kind condition children complete,
      lookup steps p = some (.block kind condition children complete) →
        Descends steps p ∧ resolve? steps p = some (.block kind condition children complete)) ∧
    ∀ p i, Descends steps (p ++ [i]) →
      lookup steps (p ++ [i]) = resolve? steps (p ++ [i]) ∧
        ∃ body, bodyAt? steps p = some body ∧
          ((lookup steps (p ++ [i])).isSome ↔ i < body.length) := by
  refine ⟨fun p q hp hq => ?_, fun p kind condition children complete h => ?_, fun p i h => ?_⟩
  · rw [lookup_append steps hp hq]
    refine ⟨fun h => by rw [h]; rfl, fun kind condition children complete h => by rw [h]; rfl, ?_⟩
    intro leaf h hleaf
    rw [h]
    cases leaf with
    | block kind condition children complete => cases hleaf
    | _ => rfl
  · have hr := resolve?_of_lookup_block h
    exact ⟨descends_of_resolve? hr, hr⟩
  · obtain ⟨body, hb⟩ := h.body
    refine ⟨?_, body, hb, ?_⟩
    · rw [lookup_snoc hb, resolve?_snoc, hb]
      rfl
    · rw [lookup_snoc hb]
      simp

/-- The branch is found with all of its indices, and its input with an index left over. -/
theorem survey_lookup_composes : ∃ children,
    lookup survey.steps [0, 1] = some (.block .branch () children (some ())) ∧
      lookup survey.steps ([0, 1] ++ [0, 7]) = lookup children [0, 7] ∧
      Descends survey.steps ([0] ++ [1]) ∧
      lookup survey.steps ([0] ++ [1]) = resolve? survey.steps ([0] ++ [1]) ∧
      lookup survey.steps [1] = none ∧ lookup survey.steps ([1] ++ [0]) = none := by
  obtain ⟨happend, hblock, hlast⟩ := lookup_composes survey.steps
  have hfound : lookup survey.steps [0, 1] = some (.block .branch ()
      [.input ⟨"toy", [], some ()⟩] (some ())) := rfl
  have hnone : lookup survey.steps [1] = none := rfl
  have hdescends : Descends survey.steps ([0] ++ [1]) := (hblock _ _ _ _ _ hfound).1
  exact ⟨_, hfound, (happend [0, 1] [0, 7] nofun nofun).2.1 _ _ _ _ hfound, hdescends,
    (hlast [0] 1 hdescends).1, hnone, (happend [1] [0] nofun nofun).1 hnone⟩

end Dialogue
