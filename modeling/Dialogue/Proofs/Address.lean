import Dialogue.Script.Basic

/-!
# Addresses

A position addresses a step exactly when each of its indices but the last leads into a block and
the last one selects a step there. `lookup` agrees with this strict reading wherever the indices
before the last lead into blocks, and `advance` then has three cases: the next sibling, the loop
around it, or whatever comes after the branch around it.
-/

namespace Dialogue

variable {κ : Type}

/-- The steps that one more index would select from: those inside the block at the position, and
all steps of the script for the empty path. -/
def bodyAt? : List (Step κ) → Position → Option (List (Step κ))
  | steps, [] => some steps
  | steps, i :: p =>
    match steps[i]? with
    | some (.block _ _ children _) => bodyAt? children p
    | _ => none

def resolve? : List (Step κ) → Position → Option (Step κ)
  | _, [] => none
  | steps, [i] => steps[i]?
  | steps, i :: j :: p =>
    match steps[i]? with
    | some (.block _ _ children _) => resolve? children (j :: p)
    | _ => none

theorem snoc_eq_cons (p : Position) (i : Nat) : ∃ k r, p ++ [i] = k :: r := by
  cases p with
  | nil => exact ⟨i, [], rfl⟩
  | cons j p => exact ⟨j, p ++ [i], rfl⟩

theorem resolve?_snoc : ∀ (steps : List (Step κ)) (p : Position) (i : Nat),
    resolve? steps (p ++ [i]) = (bodyAt? steps p).bind (·[i]?)
  | _, [], _ => rfl
  | steps, j :: p, i => by
    have ih := fun children : List (Step κ) => resolve?_snoc children p i
    obtain ⟨k, r, hr⟩ := snoc_eq_cons p i
    rw [hr] at ih
    rw [List.cons_append, hr, resolve?, bodyAt?]
    split
    · exact ih _
    · rfl

theorem nonempty_of_resolve? {steps : List (Step κ)} {p : Position} {step : Step κ}
    (h : resolve? steps p = some step) : p ≠ [] := by
  rintro rfl
  simp [resolve?] at h

/-- A step stands in a body, at the last index of its position. -/
theorem snoc_of_resolve? {steps : List (Step κ)} {p : Position} {step : Step κ}
    (h : resolve? steps p = some step) :
    ∃ q i body, p = q ++ [i] ∧ bodyAt? steps q = some body ∧ body[i]? = some step := by
  obtain ⟨q, i, rfl⟩ := (List.eq_nil_or_concat p).resolve_left (nonempty_of_resolve? h)
  rw [List.concat_eq_append, resolve?_snoc] at h
  obtain ⟨body, hb, hi⟩ := Option.bind_eq_some_iff.mp h
  exact ⟨q, i, body, List.concat_eq_append, hb, hi⟩

theorem bodyAt?_snoc : ∀ (steps : List (Step κ)) (p : Position) (i : Nat),
    bodyAt? steps (p ++ [i]) = (resolve? steps (p ++ [i])).bind Step.children?
  | steps, [], i => by
    simp only [List.nil_append, bodyAt?, resolve?]
    cases h : steps[i]? with
    | none => rfl
    | some step => cases step <;> rfl
  | steps, j :: p, i => by
    have ih := fun children : List (Step κ) => bodyAt?_snoc children p i
    obtain ⟨k, r, hr⟩ := snoc_eq_cons p i
    rw [hr] at ih
    rw [List.cons_append, hr, resolve?, bodyAt?]
    split
    · exact ih _
    · rfl

theorem bodyAt?_append : ∀ (steps : List (Step κ)) (p q : Position),
    bodyAt? steps (p ++ q) = (bodyAt? steps p).bind (bodyAt? · q)
  | _, [], _ => rfl
  | steps, i :: p, q => by
    rw [List.cons_append, bodyAt?, bodyAt?]
    split
    · exact bodyAt?_append _ p q
    · rfl

theorem bodyAt?_of_block {steps : List (Step κ)} {p : Position} {kind : BlockKind} {condition : κ}
    {children : List (Step κ)} {complete : Option κ}
    (h : resolve? steps p = some (.block kind condition children complete)) :
    bodyAt? steps p = some children := by
  obtain ⟨q, i, _, rfl, _⟩ := snoc_of_resolve? h
  rw [bodyAt?_snoc, h]
  rfl

theorem block_of_bodyAt? {steps : List (Step κ)} {p : Position} {body : List (Step κ)}
    (h : bodyAt? steps p = some body) (hp : p ≠ []) :
    ∃ kind condition complete, resolve? steps p = some (.block kind condition body complete) := by
  obtain ⟨q, i, rfl⟩ := (List.eq_nil_or_concat p).resolve_left hp
  rw [List.concat_eq_append] at h ⊢
  rw [bodyAt?_snoc] at h
  obtain ⟨step, hs, hc⟩ := Option.bind_eq_some_iff.mp h
  cases step with
  | block kind condition children complete =>
    simp only [Step.children?, Option.some.injEq] at hc
    subst hc
    exact ⟨kind, condition, complete, hs⟩
  | output _ => simp [Step.children?] at hc
  | input _ => simp [Step.children?] at hc

/-- The first of the steps that are left of a body, and how many there are after it. -/
theorem step_of_drop {steps body rest : List (Step κ)} {p : Position} {step : Step κ} {i : Nat}
    (hb : bodyAt? steps p = some body) (hd : body.drop i = step :: rest) :
    resolve? steps (p ++ [i]) = some step ∧ body.drop (i + 1) = rest ∧
      body.length = i + 1 + rest.length := by
  have hi : body[i]? = some step := by
    rw [← List.head?_drop, hd]
    rfl
  refine ⟨?_, ?_, ?_⟩
  · rw [resolve?_snoc, hb]
    exact hi
  · rw [← List.tail_drop, hd]
    rfl
  · have h := congrArg List.length hd
    have hlt := (List.getElem?_eq_some_iff.mp hi).1
    simp only [List.length_drop, List.length_cons] at h
    omega

/-! ## Looking up -/

theorem lookup_snoc : ∀ {steps : List (Step κ)} {p : Position} {body : List (Step κ)},
    bodyAt? steps p = some body → ∀ i, lookup steps (p ++ [i]) = body[i]?
  | steps, [], body, h, i => by
    simp only [bodyAt?, Option.some.injEq] at h
    subst h
    rw [List.nil_append, lookup]
    cases steps[i]? with
    | none => rfl
    | some step => cases step <;> rfl
  | steps, j :: p, body, h, i => by
    obtain ⟨k, r, hr⟩ := snoc_eq_cons p i
    rw [bodyAt?] at h
    split at h
    · rename_i kind condition children complete hj
      have ih := lookup_snoc h i
      rw [hr] at ih
      rw [List.cons_append, hr, lookup, hj]
      exact ih
    · cases h

theorem lookup_of_resolve? {steps : List (Step κ)} {p : Position} {step : Step κ}
    (h : resolve? steps p = some step) : lookup steps p = some step := by
  obtain ⟨q, i, body, rfl, hb, hi⟩ := snoc_of_resolve? h
  rw [lookup_snoc hb, hi]

/-! ## Advancing -/

section
variable {steps : List (Step κ)} {p : Position} {body : List (Step κ)}

theorem climb_snoc (hb : bodyAt? steps p = some body) (i : Nat) :
    advance steps (p ++ [i]) =
      if body[i + 1]?.isSome || p.isEmpty then ⟨p ++ [i + 1], []⟩
      else if (lookup steps p).any Step.isBranch then
        ⟨(advance steps p).next, p :: (advance steps p).exited⟩
      else ⟨p, []⟩ := by
  have hr : (p ++ [i]).reverse = i :: List.reverse p := by simp
  have hs : ((i + 1) :: List.reverse p).reverse = p ++ [i + 1] := by simp
  rw [advance, hr, climb, hs, lookup_snoc hb, List.reverse_reverse, List.isEmpty_reverse]
  rfl

theorem advance_sibling (hb : bodyAt? steps p = some body) {i : Nat} (hi : i + 1 < body.length) :
    advance steps (p ++ [i]) = ⟨p ++ [i + 1], []⟩ := by
  rw [climb_snoc hb, List.getElem?_eq_getElem hi]
  rfl

theorem advance_top (i : Nat) : advance steps [i] = ⟨[i + 1], []⟩ := by
  have hb : bodyAt? steps [] = some steps := rfl
  simpa using climb_snoc hb i

/-- Behind the last step of a body. -/
theorem advance_end {kind : BlockKind} {condition : κ} {complete : Option κ}
    (hp : resolve? steps p = some (.block kind condition body complete)) {i : Nat}
    (hi : body.length ≤ i + 1) : advance steps (p ++ [i]) =
      match kind with
      | .branch => ⟨(advance steps p).next, p :: (advance steps p).exited⟩
      | .loop => ⟨p, []⟩ := by
  have hne := nonempty_of_resolve? hp
  rw [climb_snoc (bodyAt?_of_block hp), List.getElem?_eq_none hi, lookup_of_resolve? hp]
  cases kind <;> simp [hne, Step.isBranch]

end

inductive Advances (steps : List (Step κ)) : Position → Advance → Prop
  | sibling {p : Position} {body : List (Step κ)} {i : Nat} (hb : bodyAt? steps p = some body)
    (hi : i + 1 < body.length) : Advances steps (p ++ [i]) ⟨p ++ [i + 1], []⟩
  | past {i : Nat} (hi : i + 1 = steps.length) : Advances steps [i] ⟨[i + 1], []⟩
  | again {p : Position} {condition : κ} {body : List (Step κ)} {complete : Option κ} {i : Nat}
    (hp : resolve? steps p = some (.block .loop condition body complete))
    (hi : i + 1 = body.length) : Advances steps (p ++ [i]) ⟨p, []⟩
  | leave {p : Position} {condition : κ} {body : List (Step κ)} {complete : Option κ} {i : Nat}
    {a : Advance} (hp : resolve? steps p = some (.block .branch condition body complete))
    (hi : i + 1 = body.length) : Advances steps p a →
    Advances steps (p ++ [i]) ⟨a.next, p :: a.exited⟩

/-- The induction is on the depth: from the end of a branch, control goes on one level up. -/
theorem advances_of_length {steps : List (Step κ)} : ∀ (n : Nat) {p : Position} {step : Step κ},
    p.length ≤ n → resolve? steps p = some step → Advances steps p (advance steps p)
  | 0, p, step, hn, h =>
    absurd (List.eq_nil_of_length_eq_zero (Nat.le_zero.mp hn)) (nonempty_of_resolve? h)
  | n + 1, p, step, hn, h => by
    obtain ⟨q, i, body, rfl, hb, hi⟩ := snoc_of_resolve? h
    have hlt : i < body.length := (List.getElem?_eq_some_iff.mp hi).1
    by_cases hs : i + 1 < body.length
    · rw [advance_sibling hb hs]
      exact .sibling hb hs
    have hend : i + 1 = body.length := by omega
    by_cases hq : q = []
    · subst hq
      cases hb
      rw [List.nil_append, advance_top]
      exact .past hend
    obtain ⟨kind, condition, complete, hblock⟩ := block_of_bodyAt? hb hq
    cases kind with
    | branch =>
      rw [advance_end hblock (by omega)]
      exact .leave hblock hend (advances_of_length n (by simp at hn; omega) hblock)
    | loop =>
      rw [advance_end hblock (by omega)]
      exact .again hblock hend

theorem advance_advances {steps : List (Step κ)} {p : Position} {step : Step κ}
    (h : resolve? steps p = some step) : Advances steps p (advance steps p) :=
  advances_of_length _ (Nat.le_refl _) h

/-! ## Blocks that are filled -/

theorem emptyBlockFrom?_none {p : Position} : ∀ {steps : List (Step κ)} {i : Nat},
    emptyBlockFrom? p i steps = none → ∀ step ∈ steps, ∃ q, step.emptyBlock? q = none
  | [], _, _ => by simp
  | step :: steps, i, h => by
    rw [emptyBlockFrom?] at h
    split at h
    · cases h
    · rename_i hs
      intro other ho
      rcases List.mem_cons.mp ho with rfl | ho
      · exact ⟨_, hs⟩
      · exact emptyBlockFrom?_none h other ho

theorem filled_body : ∀ {steps : List (Step κ)} {p q : Position} {i : Nat} {body : List (Step κ)},
    emptyBlockFrom? q i steps = none → bodyAt? steps p = some body → p ≠ [] → body ≠ []
  | steps, i :: p, q, j, body, h, hb, _ => by
    rw [bodyAt?] at hb
    split at hb
    · rename_i kind condition children complete hi
      obtain ⟨r, hr⟩ := emptyBlockFrom?_none h _ (List.mem_of_getElem? hi)
      cases children with
      | nil => simp [Step.emptyBlock?] at hr
      | cons child children =>
        rw [Step.emptyBlock?] at hr
        cases p with
        | nil => simp only [bodyAt?, Option.some.injEq] at hb; simp [← hb]
        | cons k p => exact filled_body hr hb (List.cons_ne_nil _ _)
    · cases hb

theorem Script.block_nonempty (script : Script κ) {p : Position} {kind : BlockKind} {condition : κ}
    {children : List (Step κ)} {complete : Option κ}
    (h : resolve? script.steps p = some (.block kind condition children complete)) :
    children ≠ [] :=
  filled_body script.filled (bodyAt?_of_block h) (nonempty_of_resolve? h)

end Dialogue
