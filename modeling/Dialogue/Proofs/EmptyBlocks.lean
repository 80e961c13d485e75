import Dialogue.Proofs.Address

/-!
# Empty blocks

In document order a block comes before the steps in it, and siblings come from left to right. The
check of a tree finds the empty block that comes first in this order. So a tree makes a script if
and only if none of its blocks is empty, at any depth.
-/

namespace Dialogue

variable {κ : Type}

/-! ## Document order -/

namespace Position

def Precedes : Position → Position → Prop
  | [], _ => True
  | _ :: _, [] => False
  | i :: p, j :: q => i < j ∨ i = j ∧ Precedes p q

theorem nil_precedes (q : Position) : Precedes [] q := trivial

theorem cons_precedes {i j : Nat} {p q : Position} :
    Precedes (i :: p) (j :: q) ↔ i < j ∨ i = j ∧ p.Precedes q := Iff.rfl

theorem Precedes.antisymm : ∀ {p q : Position}, p.Precedes q → q.Precedes p → p = q
  | [], [], _, _ => rfl
  | [], _ :: _, _, h => h.elim
  | _ :: _, [], h, _ => h.elim
  | i :: p, j :: q, h, h' => by
    rcases h with hij | ⟨rfl, h⟩
    · rcases h' with hji | ⟨hji, _⟩ <;> omega
    · rcases h' with hii | ⟨_, h'⟩
      · omega
      · rw [h.antisymm h']

end Position

def EmptyAt (steps : List (Step κ)) (p : Position) (kind : BlockKind) : Prop :=
  ∃ condition complete, resolve? steps p = some (.block kind condition [] complete)

structure FirstEmpty (steps : List (Step κ)) (p : Position) (kind : BlockKind) : Prop where
  empty : EmptyAt steps p kind
  first : ∀ q kind', EmptyAt steps q kind' → p.Precedes q

theorem FirstEmpty.unique {steps : List (Step κ)} {p q : Position} {kind kind' : BlockKind}
    (h : FirstEmpty steps p kind) (h' : FirstEmpty steps q kind') : p = q ∧ kind = kind' := by
  have hpq : p = q := (h.first q kind' h'.empty).antisymm (h'.first p kind h.empty)
  subst hpq
  obtain ⟨_, _, hp⟩ := h.empty
  obtain ⟨_, _, hp'⟩ := h'.empty
  cases hp.symm.trans hp'
  exact ⟨rfl, rfl⟩

/-! ## Steps among their siblings -/

section
variable {steps before after : List (Step κ)} {step : Step κ} {i : Nat} {p : Position}

theorem resolve?_congr {steps' : List (Step κ)} (h : steps[i]? = steps'[i]?) (p : Position) :
    resolve? steps (i :: p) = resolve? steps' (i :: p) := by
  cases p with
  | nil => exact h
  | cons j p => rw [resolve?, resolve?, h]

theorem resolve?_below (hi : steps[i]? = some step) (hp : p ≠ []) :
    resolve? steps (i :: p) = step.children?.bind (resolve? · p) := by
  cases p with
  | nil => exact absurd rfl hp
  | cons j p =>
    rw [resolve?, hi]
    cases step <;> rfl

theorem resolve?_lt (h : resolve? steps (i :: p) = some step) : i < steps.length := by
  rcases Nat.lt_or_ge i steps.length with hi | hi
  · exact hi
  · have hnone : steps[i]? = none := List.getElem?_eq_none hi
    cases p <;> simp [resolve?, hnone] at h

theorem resolve?_ne_nil (h : resolve? steps p = some step) : p ≠ [] := by
  rintro rfl
  cases h

theorem emptyAt_before {q : Position} {kind : BlockKind} (hi : i < before.length) :
    EmptyAt (before ++ after) (i :: q) kind ↔ EmptyAt before (i :: q) kind := by
  unfold EmptyAt
  rw [resolve?_congr (List.getElem?_append_left hi)]

end

/-! ## The check -/

/-- The check finds something in one of the steps, and nothing in those before it. -/
theorem emptyBlockFrom?_split {p : Position} {found : Position × BlockKind} :
    ∀ {steps : List (Step κ)} {i : Nat}, emptyBlockFrom? p i steps = some found →
      ∃ before step after, steps = before ++ step :: after ∧
        emptyBlockFrom? p i before = none ∧
          step.emptyBlock? (p.child (i + before.length)) = some found
  | [], i, h => by cases h
  | step :: steps, i, h => by
    rw [emptyBlockFrom?] at h
    cases hs : step.emptyBlock? (p.child i) with
    | some found' =>
      rw [hs] at h
      cases h
      exact ⟨[], step, steps, rfl, rfl, hs⟩
    | none =>
      rw [hs] at h
      obtain ⟨before, other, after, rfl, hb, ho⟩ := emptyBlockFrom?_split h
      refine ⟨step :: before, other, after, rfl, ?_, ?_⟩
      · rw [emptyBlockFrom?, hs]
        exact hb
      · rw [List.length_cons, ← Nat.add_assoc, Nat.add_right_comm]
        exact ho

theorem emptyBlock?_cases {p : Position} {step : Step κ} {found : Position × BlockKind}
    (h : step.emptyBlock? p = some found) : ∃ kind condition children complete,
      step = .block kind condition children complete ∧
        (children = [] ∧ found = (p, kind) ∨
          children ≠ [] ∧ emptyBlockFrom? p 0 children = some found) := by
  cases step with
  | output o => cases h
  | input i => cases h
  | block kind condition children complete =>
    refine ⟨kind, condition, children, complete, rfl, ?_⟩
    cases children with
    | nil => cases h; exact .inl ⟨rfl, rfl⟩
    | cons child children => exact .inr ⟨List.cons_ne_nil _ _, h⟩

theorem not_emptyAt {p q : Position} {i : Nat} {kind : BlockKind} {steps : List (Step κ)}
    (h : emptyBlockFrom? p i steps = none) : ¬ EmptyAt steps q kind := by
  rintro ⟨condition, complete, hq⟩
  exact filled_body h (bodyAt?_of_block hq) (resolve?_ne_nil hq) rfl

/-! ## The first empty block -/

section
variable {steps : List (Step κ)} {n : Nat} {r : Position} {kind : BlockKind}

def EmptyFrom (n : Nat) (steps : List (Step κ)) : Prop :=
  ∀ r kind, EmptyAt steps r kind → ∃ j s, r = j :: s ∧ n ≤ j

theorem emptyFrom_append {p : Position} {i : Nat} {before after : List (Step κ)}
    (hb : emptyBlockFrom? p i before = none) : EmptyFrom before.length (before ++ after) := by
  intro r kind h
  cases r with
  | nil =>
    obtain ⟨_, _, hr⟩ := h
    cases hr
  | cons j s =>
    refine ⟨j, s, rfl, ?_⟩
    by_cases hj : j < before.length
    · exact absurd ((emptyAt_before hj).mp h) (not_emptyAt hb)
    · exact Nat.le_of_not_lt hj

theorem firstEmpty_here (hn : EmptyFrom n steps) {condition : κ} {complete : Option κ}
    (h : steps[n]? = some (.block kind condition [] complete)) : FirstEmpty steps [n] kind := by
  refine ⟨⟨condition, complete, h⟩, ?_⟩
  intro r kind' hr
  obtain ⟨j, s, rfl, hj⟩ := hn r kind' hr
  rw [Position.cons_precedes]
  rcases Nat.lt_or_eq_of_le hj with hj | hj
  · exact .inl hj
  · exact .inr ⟨hj, Position.nil_precedes s⟩

theorem firstEmpty_inside (hn : EmptyFrom n steps) {kind' : BlockKind} {condition : κ}
    {children : List (Step κ)} {complete : Option κ}
    (h : steps[n]? = some (.block kind' condition children complete)) (hc : children ≠ [])
    (hr : FirstEmpty children r kind) : FirstEmpty steps (n :: r) kind := by
  have hbelow (s : Position) (kind : BlockKind) (hs : s ≠ []) :
      EmptyAt steps (n :: s) kind ↔ EmptyAt children s kind := by
    unfold EmptyAt
    rw [resolve?_below h hs]
    rfl
  have hne : r ≠ [] := by
    obtain ⟨_, _, hr⟩ := hr.empty
    exact resolve?_ne_nil hr
  refine ⟨(hbelow r kind hne).mpr hr.empty, ?_⟩
  intro r' kind'' hr'
  obtain ⟨j, s, rfl, hj⟩ := hn r' kind'' hr'
  rw [Position.cons_precedes]
  rcases Nat.lt_or_eq_of_le hj with hj | rfl
  · exact .inl hj
  refine .inr ⟨rfl, ?_⟩
  -- the step itself is not empty, so an empty block in it is one of its children's
  by_cases hs : s = []
  · subst hs
    obtain ⟨_, _, hstep⟩ := hr'
    rw [resolve?, h] at hstep
    cases hstep
    exact absurd rfl hc
  · exact hr.first s kind'' ((hbelow s kind'' hs).mp hr')

end

theorem emptyBlockFrom?_first {steps : List (Step κ)} {p q : Position} {kind : BlockKind}
    (h : emptyBlockFrom? p 0 steps = some (q, kind)) :
    ∃ r, q = p ++ r ∧ FirstEmpty steps r kind := by
  obtain ⟨before, step, after, hsteps, hb, hs⟩ := emptyBlockFrom?_split h
  have hn : EmptyFrom before.length steps := hsteps ▸ emptyFrom_append hb
  have hstep : steps[before.length]? = some step := by simp [hsteps]
  obtain ⟨kind', condition, children, complete, rfl, hcases⟩ := emptyBlock?_cases hs
  have hsize : sizeOf children < sizeOf steps := by
    have hlt := List.sizeOf_lt_of_mem (List.mem_of_getElem? hstep)
    simp at hlt
    omega
  rcases hcases with ⟨rfl, hfound⟩ | ⟨hc, hfound⟩
  · cases hfound
    exact ⟨[before.length], by simp [Position.child], firstEmpty_here hn hstep⟩
  · obtain ⟨r, rfl, hfirst⟩ := emptyBlockFrom?_first hfound
    exact ⟨before.length :: r, by simp [Position.child], firstEmpty_inside hn hstep hc hfirst⟩
termination_by sizeOf steps

theorem emptyBlock?_first {steps : List (Step κ)} {p : Position} {kind : BlockKind}
    (h : emptyBlock? steps = some (p, kind)) : FirstEmpty steps p kind := by
  obtain ⟨r, hr, hfirst⟩ := emptyBlockFrom?_first h
  rw [List.nil_append] at hr
  exact hr ▸ hfirst

theorem emptyBlock?_none_iff {steps : List (Step κ)} :
    emptyBlock? steps = none ↔ ∀ p kind, ¬ EmptyAt steps p kind := by
  constructor
  · exact fun h p kind => not_emptyAt h
  · intro h
    cases hs : emptyBlock? steps with
    | none => rfl
    | some found => exact absurd (emptyBlock?_first hs).empty (h _ _)

/-! ## Scripts -/

namespace Script

section
variable {steps : List (Step κ)} {complete : Option κ}

theorem ofSteps_none (h : emptyBlock? steps = none) :
    ofSteps steps complete = .ok ⟨steps, complete, h⟩ := by
  unfold ofSteps
  split
  · rfl
  · rename_i hs
    rw [h] at hs
    cases hs

theorem ofSteps_some {p : Position} {kind : BlockKind} (h : emptyBlock? steps = some (p, kind)) :
    ofSteps steps complete = .error (.emptyBlock p kind) := by
  unfold ofSteps
  split
  · rename_i hs
    rw [h] at hs
    cases hs
  · rename_i hs
    rw [h] at hs
    cases hs
    rfl

end

end Script

end Dialogue
