import Dialogue.Proofs.Brackets
import Dialogue.Proofs.EmptyBlocks
import Mathlib.Order.Bounds.Defs

/-!
# Going on from a step

Where control goes on, in terms of the tree. It climbs from the step that has finished to the first
of the steps around it that has a next sibling, is in a loop, or is at the top level; the steps that
it leaves on the way are branches. So it goes on at the first step after the whole of the finished
one in document order, unless the body of a loop is at its end before that: then it goes back to
that loop. Blocks may be empty here.
-/

namespace Dialogue

variable {κ : Type}

namespace Position

def above? (p : Position) : Nat → Option Position
  | 0 => some p
  | k + 1 => (p.above? k).bind parent?

/-- In document order the position comes after all that is in the step at `p`. -/
def After (q p : Position) : Prop := p.Precedes q ∧ ¬ p <+: q

end Position

open Position

section
variable (steps : List (Step κ))

def IsStep (p : Position) : Prop := ∃ step, resolve? steps p = some step

def IsBlock (kind : BlockKind) (p : Position) : Prop :=
  ∃ condition children complete, resolve? steps p = some (.block kind condition children complete)

def Halts (p : Position) : Prop :=
  IsStep steps p.nextSibling ∨ (∃ w, p.parent? = some w ∧ IsBlock steps .loop w) ∨ p.parent? = none

/-- Where control goes on from a step at `p`, in document order. -/
inductive Onward (p : Position) : Position → Prop
  -- at the first step after it, without leaving a loop
  | on {next : Position} (hs : IsStep steps next) (ha : next.After p)
    (first : ∀ r, IsStep steps r → r.After p → next.Precedes r)
    (within : ∀ w, IsBlock steps .loop w → p.Inside w → next.Inside w) : Onward p next
  -- back at the innermost loop around it, which has nothing left in its body
  | back {next : Position} (hl : IsBlock steps .loop next) (hi : p.Inside next)
    (innermost : ∀ w, IsBlock steps .loop w → p.Inside w → w = next ∨ next.Inside w)
    (rest : ∀ r, IsStep steps r → r.Inside next → ¬ r.After p) : Onward p next
  -- past the end of the script, with nothing left at all
  | ends (loops : ∀ w, IsBlock steps .loop w → ¬ p.Inside w)
    (rest : ∀ r, IsStep steps r → ¬ r.After p) : Onward p [steps.length]

inductive Turns (top : Position) : Position → Prop
  | sibling (h : IsStep steps top.nextSibling) : Turns top top.nextSibling
  | loop {w : Position} (h : ¬ IsStep steps top.nextSibling) (hw : top.parent? = some w)
    (hl : IsBlock steps .loop w) : Turns top w
  | past (h : ¬ IsStep steps top.nextSibling) (hw : top.parent? = none) : Turns top [steps.length]

structure Advance.Exact (p : Position) (a : Advance) : Prop where
  climbs : ∃ k top, IsLeast {k | ∃ q, p.above? k = some q ∧ Halts steps q} k ∧
    p.above? k = some top ∧ a.exited.map some = (List.range' 1 k).map p.above? ∧
      Turns steps top a.next
  branches : ∀ q ∈ a.exited, IsBlock steps .branch q
  onward : Onward steps p a.next
  outside : ¬ p <+: a.next
  -- of the siblings of a step that has finished, the next one comes next
  siblings : ∀ r i, r ++ [i] ∈ p :: a.exited →
    (IsStep steps (r ++ [i + 1]) → a.next = r ++ [i + 1]) ∧ ∀ j, a.next = r ++ [j] → j = i + 1

end

/-! ## Positions -/

namespace Position

theorem nextSibling_snoc : ∀ (p : Position) (i : Nat), nextSibling (p ++ [i]) = p ++ [i + 1]
  | [], _ => rfl
  | [_], _ => rfl
  | j :: k :: p, i => by
    have ih := nextSibling_snoc (k :: p) i
    rw [List.cons_append] at ih
    rw [List.cons_append, List.cons_append, nextSibling, ih]
    rfl

theorem above?_succ (p : Position) : ∀ k, p.above? (k + 1) = p.parent?.bind (above? · k)
  | 0 => by
    rw [above?, above?, Option.bind_some]
    cases p.parent? <;> rfl
  | k + 1 => by
    rw [above?, above?_succ p k, Option.bind_assoc]
    rfl

theorem above?_snoc {p : Position} (hp : p ≠ []) (i k : Nat) :
    above? (p ++ [i]) (k + 1) = p.above? k := by
  rw [above?_succ, parent?_snoc i hp, Option.bind_some]

theorem precedes_append (p : Position) {q r : Position} :
    Precedes (p ++ q) (p ++ r) ↔ q.Precedes r := by
  induction p with
  | nil => rfl
  | cons i p ih =>
    rw [List.cons_append, List.cons_append, cons_precedes]
    simp [ih]

/-- After one of the children of a block come its later siblings and what is after the block. -/
theorem after_snoc : ∀ {p q : Position} {i : Nat},
    q.After (p ++ [i]) ↔ (∃ j, i < j ∧ p ++ [j] <+: q) ∨ q.After p
  | [], [], i => by simp [After, Precedes]
  | [], j :: q, i => by
    simp only [After, List.nil_append, cons_precedes, nil_precedes, List.cons_prefix_cons,
      List.nil_prefix, not_true_eq_false, and_false, or_false, and_true]
    constructor
    · rintro ⟨h | h, hne⟩
      · exact ⟨j, h, rfl⟩
      · exact absurd h hne
    · rintro ⟨k, hk, rfl⟩
      exact ⟨.inl hk, by omega⟩
  | _ :: p, [], i => by simp [After, Precedes]
  | k :: p, j :: q, i => by
    have ih := after_snoc (p := p) (q := q) (i := i)
    simp only [After] at ih ⊢
    simp only [List.cons_append, cons_precedes, List.cons_prefix_cons]
    constructor
    · rintro ⟨h | ⟨rfl, h⟩, hne⟩
      · exact .inr ⟨.inl h, by omega⟩
      · rcases ih.mp ⟨h, fun hpre => hne ⟨rfl, hpre⟩⟩ with ⟨m, hm, hpre⟩ | ⟨h, hpre⟩
        · exact .inl ⟨m, hm, rfl, hpre⟩
        · exact .inr ⟨.inr ⟨rfl, h⟩, fun hc => hpre hc.2⟩
    · rintro (⟨m, hm, rfl, hpre⟩ | ⟨h | ⟨rfl, h⟩, hne⟩)
      · obtain ⟨h, hout⟩ := ih.mpr (.inl ⟨m, hm, hpre⟩)
        exact ⟨.inr ⟨rfl, h⟩, fun hc => hout hc.2⟩
      · exact ⟨.inl h, by omega⟩
      · obtain ⟨h, hout⟩ := ih.mpr (.inr ⟨h, fun hpre => hne ⟨rfl, hpre⟩⟩)
        exact ⟨.inr ⟨rfl, h⟩, fun hc => hout hc.2⟩

theorem After.below {p q : Position} (h : q.After p) (r : Position) : Precedes (p ++ r) q := by
  induction p generalizing q with
  | nil => exact absurd (List.nil_prefix) h.2
  | cons i p ih =>
    cases q with
    | nil => exact h.1.elim
    | cons j q =>
      obtain ⟨hlt | ⟨rfl, hpq⟩, hout⟩ := h
      · exact .inl hlt
      · exact .inr ⟨rfl, ih ⟨hpq, fun hpre => hout ((List.prefix_cons_inj i).mpr hpre)⟩⟩

end Position

/-! ## Climbing -/

section
variable {steps : List (Step κ)} {p q : Position} {a : Advance}

theorem isStep_of_block {kind : BlockKind} (h : IsBlock steps kind p) : IsStep steps p := by
  obtain ⟨condition, children, complete, h⟩ := h
  exact ⟨_, h⟩

theorem IsStep.ne_nil (h : IsStep steps p) : p ≠ [] := by
  obtain ⟨step, h⟩ := h
  exact resolve?_ne_nil h

theorem isBlock_kind {kind kind' : BlockKind} (h : IsBlock steps kind p)
    (h' : IsBlock steps kind' p) : kind = kind' := by
  obtain ⟨_, _, _, h⟩ := h
  obtain ⟨_, _, _, h'⟩ := h'
  cases h.symm.trans h'
  rfl

theorem isStep_snoc {body : List (Step κ)} (hb : bodyAt? steps p = some body) (i : Nat) :
    IsStep steps (p ++ [i]) ↔ i < body.length := by
  unfold IsStep
  rw [resolve?_snoc, hb, Option.bind_some, ← Option.isSome_iff_exists]
  simp

theorem isBlock_of_inside (h : IsStep steps p) (hq : q ≠ []) (hin : p.Inside q) :
    ∃ kind, IsBlock steps kind q := by
  obtain ⟨⟨r, rfl⟩, hne⟩ := hin
  rcases List.eq_nil_or_concat r with rfl | ⟨r, i, rfl⟩
  · exact absurd (List.append_nil q).symm hne
  · obtain ⟨step, h⟩ := h
    rw [List.concat_eq_append, ← List.append_assoc, resolve?_snoc, bodyAt?_append] at h
    obtain ⟨body, hbody, -⟩ := Option.bind_eq_some_iff.mp h
    obtain ⟨children, hchildren, -⟩ := Option.bind_eq_some_iff.mp hbody
    obtain ⟨kind, condition, complete, hblock⟩ := block_of_bodyAt? hchildren hq
    exact ⟨kind, condition, children, complete, hblock⟩

theorem isStep_of_append {r : Position} (h : IsStep steps (p ++ r)) (hp : p ≠ []) :
    IsStep steps p := by
  by_cases hr : r = []
  · rwa [hr, List.append_nil] at h
  · have hin : Inside (p ++ r) p := ⟨List.prefix_append p r, by simpa using hr⟩
    obtain ⟨kind, hb⟩ := isBlock_of_inside h hp hin
    exact isStep_of_block hb

theorem IsStep.lt {body : List (Step κ)} (h : IsStep steps q) (hb : bodyAt? steps p = some body)
    {j : Nat} (hpre : p ++ [j] <+: q) : j < body.length := by
  obtain ⟨r, rfl⟩ := hpre
  exact (isStep_snoc hb j).mp (isStep_of_append h (by simp))

theorem after_of_last {body : List (Step κ)} {i : Nat} (hb : bodyAt? steps p = some body)
    (hi : i + 1 = body.length) (h : IsStep steps q) (ha : q.After (p ++ [i])) : q.After p := by
  rcases after_snoc.mp ha with ⟨j, hj, hpre⟩ | ha
  · have hlt := h.lt hb hpre
    omega
  · exact ha

theorem Advances.outside (h : Advances steps p a) : ¬ p <+: a.next := by
  induction h with
  | @sibling p _ i =>
    intro hpre
    have he := hpre.eq_of_length (by simp)
    simp at he
  | @past i =>
    intro hpre
    have he := hpre.eq_of_length rfl
    simp at he
  | @again p _ _ _ i =>
    intro hpre
    have hle : (p ++ [i]).length ≤ p.length := hpre.length_le
    rw [List.length_append, List.length_singleton] at hle
    omega
  | leave _ _ _ ih => exact fun hpre => ih ((List.prefix_append _ _).trans hpre)

theorem Advances.onward (h : Advances steps p a) : Onward steps p a.next := by
  induction h with
  | @sibling p body i hb hi =>
    refine .on ((isStep_snoc hb (i + 1)).mpr hi) (after_snoc.mpr (.inl ⟨i + 1, by omega, ?_⟩))
      (fun r hr ha => ?_) (fun w hw hin => ?_)
    · exact List.prefix_rfl
    · rcases after_snoc.mp ha with ⟨j, hj, s, rfl⟩ | ha
      · rw [List.append_assoc, precedes_append]
        exact (Nat.lt_or_eq_of_le hj).imp_right fun he => ⟨he, nil_precedes s⟩
      · exact ha.below _
    · rwa [inside_snoc] at hin ⊢
  | @past i hi =>
    have hb : bodyAt? steps [] = some steps := rfl
    rw [hi]
    refine .ends (fun w hw hin => ?_) (fun r hr ha => ?_)
    · have hne := (isStep_of_block hw).ne_nil
      rcases (inside_snoc [] w i).mp hin with rfl | hin
      · exact hne rfl
      · exact hne (List.prefix_nil.mp hin.1)
    · exact (after_of_last hb hi hr ha).2 (List.nil_prefix)
  | @again p condition body complete i hp hi =>
    have hb := bodyAt?_of_block hp
    refine .back ⟨_, _, _, hp⟩ ((inside_snoc p p i).mpr (.inl rfl)) (fun w hw hin => ?_)
      (fun r hr hin ha => ?_)
    · exact (inside_snoc p w i).mp hin
    · exact (after_of_last hb hi hr ha).2 hin.1
  | @leave p condition body complete i a hp hi _ ih =>
    have hb := bodyAt?_of_block hp
    have hloop : ∀ w, IsBlock steps .loop w → Inside (p ++ [i]) w → p.Inside w := by
      intro w hw hin
      rcases (inside_snoc p w i).mp hin with rfl | hin
      · cases isBlock_kind hw ⟨_, _, _, hp⟩
      · exact hin
    change Onward steps (p ++ [i]) a.next
    generalize a.next = next at ih ⊢
    cases ih with
    | on hs ha first within =>
      refine .on hs (after_snoc.mpr (.inr ha)) (fun r hr hra => ?_) fun w hw hin => ?_
      · exact first r hr (after_of_last hb hi hr hra)
      · exact within w hw (hloop w hw hin)
    | back hl hin innermost rest =>
      refine .back hl ((inside_snoc _ _ _).mpr (.inr hin)) (fun w hw hwin => ?_)
        fun r hr hrin hra => ?_
      · exact innermost w hw (hloop w hw hwin)
      · exact rest r hr hrin (after_of_last hb hi hr hra)
    | ends loops rest =>
      refine .ends (fun w hw hin => ?_) fun r hr hra => ?_
      · exact loops w hw (hloop w hw hin)
      · exact rest r hr (after_of_last hb hi hr hra)

theorem snoc_inj {r : Position} {i j : Nat} (h : r ++ [i] = q ++ [j]) : r = q ∧ i = j := by
  obtain ⟨hr, hi⟩ := List.append_inj' h rfl
  exact ⟨hr, (List.cons.inj hi).1⟩

theorem Advances.siblings (h : Advances steps p a) : ∀ r i, r ++ [i] ∈ p :: a.exited →
    (IsStep steps (r ++ [i + 1]) → a.next = r ++ [i + 1]) ∧
      ∀ j, a.next = r ++ [j] → j = i + 1 := by
  induction h with
  | @sibling p body i =>
    intro r k hmem
    obtain ⟨rfl, rfl⟩ := snoc_inj (List.mem_singleton.mp hmem)
    exact ⟨fun _ => rfl, fun j hj => (snoc_inj hj).2.symm⟩
  | @past i =>
    intro r k hmem
    obtain ⟨rfl, rfl⟩ := snoc_inj (q := []) (List.mem_singleton.mp hmem)
    exact ⟨fun _ => rfl, fun j hj => (snoc_inj (r := []) hj).2.symm⟩
  | @again p condition body complete i hp hi =>
    intro r k hmem
    obtain ⟨rfl, rfl⟩ := snoc_inj (List.mem_singleton.mp hmem)
    refine ⟨fun hs => ?_, fun j hj => ?_⟩
    · have hlt := (isStep_snoc (bodyAt?_of_block hp) (k + 1)).mp hs
      omega
    · exact absurd (congrArg List.length hj) (by simp)
  | @leave p condition body complete i a hp hi ha ih =>
    intro r k hmem
    rcases List.mem_cons.mp hmem with he | hmem
    · obtain ⟨rfl, rfl⟩ := snoc_inj he
      refine ⟨fun hs => ?_, fun j hj => ?_⟩
      · have hlt := (isStep_snoc (bodyAt?_of_block hp) (k + 1)).mp hs
        omega
      · exact absurd (hj ▸ List.prefix_append r [j]) ha.outside
    · exact ih r k hmem

theorem not_halts {body : List (Step κ)} {condition : κ} {complete : Option κ} {i : Nat}
    (hp : resolve? steps p = some (.block .branch condition body complete))
    (hi : i + 1 = body.length) : ¬ Halts steps (p ++ [i]) := by
  have hne := resolve?_ne_nil hp
  rintro (hs | ⟨w, hw, hl⟩ | hnone)
  · rw [nextSibling_snoc, isStep_snoc (bodyAt?_of_block hp)] at hs
    omega
  · rw [parent?_snoc i hne, Option.some.injEq] at hw
    subst hw
    cases isBlock_kind hl ⟨_, _, _, hp⟩
  · rw [parent?_snoc i hne] at hnone
    cases hnone

theorem isLeast_zero (h : Halts steps p) :
    IsLeast {k | ∃ q, p.above? k = some q ∧ Halts steps q} 0 :=
  ⟨⟨p, rfl, h⟩, fun _ _ => Nat.zero_le _⟩

theorem Advances.climbs (h : Advances steps p a) : ∃ k top,
    IsLeast {k | ∃ q, p.above? k = some q ∧ Halts steps q} k ∧ p.above? k = some top ∧
      a.exited.map some = (List.range' 1 k).map p.above? ∧ Turns steps top a.next := by
  induction h with
  | @sibling p body i hb hi =>
    have hs : IsStep steps (nextSibling (p ++ [i])) := by
      rw [nextSibling_snoc, isStep_snoc hb]
      exact hi
    have ht := Turns.sibling hs
    rw [nextSibling_snoc] at ht
    exact ⟨0, _, isLeast_zero (.inl hs), rfl, rfl, ht⟩
  | @past i hi =>
    have hs : ¬ IsStep steps (nextSibling [i]) := by
      have hb : bodyAt? steps [] = some steps := rfl
      rw [nextSibling, ← List.nil_append [i + 1], isStep_snoc hb]
      omega
    have ht := Turns.past hs rfl
    rw [← hi] at ht
    exact ⟨0, _, isLeast_zero (.inr (.inr rfl)), rfl, rfl, ht⟩
  | @again p condition body complete i hp hi =>
    have hw := parent?_snoc i (resolve?_ne_nil hp)
    have hl : IsBlock steps .loop p := ⟨_, _, _, hp⟩
    have hs : ¬ IsStep steps (nextSibling (p ++ [i])) := by
      rw [nextSibling_snoc, isStep_snoc (bodyAt?_of_block hp)]
      omega
    exact ⟨0, _, isLeast_zero (.inr (.inl ⟨p, hw, hl⟩)), rfl, rfl, .loop hs hw hl⟩
  | @leave p condition body complete i a hp hi _ ih =>
    obtain ⟨k, top, ⟨⟨q, hq, hhalts⟩, hmin⟩, htop, hexited, ht⟩ := ih
    have hne := resolve?_ne_nil hp
    refine ⟨k + 1, top, ⟨⟨q, ?_, hhalts⟩, ?_⟩, ?_, ?_, ht⟩
    · rw [above?_snoc hne, hq]
    · rintro (_ | j) ⟨r, hr, hrhalts⟩
      · cases hr
        exact absurd hrhalts (not_halts hp hi)
      · rw [above?_snoc hne] at hr
        exact Nat.succ_le_succ (hmin ⟨r, hr, hrhalts⟩)
    · rw [above?_snoc hne, htop]
    · have hshift : (List.range' 2 k).map (above? (p ++ [i])) = (List.range' 1 k).map p.above? := by
        rw [← List.map_add_range' (a := 1) 1 k 1, List.map_map]
        refine List.map_congr_left fun j _ => ?_
        rw [Function.comp_apply, Nat.add_comm, above?_snoc hne]
      rw [List.range'_succ, List.map_cons, List.map_cons, above?_snoc hne, hexited, hshift]
      rfl

theorem Advances.exact (h : Advances steps p a) : a.Exact steps p :=
  ⟨h.climbs, h.exited_branch, h.onward, h.outside, h.siblings⟩

end

/-- **Going on.** From any step, control climbs as far as it must and no further, leaves the
branches on the way, and goes on at the next step in document order or back at the innermost
loop. -/
theorem advance_exact {steps : List (Step κ)} {p : Position} {step : Step κ}
    (h : resolve? steps p = some step) : (advance steps p).Exact steps p :=
  (advance_advances h).exact

/-- An empty branch at the end of a branch at the end of a loop. -/
theorem exact_in_loop :
    let steps : List (Step Unit) := [.block .loop () [.input ⟨"pet", [], none⟩,
      .block .branch () [.input ⟨"toy", [], none⟩, .block .branch () [] none] none] none]
    (∃ step, resolve? steps [0, 1, 1] = some step) ∧
      advance steps [0, 1, 1] = ⟨[0], [[0, 1]]⟩ ∧ (advance steps [0, 1, 1]).Exact steps [0, 1, 1] :=
  ⟨⟨_, rfl⟩, by decide, advance_exact rfl⟩

end Dialogue
