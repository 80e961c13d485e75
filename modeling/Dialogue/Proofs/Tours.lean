import Dialogue.Proofs.Onward
import Mathlib.Data.List.Sort

/-!
# Tours

A tour goes through a script without its callbacks. Which blocks it enters is a choice made
beforehand, and a loop is entered when it is met for the first time or not at all. So every tour
ends, past the last step of the script, and on its way it visits the leaves that lie in chosen
blocks only, each of them once and in document order.
-/

namespace Dialogue

variable {κ : Type}

open Position

/-! ## Leaves in chosen blocks -/

mutual

def Step.leaves (chosen : Position → Bool) (p : Position) : Step κ → List Position
  | .output _ => [p]
  | .input _ => [p]
  | .block _ _ children _ => if chosen p then leavesFrom chosen p 0 children else []

def leavesFrom (chosen : Position → Bool) (p : Position) (i : Nat) : List (Step κ) → List Position
  | [] => []
  | step :: steps => step.leaves chosen (p.child i) ++ leavesFrom chosen p (i + 1) steps

end

def IsLeaf (steps : List (Step κ)) (p : Position) : Prop :=
  ∃ step, resolve? steps p = some step ∧ step.children? = none

/-- The leaf at `p`, which is below `q`, lies in chosen blocks only as far out as `q`. -/
structure Admitted (steps : List (Step κ)) (chosen : Position → Bool) (q p : Position) : Prop where
  below : q <+: p
  leaf : IsLeaf steps p
  within : ∀ kind r, IsBlock steps kind r → q <+: r → p.Inside r → chosen r = true

def Position.Before (p q : Position) : Prop := p.Precedes q ∧ p ≠ q

instance : Std.Irrefl Position.Before := ⟨fun _ h => h.2 rfl⟩

instance : Std.Antisymm Position.Before := ⟨fun _ _ h h' => h.1.antisymm h'.1⟩

/-- All leaves that lie in chosen blocks only, in document order. -/
structure Selection (steps : List (Step κ)) (chosen : Position → Bool) (leaves : List Position) :
    Prop where
  mem : ∀ p, p ∈ leaves ↔ IsLeaf steps p ∧
    ∀ kind q, IsBlock steps kind q → p.Inside q → chosen q = true
  ordered : leaves.Pairwise Position.Before

theorem Selection.unique {steps : List (Step κ)} {chosen : Position → Bool} {a b : List Position}
    (ha : Selection steps chosen a) (hb : Selection steps chosen b) : a = b := by
  apply ha.ordered.eq_of_mem_iff hb.ordered
  intro p
  rw [ha.mem, hb.mem]

section
variable {steps : List (Step κ)} {chosen : Position → Bool} {p q : Position}

theorem IsLeaf.isStep (h : IsLeaf steps p) : IsStep steps p := by
  obtain ⟨step, h, -⟩ := h
  exact ⟨step, h⟩

theorem IsLeaf.not_block (h : IsLeaf steps p) (kind : BlockKind) : ¬ IsBlock steps kind p := by
  rintro ⟨condition, children, complete, hb⟩
  obtain ⟨step, hs, hc⟩ := h
  cases hb.symm.trans hs
  cases hc

theorem admitted_leaf {step : Step κ} (h : resolve? steps q = some step)
    (hl : step.children? = none) : Admitted steps chosen q p ↔ p = q := by
  have hleaf : IsLeaf steps q := ⟨step, h, hl⟩
  constructor
  · intro ha
    by_cases hne : q = p
    · exact hne.symm
    · obtain ⟨kind, hb⟩ := isBlock_of_inside ha.leaf.isStep hleaf.isStep.ne_nil ⟨ha.below, hne⟩
      exact absurd hb (hleaf.not_block kind)
  · rintro rfl
    refine ⟨List.prefix_rfl, hleaf, fun kind r _ hpre hin => ?_⟩
    exact absurd (hpre.eq_of_length_le hin.1.length_le).symm hin.2

theorem admitted_block {kind : BlockKind} (h : IsBlock steps kind q) :
    Admitted steps chosen q p ↔ chosen q = true ∧ ∃ i, Admitted steps chosen (q ++ [i]) p := by
  constructor
  · intro ha
    have hne : q ≠ p := by
      rintro rfl
      exact ha.leaf.not_block kind h
    obtain ⟨r, rfl⟩ := ha.below
    cases r with
    | nil => exact absurd (List.append_nil q).symm hne
    | cons i r =>
      refine ⟨ha.within kind q h List.prefix_rfl ⟨ha.below, hne⟩, i, ⟨r, by simp⟩, ha.leaf, ?_⟩
      intro kind' s hs hpre hin
      exact ha.within kind' s hs ((List.prefix_append q [i]).trans hpre) hin
  · rintro ⟨hq, i, ha⟩
    refine ⟨(List.prefix_append q [i]).trans ha.below, ha.leaf, fun kind' s hs hpre hin => ?_⟩
    by_cases he : q = s
    · rw [← he]
      exact hq
    · have hlt := Inside.length_lt ⟨hpre, he⟩
      apply ha.within kind' s hs _ hin
      apply List.prefix_of_prefix_length_le ha.below hin.1
      simpa using Nat.succ_le_of_lt hlt

/-! ## The recursion over the tree -/

mutual

theorem mem_leaves : ∀ (step : Step κ) {q : Position}, resolve? steps q = some step →
    (p ∈ step.leaves chosen q ↔ Admitted steps chosen q p)
  | .output o, q, h => by
    rw [admitted_leaf h rfl, Step.leaves, List.mem_singleton]
  | .input i, q, h => by
    rw [admitted_leaf h rfl, Step.leaves, List.mem_singleton]
  | .block kind condition children complete, q, h => by
    have ih := mem_leavesFrom children (bodyAt?_of_block h) (List.drop_zero)
    rw [admitted_block ⟨condition, children, complete, h⟩, Step.leaves]
    by_cases hc : chosen q = true
    · rw [if_pos hc, ih]
      simp [hc]
    · simp [hc]

theorem mem_leavesFrom : ∀ (rest : List (Step κ)) {q : Position} {i : Nat} {body : List (Step κ)},
    bodyAt? steps q = some body → body.drop i = rest →
      (p ∈ leavesFrom chosen q i rest ↔ ∃ j, i ≤ j ∧ Admitted steps chosen (q ++ [j]) p)
  | [], q, i, body, hb, hd => by
    have hlen : body.length ≤ i := List.drop_eq_nil_iff.mp hd
    constructor
    · intro h
      cases h
    · rintro ⟨j, hj, ha⟩
      have hlt := ha.leaf.isStep.lt hb ha.below
      omega
  | step :: rest, q, i, body, hb, hd => by
    obtain ⟨hs, hrest, -⟩ := step_of_drop hb hd
    rw [leavesFrom, List.mem_append, mem_leavesFrom rest hb hrest, Position.child,
      mem_leaves step hs]
    constructor
    · rintro (ha | ⟨j, hj, ha⟩)
      · exact ⟨i, Nat.le_refl i, ha⟩
      · exact ⟨j, by omega, ha⟩
    · rintro ⟨j, hj, ha⟩
      rcases Nat.lt_or_eq_of_le hj with hj | rfl
      · exact .inr ⟨j, hj, ha⟩
      · exact .inl ha

end

theorem before_of_siblings {i j : Nat} (hi : q ++ [i] <+: p) {r : Position} (hj : q ++ [j] <+: r)
    (hij : i < j) : p.Before r := by
  obtain ⟨a, rfl⟩ := hi
  obtain ⟨b, rfl⟩ := hj
  rw [List.append_assoc, List.append_assoc]
  refine ⟨precedes_append q |>.mpr (.inl hij), fun he => ?_⟩
  cases List.append_cancel_left he
  omega

mutual

theorem leaves_ordered : ∀ (step : Step κ) {q : Position}, resolve? steps q = some step →
    (step.leaves chosen q).Pairwise Position.Before
  | .output _, q, _ => List.pairwise_singleton _ q
  | .input _, q, _ => List.pairwise_singleton _ q
  | .block kind condition children complete, q, h => by
    have ih := leavesFrom_ordered children (bodyAt?_of_block h) (List.drop_zero)
    rw [Step.leaves]
    split
    · exact ih
    · exact List.Pairwise.nil

theorem leavesFrom_ordered : ∀ (rest : List (Step κ)) {q : Position} {i : Nat}
    {body : List (Step κ)}, bodyAt? steps q = some body → body.drop i = rest →
      (leavesFrom chosen q i rest).Pairwise Position.Before
  | [], _, _, _, _, _ => List.Pairwise.nil
  | step :: rest, q, i, body, hb, hd => by
    obtain ⟨hs, hrest, -⟩ := step_of_drop hb hd
    rw [leavesFrom, List.pairwise_append]
    refine ⟨leaves_ordered step hs, leavesFrom_ordered rest hb hrest, fun p hp r hr => ?_⟩
    obtain ⟨j, hj, hr⟩ := (mem_leavesFrom rest hb hrest).mp hr
    exact before_of_siblings ((mem_leaves step hs).mp hp).below hr.below hj

end

theorem selection_leavesFrom (steps : List (Step κ)) (chosen : Position → Bool) :
    Selection steps chosen (leavesFrom chosen [] 0 steps) := by
  have hb : bodyAt? steps [] = some steps := rfl
  refine ⟨fun p => ?_, leavesFrom_ordered steps hb List.drop_zero⟩
  rw [mem_leavesFrom steps hb List.drop_zero]
  constructor
  · rintro ⟨i, -, ha⟩
    refine ⟨ha.leaf, fun kind q hq hin => ?_⟩
    apply ha.within kind q hq _ hin
    apply List.prefix_of_prefix_length_le ha.below hin.1
    exact List.length_pos_iff.mpr (isStep_of_block hq).ne_nil
  · rintro ⟨hleaf, hwithin⟩
    obtain ⟨i, r, rfl⟩ := List.exists_cons_of_ne_nil hleaf.isStep.ne_nil
    exact ⟨i, Nat.zero_le i, ⟨r, rfl⟩, hleaf, fun kind q hq _ hin => hwithin kind q hq hin⟩

end

/-! ## Moves of a tour -/

structure Tour where
  position : Position
  -- the blocks met so far
  met : List Position
  -- the leaves visited so far, in order
  visited : List Position

namespace Tour

def start : Tour := ⟨.start, [], []⟩

/-- A block is entered if it is chosen, and a loop only when it is met for the first time. -/
def enters (chosen : Position → Bool) (t : Tour) : BlockKind → Bool
  | .branch => chosen t.position
  | .loop => chosen t.position && !t.met.contains t.position

def move? (steps : List (Step κ)) (chosen : Position → Bool) (t : Tour) : Option Tour :=
  let past := (advance steps t.position).next
  match lookup steps t.position with
  | none => none
  | some (.block kind _ _ _) =>
    some
      { t with
        position := if t.enters chosen kind then t.position.descend else past
        met := t.position :: t.met }
  | some _ => some { t with position := past, visited := t.visited ++ [t.position] }

def run (steps : List (Step κ)) (chosen : Position → Bool) : (budget : Nat) → Tour → Option Tour
  | budget, t =>
    match t.move? steps chosen, budget with
    | none, _ => some t
    | some _, 0 => none
    | some later, budget + 1 => run steps chosen budget later

/-- With some moves more to make, the tour ends as it does from the later point. -/
def Leads (steps : List (Step κ)) (chosen : Position → Bool) (t later : Tour) : Prop :=
  ∃ moves, ∀ budget, t.run steps chosen (budget + moves) = later.run steps chosen budget

/-- The tour goes on to a position with these leaves on its way, and all blocks that it meets are
below `q`. -/
def Covers (steps : List (Step κ)) (chosen : Position → Bool) (q : Position) (t : Tour)
    (leaves : List Position) (next : Position) : Prop :=
  ∃ met, t.Leads steps chosen ⟨next, met, t.visited ++ leaves⟩ ∧ t.met ⊆ met ∧
    ∀ r ∈ met, r ∈ t.met ∨ q <+: r

section
variable {steps : List (Step κ)} {chosen : Position → Bool} {t later : Tour} {p q : Position}

theorem run_end (h : t.move? steps chosen = none) (budget : Nat) :
    t.run steps chosen budget = some t := by
  unfold run
  rw [h]

theorem run_move (h : t.move? steps chosen = some later) (budget : Nat) :
    t.run steps chosen (budget + 1) = later.run steps chosen budget := by
  conv => lhs; unfold run
  rw [h]

theorem Leads.refl (t : Tour) : t.Leads steps chosen t := ⟨0, fun _ => rfl⟩

theorem leads_move (h : t.move? steps chosen = some later) : t.Leads steps chosen later :=
  ⟨1, fun budget => run_move h budget⟩

theorem Leads.trans {last : Tour} (h : t.Leads steps chosen later)
    (h' : later.Leads steps chosen last) : t.Leads steps chosen last := by
  obtain ⟨m, hm⟩ := h
  obtain ⟨n, hn⟩ := h'
  refine ⟨n + m, fun budget => ?_⟩
  rw [← Nat.add_assoc, hm, hn]

theorem Covers.mono {leaves : List Position} {next r : Position}
    (h : t.Covers steps chosen q leaves next) (hr : r <+: q) :
    t.Covers steps chosen r leaves next := by
  obtain ⟨met, hl, hsub, hmet⟩ := h
  exact ⟨met, hl, hsub, fun s hs => (hmet s hs).imp_right hr.trans⟩

theorem Covers.trans {r : Position} {a b : List Position} {next : Position}
    (h : t.Covers steps chosen r a p) (hq : q <+: r)
    (h' : ∀ met, t.met ⊆ met → (∀ s ∈ met, s ∈ t.met ∨ r <+: s) →
      Covers steps chosen q ⟨p, met, t.visited ++ a⟩ b next) :
    t.Covers steps chosen q (a ++ b) next := by
  obtain ⟨met, hl, hsub, hmet⟩ := h
  obtain ⟨met', hl', hsub', hmet'⟩ := h' met hsub hmet
  rw [List.append_assoc] at hl'
  refine ⟨met', hl.trans hl', List.Subset.trans hsub hsub', fun s hs => ?_⟩
  rcases hmet' s hs with hs | hs
  · exact (hmet s hs).imp_right hq.trans
  · exact .inr hs

theorem covers_leaf {step : Step κ} (h : resolve? steps p = some step)
    (hl : step.children? = none) (met visited : List Position) :
    Covers steps chosen p ⟨p, met, visited⟩ [p] (advance steps p).next := by
  refine ⟨met, leads_move ?_, List.Subset.refl met, fun r hr => .inl hr⟩
  unfold move?
  rw [lookup_of_resolve? h]
  cases step with
  | block kind condition children complete => cases hl
  | _ => rfl

theorem move_block {kind : BlockKind} (h : IsBlock steps kind p) (met visited : List Position) :
    move? steps chosen ⟨p, met, visited⟩ =
      some ⟨if enters chosen ⟨p, met, visited⟩ kind then p.descend else (advance steps p).next,
        p :: met, visited⟩ := by
  obtain ⟨condition, children, complete, h⟩ := h
  unfold move?
  rw [lookup_of_resolve? h]

theorem covers_past {kind : BlockKind} {met visited : List Position} (h : IsBlock steps kind p)
    (he : enters chosen ⟨p, met, visited⟩ kind = false) :
    Covers steps chosen p ⟨p, met, visited⟩ [] (advance steps p).next := by
  refine ⟨p :: met, leads_move ?_, List.subset_cons_self p met, fun r hr => ?_⟩
  · rw [move_block h, he, List.append_nil]
    rfl
  · rcases List.mem_cons.mp hr with rfl | hr
    · exact .inr List.prefix_rfl
    · exact .inl hr

theorem covers_inside {kind : BlockKind} {met visited leaves : List Position} {next : Position}
    (h : IsBlock steps kind p) (he : enters chosen ⟨p, met, visited⟩ kind = true)
    (hb : Covers steps chosen p ⟨p.descend, p :: met, visited⟩ leaves next) :
    Covers steps chosen p ⟨p, met, visited⟩ leaves next := by
  have hmove : move? steps chosen ⟨p, met, visited⟩ = some ⟨p.descend, p :: met, visited⟩ := by
    rw [move_block h, he]
    rfl
  obtain ⟨met', hl, hsub, hmet⟩ := hb
  refine ⟨met', (leads_move hmove).trans hl, fun r hr => hsub (List.mem_cons_of_mem p hr), ?_⟩
  intro r hr
  rcases hmet r hr with hr | hr
  · rcases List.mem_cons.mp hr with rfl | hr
    · exact .inr List.prefix_rfl
    · exact .inl hr
  · exact .inr hr

theorem enters_first {kind : BlockKind} {met visited : List Position} (hm : p ∉ met) :
    enters chosen ⟨p, met, visited⟩ kind = chosen p := by
  cases kind with
  | branch => rfl
  | loop => simp [enters, hm]

theorem enters_again {met visited : List Position} (hm : p ∈ met) :
    enters chosen ⟨p, met, visited⟩ .loop = false := by
  simp [enters, hm]

end

/-! ## From one end of a step to the other -/

section
variable {script : Script κ} {chosen : Position → Bool}

/-- From the beginning of a body the tour comes to the end of its block, for a loop by way of the
loop itself. -/
theorem covers_body {kind : BlockKind} {condition : κ} {children : List (Step κ)}
    {complete : Option κ} {p : Position}
    (h : resolve? script.steps p = some (.block kind condition children complete))
    {t : Tour} {leaves : List Position} (hm : p ∈ t.met)
    (hb : t.Covers script.steps chosen p leaves
      (advance script.steps (p ++ [children.length - 1])).next) :
    t.Covers script.steps chosen p leaves (advance script.steps p).next := by
  cases kind with
  | branch =>
    rw [advance_end h (by omega)] at hb
    exact hb
  | loop =>
    rw [advance_end h (by omega)] at hb
    rw [← List.append_nil leaves]
    apply hb.trans List.prefix_rfl
    intro met hsub _
    exact covers_past ⟨condition, children, complete, h⟩ (enters_again (hsub hm))

mutual

/-- The blocks that have been met may be anywhere but in the step. -/
theorem covers_step : ∀ (step : Step κ) {p : Position}, resolve? script.steps p = some step →
    ∀ {met : List Position} (visited : List Position), (∀ r ∈ met, ¬ p <+: r) →
      Covers script.steps chosen p ⟨p, met, visited⟩ (step.leaves chosen p)
        (advance script.steps p).next
  | .output o, p, h, met, visited, _ => covers_leaf h rfl met visited
  | .input i, p, h, met, visited, _ => covers_leaf h rfl met visited
  | .block kind condition children complete, p, h, met, visited, hmet => by
    have hfirst : p ∉ met := fun hp => hmet p hp List.prefix_rfl
    have hblock : IsBlock script.steps kind p := ⟨condition, children, complete, h⟩
    rw [Step.leaves]
    by_cases hc : chosen p = true
    · rw [if_pos hc]
      apply covers_inside hblock ((enters_first hfirst).trans hc)
      apply covers_body h List.mem_cons_self
      apply covers_rest children (bodyAt?_of_block h) List.drop_zero (script.block_nonempty h)
      intro r hr j _ hpre
      rcases List.mem_cons.mp hr with rfl | hr
      · have hle := hpre.length_le
        rw [List.length_append, List.length_singleton] at hle
        omega
      · exact hmet r hr ((List.prefix_append p [j]).trans hpre)
    · rw [if_neg hc]
      apply covers_past hblock
      rw [enters_first hfirst]
      exact Bool.eq_false_iff.mpr hc

theorem covers_rest : ∀ (rest : List (Step κ)) {q : Position} {i : Nat} {body : List (Step κ)},
    bodyAt? script.steps q = some body → body.drop i = rest → rest ≠ [] →
      ∀ {met : List Position} (visited : List Position),
        (∀ r ∈ met, ∀ j, i ≤ j → ¬ q ++ [j] <+: r) →
          Covers script.steps chosen q ⟨q ++ [i], met, visited⟩ (leavesFrom chosen q i rest)
            (advance script.steps (q ++ [body.length - 1])).next
  | [], _, _, _, _, _, hne, _, _, _ => absurd rfl hne
  | step :: rest, q, i, body, hb, hd, _, met, visited, hmet => by
    obtain ⟨hs, hrest, hlen⟩ := step_of_drop hb hd
    have hstep := covers_step step hs visited fun r hr => hmet r hr i (Nat.le_refl i)
    have hpre : q <+: q ++ [i] := List.prefix_append q [i]
    rw [leavesFrom]
    cases hrs : rest with
    | nil =>
      rw [hrs, List.length_nil, Nat.add_zero] at hlen
      rw [leavesFrom, List.append_nil, hlen, Nat.add_sub_cancel]
      exact hstep.mono hpre
    | cons other others =>
      have hlt : i + 1 < body.length := by
        rw [hlen, hrs, List.length_cons]
        omega
      rw [advance_sibling hb hlt] at hstep
      rw [← hrs]
      apply hstep.trans hpre
      intro met' _ hmet'
      apply covers_rest rest hb hrest (by simp [hrs])
      intro r hr j hj hrj
      rcases hmet' r hr with hr | hr
      · exact hmet r hr j (by omega) hrj
      · -- the loops of this step are not those of a later one
        have he := (List.prefix_of_prefix_length_le hr hrj (by simp)).eq_of_length (by simp)
        obtain ⟨-, rfl⟩ := snoc_inj he
        omega

end

theorem leads_end (script : Script κ) (chosen : Position → Bool) :
    ∃ met, start.Leads script.steps chosen
      ⟨[script.steps.length], met, leavesFrom chosen [] 0 script.steps⟩ := by
  by_cases hne : script.steps = []
  · refine ⟨[], ?_⟩
    rw [hne]
    exact .refl start
  · have hb : bodyAt? script.steps [] = some script.steps := rfl
    have hcovers : Covers script.steps chosen [] start (leavesFrom chosen [] 0 script.steps) _ :=
      covers_rest script.steps hb List.drop_zero hne [] (by simp)
    have hlen : script.steps.length - 1 + 1 = script.steps.length :=
      Nat.sub_add_cancel (List.length_pos_iff.mpr hne)
    rw [List.nil_append, advance_top, hlen] at hcovers
    obtain ⟨met, hl, -⟩ := hcovers
    exact ⟨met, hl⟩

end

end Tour

/-- **Tours.** Whatever blocks are chosen, a tour of a script comes to its end past the last step,
and it has visited the leaves that lie in chosen blocks only, each once and in document order. -/
theorem tour_visits_selection (script : Script κ) (chosen : Position → Bool) :
    ∃ moves t, (∀ budget, moves ≤ budget → Tour.start.run script.steps chosen budget = some t) ∧
      t.move? script.steps chosen = none ∧ t.position = [script.steps.length] ∧
      t.visited = leavesFrom chosen [] 0 script.steps ∧ t.visited.Nodup ∧
      ∀ leaves, Selection script.steps chosen leaves ↔ t.visited = leaves := by
  have hs := selection_leavesFrom script.steps chosen
  obtain ⟨met, moves, hl⟩ := Tour.leads_end script chosen
  have hend : Tour.move? script.steps chosen ⟨[script.steps.length], met, leavesFrom chosen [] 0
      script.steps⟩ = none := by
    simp [Tour.move?, lookup]
  refine ⟨moves, _, fun budget hb => ?_, hend, rfl, rfl, ?_, fun leaves => ?_⟩
  · obtain ⟨more, rfl⟩ := Nat.exists_eq_add_of_le' hb
    rw [hl, Tour.run_end hend]
  · exact hs.ordered.imp fun h => h.2
  · constructor
    · exact fun h => hs.unique h
    · rintro rfl
      exact hs

example : (Tour.start.run survey.steps (· ≠ [0, 1]) 4).map Tour.visited = some [[0, 0]] := by
  decide

end Dialogue
