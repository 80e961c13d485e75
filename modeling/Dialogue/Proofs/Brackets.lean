import Dialogue.Proofs.Chronicle
import Mathlib.Data.List.Chain

/-!
# Brackets

Blocks are entered and left like brackets. A block is entered when its condition holds, and its body
is finished when control goes on from the last step in it; in between, control is inside. The end of
a block is reached when its condition does not hold and, for a branch, when its body is finished.
The callback for the end of a step is called for once at each of its ends, the step's own before
those of the branches around it that end with it.
-/

namespace Dialogue

variable {κ : Type}

/-! ## Inside a block -/

namespace Position

def Inside (p q : Position) : Prop := q <+: p ∧ q ≠ p

instance (p q : Position) : Decidable (p.Inside q) := inferInstanceAs (Decidable (_ ∧ _))

theorem not_inside_self (p : Position) : ¬ p.Inside p := fun h => h.2 rfl

theorem Inside.length_lt {p q : Position} (h : p.Inside q) : q.length < p.length := by
  have hle := h.1.length_le
  have hne : q.length ≠ p.length := fun he => h.2 (h.1.eq_of_length he)
  omega

theorem inside_snoc (p q : Position) (i : Nat) : Inside (p ++ [i]) q ↔ q = p ∨ p.Inside q := by
  constructor
  · rintro ⟨hpre, hne⟩
    have hpre := (List.prefix_concat_iff.mp hpre).resolve_left hne
    by_cases hq : q = p
    · exact .inl hq
    · exact .inr ⟨hpre, hq⟩
  · rintro (rfl | h)
    · exact ⟨List.prefix_append q [i], by simp⟩
    · refine ⟨h.1.trans (List.prefix_append p [i]), fun he => ?_⟩
      have hlt := h.length_lt
      rw [he, List.length_append] at hlt
      omega

theorem parent?_snoc : ∀ {p : Position} (i : Nat), p ≠ [] → parent? (p ++ [i]) = some p
  | [], _, h => absurd rfl h
  | [_], _, _ => rfl
  | j :: k :: p, i, _ => by
    have ih := parent?_snoc (p := k :: p) i (List.cons_ne_nil _ _)
    rw [List.cons_append, List.cons_append, parent?, ← List.cons_append, ih]
    rfl

end Position

open Position

/-! ## Bodies that are finished -/

/-- The body of the block at `q` is finished when control goes on from `p`: a branch is left, and a
loop is met again from inside. -/
def Advance.Finishes (a : Advance) (kind : BlockKind) (p q : Position) : Prop :=
  match kind with
  | .branch => q ∈ a.exited
  | .loop => p.Inside q ∧ a.next = q

instance (a : Advance) (kind : BlockKind) (p q : Position) : Decidable (a.Finishes kind p q) :=
  match kind with
  | .branch => inferInstanceAs (Decidable (q ∈ a.exited))
  | .loop => inferInstanceAs (Decidable (p.Inside q ∧ a.next = q))

section
variable {steps : List (Step κ)} {p q : Position} {a : Advance}

theorem Advances.exited_inside (h : Advances steps p a) : ∀ q ∈ a.exited, p.Inside q := by
  induction h with
  | leave _ _ _ ih =>
    intro q hq
    rcases List.mem_cons.mp hq with rfl | hq
    · exact (inside_snoc _ _ _).mpr (.inl rfl)
    · exact (inside_snoc _ _ _).mpr (.inr (ih q hq))
  | _ => exact nofun

theorem Advances.exited_branch (h : Advances steps p a) : ∀ q ∈ a.exited,
    ∃ condition body complete,
      resolve? steps q = some (.block .branch condition body complete) := by
  induction h with
  | leave hp _ _ ih =>
    intro q hq
    rcases List.mem_cons.mp hq with rfl | hq
    · exact ⟨_, _, _, hp⟩
    · exact ih q hq
  | _ => exact nofun

theorem Advances.exited_nodup (h : Advances steps p a) : a.exited.Nodup := by
  induction h with
  | leave _ _ ha ih =>
    exact List.nodup_cons.mpr ⟨fun hp => not_inside_self _ (ha.exited_inside _ hp), ih⟩
  | _ => exact List.nodup_nil

/-- The branches that end are left from the innermost outwards. -/
theorem Advances.exited_chain (h : Advances steps p a) :
    (p :: a.exited).IsChain fun p q => p.parent? = some q := by
  induction h with
  | @leave p _ _ _ i _ hp _ _ ih =>
    exact List.isChain_cons_cons.mpr ⟨parent?_snoc i (nonempty_of_resolve? hp), ih⟩
  | _ => exact List.isChain_singleton _

/-- When no branch ends, only a loop that is met again from inside has its body finished. -/
theorem finishes_none {next : Position} {kind : BlockKind} :
    Advance.Finishes ⟨next, []⟩ kind p q ↔ kind = .loop ∧ p.Inside q ∧ next = q := by
  cases kind with
  | branch => simp [Advance.Finishes]
  | loop => simp [Advance.Finishes]

theorem finishes_leave {i : Nat} {kind : BlockKind} (hqp : q ≠ p) :
    Advance.Finishes ⟨a.next, p :: a.exited⟩ kind (p ++ [i]) q ↔ a.Finishes kind p q := by
  cases kind with
  | branch => exact List.mem_cons.trans (or_iff_right hqp)
  | loop => exact and_congr_left fun _ => (inside_snoc p q i).trans (or_iff_right hqp)

/-- When control goes on from inside a block, it stays inside or has finished the body. -/
theorem Advances.inside_eq (h : Advances steps p a) {kind : BlockKind} {condition : κ}
    {body : List (Step κ)} {complete : Option κ}
    (hq : resolve? steps q = some (.block kind condition body complete)) :
    (if p.Inside q then 1 else 0) =
      (if a.Finishes kind p q then 1 else 0) + if a.next.Inside q then 1 else 0 := by
  have hself (p : Position) (i : Nat) : Inside (p ++ [i]) p := (inside_snoc p p i).mpr (.inl rfl)
  induction h with
  | @sibling p _ i =>
    have hsame : Inside (p ++ [i]) q ↔ Inside (p ++ [i + 1]) q := by
      rw [inside_snoc, inside_snoc]
    have hno : ¬ Advance.Finishes ⟨p ++ [i + 1], []⟩ kind (p ++ [i]) q := by
      rw [finishes_none]
      rintro ⟨_, hin, rfl⟩
      simpa using hin.length_lt
    simp [hsame, hno]
  | @past i =>
    have hout (j : Nat) : ¬ Inside [j] q := by
      intro hin
      exact nonempty_of_resolve? hq (List.length_eq_zero_iff.mp (Nat.lt_one_iff.mp hin.length_lt))
    have hno : ¬ Advance.Finishes ⟨[i + 1], []⟩ kind [i] q := fun hf =>
      hout i (finishes_none.mp hf).2.1
    simp [hout, hno]
  | @again p _ _ _ i hp =>
    by_cases hqp : q = p
    · subst hqp
      cases hp.symm.trans hq
      have hfin : Advance.Finishes ⟨q, []⟩ .loop (q ++ [i]) q :=
        finishes_none.mpr ⟨rfl, hself q i, rfl⟩
      simp [hself, hfin, not_inside_self]
    · have hsame : Inside (p ++ [i]) q ↔ p.Inside q := by
        rw [inside_snoc, or_iff_right hqp]
      have hno : ¬ Advance.Finishes ⟨p, []⟩ kind (p ++ [i]) q := fun hf =>
        hqp (finishes_none.mp hf).2.2.symm
      simp [hsame, hno]
  | @leave p _ _ _ i a hp _ ha ih =>
    by_cases hqp : q = p
    · subst hqp
      cases hp.symm.trans hq
      have hfin : Advance.Finishes ⟨a.next, q :: a.exited⟩ .branch (q ++ [i]) q :=
        List.mem_cons_self
      -- control was not inside the branch that it stood on, and so it is not after it
      rw [if_neg (not_inside_self q)] at ih
      have hout : ¬ a.next.Inside q := by
        intro hnext
        rw [if_pos hnext] at ih
        omega
      simp [hself, hfin, hout]
    · have hsame : Inside (p ++ [i]) q ↔ p.Inside q := by
        rw [inside_snoc, or_iff_right hqp]
      simpa only [hsame, finishes_leave hqp] using ih

end

/-! ## Callbacks for the ends of steps -/

def Effect.isHook : Effect κ → Bool
  | .runHook _ _ => true
  | _ => false

def Effect.calls [DecidableEq κ] (callback : κ) : Effect κ → Bool
  | .runHook other _ => other = callback
  | _ => false

def Event.goesOn : Event → Bool
  | .outputSettled => true
  | .conditionEvaluated holds => !holds
  | .validationPassed => true
  | _ => false

/-- The steps whose callbacks an event calls for. That of an output is called while its pause goes
on, so only those of the branches around it are left. -/
def State.closes (script : Script κ) (s : State) : Event → List Position
  | .outputSettled => (advance script.steps s.position).exited
  | .conditionEvaluated false => s.position :: (advance script.steps s.position).exited
  | .validationPassed => s.position :: (advance script.steps s.position).exited
  | _ => []

def Script.hooksAt (script : Script κ) (p : Position) : List (Effect κ) :=
  match script.stepAt? p with
  | none => []
  | some step => Effect.hooks step.kindName step.complete?

section
variable {script : Script κ} {s : State} {event : Event} {t : Transition κ}

theorem filter_hooks (step : String) (complete : Option κ) :
    (Effect.hooks step complete).filter Effect.isHook = Effect.hooks step complete := by
  cases complete <;> rfl

theorem exitHooks_eq : ∀ {exited : List Position}, (∀ q ∈ exited, ∃ condition body complete,
    resolve? script.steps q = some (.block .branch condition body complete)) →
      exitHooks script exited = exited.flatMap script.hooksAt
  | [], _ => rfl
  | q :: exited, h => by
    obtain ⟨condition, body, complete, hq⟩ := h q List.mem_cons_self
    have hstep : script.stepAt? q = some (.block .branch condition body complete) :=
      lookup_of_resolve? hq
    have hhead : Effect.hooks "if" ((script.stepAt? q).bind Step.complete?) = script.hooksAt q := by
      simp [Script.hooksAt, hstep, Step.kindName, BlockKind.name]
    have ih := exitHooks_eq fun r hr => h r (List.mem_cons_of_mem q hr)
    rw [exitHooks] at ih ⊢
    rw [List.flatMap_cons, List.flatMap_cons, ih, hhead]

theorem filter_hooksAt (positions : List Position) :
    (positions.flatMap script.hooksAt).filter Effect.isHook = positions.flatMap script.hooksAt := by
  rw [List.filter_flatMap]
  congr 1
  funext p
  unfold Script.hooksAt
  split
  · rfl
  · exact filter_hooks _ _

theorem countP_calls [DecidableEq κ] (callback : κ) (effects : List (Effect κ)) :
    (effects.filter Effect.isHook).countP (Effect.calls callback) =
      effects.countP (Effect.calls callback) := by
  rw [List.countP_filter]
  congr 1
  funext effect
  cases effect <;> simp [Effect.calls, Effect.isHook]

theorem countP_hooks [DecidableEq κ] (callback : κ) (step : String) (complete : Option κ) :
    (Effect.hooks step complete).countP (Effect.calls callback) =
      if complete = some callback then 1 else 0 := by
  cases complete with
  | none => rfl
  | some other => simp [Effect.hooks, Effect.calls, List.countP_singleton]

theorem countP_hooksAt [DecidableEq κ] {callback : κ} {q : Position}
    (hown : ∀ p step, resolve? script.steps p = some step →
      (step.complete? = some callback ↔ p = q)) :
    ∀ {positions : List Position},
      (∀ p ∈ positions, ∃ step, resolve? script.steps p = some step) →
        (positions.flatMap script.hooksAt).countP (Effect.calls callback) = positions.count q
  | [], _ => rfl
  | p :: positions, h => by
    obtain ⟨hp, h⟩ := List.forall_mem_cons.mp h
    obtain ⟨step, hs⟩ := hp
    have ih := countP_hooksAt hown h
    have hstep : script.stepAt? p = some step := lookup_of_resolve? hs
    have hhead : script.hooksAt p = Effect.hooks step.kindName step.complete? := by
      simp only [Script.hooksAt, hstep]
    rw [List.flatMap_cons, List.countP_append, ih, hhead, countP_hooks, List.count_cons]
    simp only [hown p step hs, beq_iff_eq]
    omega

theorem moves_goesOn (hw : s.WellFormed script) (h : Moves script s event t)
    (hg : event.goesOn = true) : ∃ step, resolve? script.steps s.position = some step := by
  have he := hw.exact
  cases h with
  | settle hp =>
    obtain ⟨o, ho⟩ := hw.fits.output (.inr hp)
    exact ⟨_, ho⟩
  | leave _ h => exact ⟨_, he ▸ h⟩
  | accept _ h => exact ⟨_, he ▸ h⟩
  | _ => cases hg

theorem filter_moveOn {step : Step κ} (h : resolve? script.steps s.position = some step)
    (finish : List (Effect κ)) : (moveOn script s finish).effects.filter Effect.isHook =
      finish.filter Effect.isHook ++
        (advance script.steps s.position).exited.flatMap script.hooksAt := by
  rw [moveOn, List.filter_append, exitHooks_eq (advance_advances h).exited_branch, filter_hooksAt]

theorem moves_hooks (hw : s.WellFormed script) (h : Moves script s event t) :
    t.effects.filter Effect.isHook = (s.closes script event).flatMap script.hooksAt := by
  have hg := moves_goesOn hw h
  cases h with
  | settle =>
    obtain ⟨step, hs⟩ := hg rfl
    rw [filter_moveOn hs]
    rfl
  | leave _ h =>
    obtain ⟨step, hs⟩ := hg rfl
    rw [filter_moveOn hs, filter_hooks, State.closes, List.flatMap_cons, Script.hooksAt, h]
    rfl
  | accept _ h =>
    obtain ⟨step, hs⟩ := hg rfl
    rw [filter_moveOn hs, State.closes, List.flatMap_cons, Script.hooksAt, h,
      List.filter_cons_of_neg Bool.false_ne_true, filter_hooks]
    rfl
  | _ => rfl

/-! ## Counting entries and ends -/

variable {q : Position} {kind : BlockKind} {condition : κ} {body : List (Step κ)}
  {complete : Option κ}

theorem moveOn_inside {step : Step κ} (hs : resolve? script.steps s.position = some step)
    (hq : resolve? script.steps q = some (.block kind condition body complete))
    (hg : event.goesOn = true) (finish : List (Effect κ)) :
    (if s.position.Inside q then 1 else 0) =
      (if event.goesOn = true ∧ (advance script.steps s.position).Finishes kind s.position q
        then 1 else 0) + if (moveOn script s finish).state.position.Inside q then 1 else 0 := by
  rw [(advance_advances hs).inside_eq hq]
  congr 1
  exact if_congr (and_iff_right hg).symm rfl rfl

/-- Control is inside a block from an entry up to the next end of its body. -/
theorem moves_inside (hw : s.WellFormed script) (h : Moves script s event t)
    (hq : resolve? script.steps q = some (.block kind condition body complete)) :
    (if s.position = q ∧ event = .conditionEvaluated true then 1 else 0) +
        (if s.position.Inside q then 1 else 0) =
      (if event.goesOn = true ∧ (advance script.steps s.position).Finishes kind s.position q
        then 1 else 0) + if t.state.position.Inside q then 1 else 0 := by
  have hg := moves_goesOn hw h
  cases h with
  | enter =>
    by_cases hp : s.position = q
    · subst hp
      simp [Event.goesOn, descend, child, inside_snoc, not_inside_self]
    · have hne : q ≠ s.position := Ne.symm hp
      simp [Event.goesOn, descend, child, inside_snoc, hp, hne]
  | settle =>
    obtain ⟨step, hs⟩ := hg rfl
    simpa using moveOn_inside hs hq rfl _
  | leave =>
    obtain ⟨step, hs⟩ := hg rfl
    simpa using moveOn_inside hs hq rfl _
  | accept =>
    obtain ⟨step, hs⟩ := hg rfl
    simpa using moveOn_inside hs hq rfl _
  | _ => simp [Event.goesOn]

theorem count_exited {p : Position} {a : Advance} (h : Advances script.steps p a)
    (hq : resolve? script.steps q = some (.block kind condition body complete)) :
    a.exited.count q = if kind = .branch ∧ a.Finishes kind p q then 1 else 0 := by
  cases kind with
  | branch => simpa [Advance.Finishes] using h.exited_nodup.count
  | loop =>
    rw [if_neg (fun h => nomatch h.1)]
    refine List.count_eq_zero.mpr fun hmem => ?_
    obtain ⟨_, _, _, hbranch⟩ := h.exited_branch q hmem
    rw [hq] at hbranch
    cases hbranch

/-- The end of a block is reached once when its condition does not hold, and once when a branch is
left. -/
theorem moves_closes (hw : s.WellFormed script) (h : Moves script s event t)
    (hq : resolve? script.steps q = some (.block kind condition body complete)) :
    (s.closes script event).count q =
      (if s.position = q ∧ event = .conditionEvaluated false then 1 else 0) +
        if kind = .branch ∧ event.goesOn = true ∧
          (advance script.steps s.position).Finishes kind s.position q then 1 else 0 := by
  have hg := moves_goesOn hw h
  cases h with
  | settle =>
    obtain ⟨step, hs⟩ := hg rfl
    simpa [State.closes, Event.goesOn] using count_exited (advance_advances hs) hq
  | leave =>
    obtain ⟨step, hs⟩ := hg rfl
    simp [State.closes, Event.goesOn, List.count_cons, count_exited (advance_advances hs) hq]
    omega
  | accept _ h =>
    obtain ⟨step, hs⟩ := hg rfl
    have hne : s.position ≠ q := by
      intro he
      rw [hw.exact, he, hq] at h
      cases h
    simp [State.closes, Event.goesOn, hne, count_exited (advance_advances hs) hq]
  | _ => cases kind <;> simp [State.closes, Event.goesOn]

/-- A step is closed where control goes on from it: the one at which control is, or a branch around
that one. -/
theorem mem_closes (hw : s.WellFormed script) (h : Moves script s event t)
    (hq : q ∈ s.closes script event) : ∃ step, resolve? script.steps s.position = some step ∧
      t.state.position = (advance script.steps s.position).next ∧
      (q = s.position ∨ q ∈ (advance script.steps s.position).exited) := by
  have hg := moves_goesOn hw h
  cases h with
  | settle =>
    obtain ⟨step, hs⟩ := hg rfl
    exact ⟨step, hs, rfl, .inr hq⟩
  | leave =>
    obtain ⟨step, hs⟩ := hg rfl
    exact ⟨step, hs, rfl, List.mem_cons.mp hq⟩
  | accept =>
    obtain ⟨step, hs⟩ := hg rfl
    exact ⟨step, hs, rfl, List.mem_cons.mp hq⟩
  | _ => cases hq

theorem closes_resolve (hw : s.WellFormed script) (h : Moves script s event t) :
    ∀ p ∈ s.closes script event, ∃ step, resolve? script.steps p = some step := by
  intro p hp
  obtain ⟨step, hs, _, rfl | hexited⟩ := mem_closes hw h hp
  · exact ⟨step, hs⟩
  · obtain ⟨_, _, _, hbranch⟩ := (advance_advances hs).exited_branch p hexited
    exact ⟨_, hbranch⟩

/-- What an event closes: a step of its own or none, and then the branches around it that end with
it, from the innermost outwards. -/
structure State.ClosesOutwards (script : Script κ) (s : State) (event : Event)
    (own : List Position) (branches : List Position) : Prop where
  parts : s.closes script event = own ++ branches
  own : own = [] ∨ own = [s.position]
  chain : (s.position :: branches).IsChain fun p q => p.parent? = some q
  branch : ∀ q ∈ branches, ∃ condition body complete,
    resolve? script.steps q = some (.block .branch condition body complete)

theorem closes_outwards (hw : s.WellFormed script) (h : Moves script s event t) :
    ∃ own branches, s.ClosesOutwards script event own branches := by
  have hg := moves_goesOn hw h
  cases h with
  | settle =>
    obtain ⟨step, hs⟩ := hg rfl
    have ha := advance_advances hs
    exact ⟨[], _, rfl, .inl rfl, ha.exited_chain, ha.exited_branch⟩
  | leave =>
    obtain ⟨step, hs⟩ := hg rfl
    have ha := advance_advances hs
    exact ⟨[s.position], _, rfl, .inr rfl, ha.exited_chain, ha.exited_branch⟩
  | accept =>
    obtain ⟨step, hs⟩ := hg rfl
    have ha := advance_advances hs
    exact ⟨[s.position], _, rfl, .inr rfl, ha.exited_chain, ha.exited_branch⟩
  | _ => exact ⟨[], [], rfl, .inl rfl, List.isChain_singleton _, nofun⟩

end

/-! ## Runs -/

namespace Chronicle

def decisions (c : Chronicle) (q : Position) (holds : Bool) : Nat :=
  c.countP fun e => e.1.position = q ∧ e.2 = .conditionEvaluated holds

def bodies (script : Script κ) (c : Chronicle) (kind : BlockKind) (q : Position) : Nat :=
  c.countP fun e => e.2.goesOn = true ∧
    (advance script.steps e.1.position).Finishes kind e.1.position q

def effects (script : Script κ) : Chronicle → List (Effect κ)
  | [] => []
  | (s, event) :: c =>
    match transition script s event with
    | .ok t => effects script c ++ t.effects
    | .error _ => effects script c

def closed (script : Script κ) : Chronicle → List Position
  | [] => []
  | (s, event) :: c => closed script c ++ s.closes script event

section
variable {script : Script κ} {c : Chronicle} {s : State} {q : Position} {kind : BlockKind}
  {condition : κ} {body : List (Step κ)} {complete : Option κ}

theorem decisions_cons (s : State) (event : Event) (c : Chronicle) (q : Position) (holds : Bool) :
    decisions ((s, event) :: c) q holds = c.decisions q holds +
      if s.position = q ∧ event = .conditionEvaluated holds then 1 else 0 := by
  simp [decisions, List.countP_cons]

theorem bodies_cons (script : Script κ) (s : State) (event : Event) (c : Chronicle)
    (kind : BlockKind) (q : Position) : bodies script ((s, event) :: c) kind q =
      c.bodies script kind q + if event.goesOn = true ∧
        (advance script.steps s.position).Finishes kind s.position q then 1 else 0 := by
  simp [bodies, List.countP_cons]

theorem effects_cons {event : Event} {t : Transition κ} (h : transition script s event = .ok t)
    (c : Chronicle) : effects script ((s, event) :: c) = c.effects script ++ t.effects := by
  simp only [effects, h]

theorem closed_cons (script : Script κ) (s : State) (event : Event) (c : Chronicle) :
    closed script ((s, event) :: c) = c.closed script ++ s.closes script event := rfl

theorem To.entered (h : To script c s)
    (hq : resolve? script.steps q = some (.block kind condition body complete)) :
    c.decisions q true = c.bodies script kind q + if s.position.Inside q then 1 else 0 := by
  induction h with
  | nil =>
    have hout : ¬ Inside State.initial.position q := by
      intro hin
      have hlt := hin.length_lt
      obtain rfl : q = [] :=
        List.eq_nil_of_length_eq_zero (by simpa [State.initial, start] using hlt)
      simp [resolve?] at hq
    simp [decisions, bodies, hout]
  | cons hc ht ih =>
    have hm := moves_inside hc.reachable.wellFormed (transition_moves ht) hq
    rw [decisions_cons, bodies_cons]
    omega

theorem To.ended (h : To script c s)
    (hq : resolve? script.steps q = some (.block kind condition body complete)) :
    (c.closed script).count q = c.decisions q false +
      if kind = .branch then c.bodies script kind q else 0 := by
  induction h with
  | nil => simp [closed, decisions, bodies]
  | cons hc ht ih =>
    have hm := moves_closes hc.reachable.wellFormed (transition_moves ht) hq
    rw [closed_cons, List.count_append, ih, hm, decisions_cons, bodies_cons]
    cases kind with
    | branch =>
      simp only [true_and, if_true]
      omega
    | loop => simp

theorem To.called (h : To script c s) :
    (c.effects script).filter Effect.isHook = (c.closed script).flatMap script.hooksAt := by
  induction h with
  | nil => rfl
  | cons hc ht ih =>
    have hm := moves_hooks hc.reachable.wellFormed (transition_moves ht)
    rw [effects_cons ht, List.filter_append, ih, hm, closed_cons, List.flatMap_append]

theorem To.closed_resolve (h : To script c s) :
    ∀ p ∈ c.closed script, ∃ step, resolve? script.steps p = some step := by
  induction h with
  | nil => exact nofun
  | cons hc ht ih =>
    have hm := closes_resolve hc.reachable.wellFormed (transition_moves ht)
    exact List.forall_mem_append.mpr ⟨ih, hm⟩

theorem To.countP_calls [DecidableEq κ] {step : Step κ} {callback : κ} (h : To script c s)
    (hq : resolve? script.steps q = some step) (hc : step.complete? = some callback)
    (hown : ∀ p step, resolve? script.steps p = some step → step.complete? = some callback →
      p = q) : (c.effects script).countP (Effect.calls callback) = (c.closed script).count q := by
  have hiff : ∀ p other, resolve? script.steps p = some other →
      (other.complete? = some callback ↔ p = q) := by
    refine fun p other hp => ⟨hown p other hp, ?_⟩
    rintro rfl
    rw [hp] at hq
    cases hq
    exact hc
  rw [← Dialogue.countP_calls, h.called, countP_hooksAt hiff h.closed_resolve]

structure Bracketed [DecidableEq κ] (script : Script κ) (c : Chronicle) (s : State) : Prop where
  -- entered as often as finished, and once more while control is inside
  entered : ∀ {q : Position} {kind : BlockKind} {condition : κ} {body : List (Step κ)}
    {complete : Option κ}, resolve? script.steps q = some (.block kind condition body complete) →
      c.decisions q true = c.bodies script kind q + if s.position.Inside q then 1 else 0
  -- a loop ends only on its condition
  ended : ∀ {q : Position} {kind : BlockKind} {condition : κ} {body : List (Step κ)}
    {complete : Option κ}, resolve? script.steps q = some (.block kind condition body complete) →
      (c.closed script).count q = c.decisions q false +
        if kind = .branch then c.bodies script kind q else 0
  called : (c.effects script).filter Effect.isHook = (c.closed script).flatMap script.hooksAt
  -- read off the effects alone, for a callback that no other step has
  counted : ∀ {q : Position} {kind : BlockKind} {condition : κ} {body : List (Step κ)}
    {callback : κ}, resolve? script.steps q = some (.block kind condition body (some callback)) →
      (∀ p step, resolve? script.steps p = some step → step.complete? = some callback → p = q) →
        (c.effects script).countP (Effect.calls callback) = c.decisions q false +
          if kind = .branch then c.bodies script kind q else 0
  outwards : ∀ {event : Event} {t : Transition κ}, transition script s event = .ok t →
    t.effects.filter Effect.isHook = (s.closes script event).flatMap script.hooksAt ∧
      ∃ own branches, s.ClosesOutwards script event own branches

end

end Chronicle

/-- **Brackets.** In every run a block is entered as often as its body is finished, and once more
while control is inside it; the callback for its end is called for once for each of its ends; and of
several that a single transition calls for, the step's own comes first, and then those of the
branches that end with it, from the innermost outwards. -/
theorem blocks_bracketed [DecidableEq κ] {script : Script κ} {c : Chronicle} {s : State}
    (h : Chronicle.To script c s) : c.Bracketed script s where
  entered := h.entered
  ended := h.ended
  called := h.called
  counted hq hown := by rw [h.countP_calls hq rfl hown, h.ended hq]
  outwards ht :=
    have hw := h.reachable.wellFormed
    have hm := transition_moves ht
    ⟨moves_hooks hw hm, closes_outwards hw hm⟩

def nested : Script Nat where
  steps := [.block .loop 0 [.block .branch 1 [.block .branch 2 [.input ⟨"toy", [], some 3⟩]
    (some 4)] (some 5)] (some 6)]
  complete := none
  filled := rfl

/-- One answer ends the input and both branches around it, and the loop ends later. -/
theorem nested_bracketed : ∃ c s, Chronicle.To nested c s ∧ c.Bracketed nested s ∧
    c.closed nested = [[0, 0, 0, 0], [0, 0, 0], [0, 0], [0]] ∧
      c.decisions [0, 0] true = 1 ∧ c.bodies nested .branch [0, 0] = 1 := by
  have step {c : Chronicle} {s : State} {t : Transition Nat} (event : Event)
    (h : Chronicle.To nested c s) (ht : transition nested s event = .ok t) :
    Chronicle.To nested ((s, event) :: c) t.state := .cons h ht
  have h₁ := step (.conditionEvaluated true) (step .drive .nil rfl) rfl
  have h₂ := step (.conditionEvaluated true) (step .drive h₁ rfl) rfl
  have h₃ := step (.conditionEvaluated true) (step .drive h₂ rfl) rfl
  have h₄ := step (.submitted "ball" 1) (step .drive h₃ rfl) rfl
  have h₅ := step .drive (step .validationPassed h₄ rfl) rfl
  have h₆ := step (.conditionEvaluated false) h₅ rfl
  exact ⟨_, _, h₆, blocks_bracketed h₆, by decide, by decide, by decide⟩

end Dialogue
