import Dialogue.Proofs.EmptyBlocks
import Dialogue.Script.Draft

/-!
# Drafts

A tree of drafts makes a script if and only if every draft in it is well formed: exactly one of its
places is filled, and its block, if it is one, has something in it. Then there is at every position
the step that the draft there was filled with. Otherwise the error is that of the malformed draft
that comes first in document order, whatever is wrong inside it or after it.
-/

namespace Dialogue

variable {κ : Type}

namespace Draft

def block? : BlockKind → Draft κ → Option (DraftBlock κ)
  | .branch, .mk _ _ branch _ => branch
  | .loop, .mk _ _ _ loop => loop

structure WellFormed (d : Draft κ) : Prop where
  populated : d.populated = 1
  filled : ∀ kind condition children complete,
    d.block? kind = some (.mk condition children complete) → children ≠ []

/-- What is wrong with a draft that stands at `p`. -/
inductive Malformed (p : Position) (d : Draft κ) : ScriptError → Prop
  | unfilled (h : d.populated = 0) : Malformed p d (.emptyStep p)
  | overfilled (h : 1 < d.populated) : Malformed p d (.ambiguousStep p d.populated)
  | hollow {kind : BlockKind} {condition : κ} {complete : Option κ} (h : d.populated = 1)
    (hb : d.block? kind = some (.mk condition [] complete)) : Malformed p d (.emptyBlock p kind)

/-- The step is what the draft was filled with. Of the steps inside a block only the number is
compared. -/
inductive Makes : Draft κ → Step κ → Prop
  | output (o : Output κ) : Makes (.mk (some o) none none none) (.output o)
  | input (i : Input κ) : Makes (.mk none (some i) none none) (.input i)
  | block {d : Draft κ} {kind : BlockKind} {condition : κ} {drafts : List (Draft κ)}
    {steps : List (Step κ)} {complete : Option κ} (h : d.populated = 1)
    (hb : d.block? kind = some (.mk condition drafts complete))
    (hn : steps.length = drafts.length) : Makes d (.block kind condition steps complete)

end Draft

/-- The draft stands at a position of the tree. Where more than one place is filled, the blocks of
all of them belong to the tree. -/
inductive Stands : List (Draft κ) → Position → Draft κ → Prop
  | here {drafts : List (Draft κ)} {i : Nat} {d : Draft κ} (h : drafts[i]? = some d) :
    Stands drafts [i] d
  | inside {drafts children : List (Draft κ)} {i : Nat} {d inner : Draft κ} {kind : BlockKind}
    {condition : κ} {complete : Option κ} {p : Position} (h : drafts[i]? = some d)
    (hb : d.block? kind = some (.mk condition children complete)) :
    Stands children p inner → Stands drafts (i :: p) inner

structure FirstMalformed (drafts : List (Draft κ)) (p : Position) (d : Draft κ) : Prop where
  stands : Stands drafts p d
  malformed : ¬ d.WellFormed
  first : ∀ q other, Stands drafts q other → ¬ other.WellFormed → p.Precedes q

theorem Stands.ne_nil {drafts : List (Draft κ)} {p : Position} {d : Draft κ}
    (h : Stands drafts p d) : p ≠ [] := by
  cases h <;> exact List.cons_ne_nil _ _

/-! ## One draft -/

section
variable {p : Position} {d : Draft κ}

theorem Draft.Malformed.not_wellFormed {e : ScriptError} (h : d.Malformed p e) :
    ¬ d.WellFormed := by
  intro hw
  have hone := hw.populated
  cases h with
  | unfilled h => omega
  | overfilled h => omega
  | hollow _ hb => exact hw.filled _ _ _ _ hb rfl

theorem Draft.block?_leaf (output : Option (Output κ)) (input : Option (Input κ))
    (kind : BlockKind) : block? kind (.mk output input none none) = none := by
  cases kind <;> rfl

theorem Draft.leaf_wellFormed {output : Option (Output κ)} {input : Option (Input κ)}
    (h : (mk output input none none).populated = 1) : (mk output input none none).WellFormed := by
  refine ⟨h, fun kind condition children complete hb => ?_⟩
  rw [block?_leaf] at hb
  cases hb

theorem Draft.block?_unique (h : d.populated = 1) {kind kind' : BlockKind} {b b' : DraftBlock κ}
    (hb : d.block? kind = some b) (hb' : d.block? kind' = some b') : kind = kind' ∧ b = b' := by
  obtain ⟨output, input, branch, loop⟩ := d
  cases kind <;> cases kind' <;> simp only [block?] at hb hb'
  · exact ⟨rfl, Option.some.inj (hb.symm.trans hb')⟩
  · simp [populated, hb, hb'] at h
  · simp [populated, hb, hb'] at h
  · exact ⟨rfl, Option.some.inj (hb.symm.trans hb')⟩

inductive Draft.Read (p : Position) : Draft κ → Except ScriptError (Step κ) → Prop
  | malformed {d : Draft κ} {e : ScriptError} (h : d.Malformed p e) : Read p d (.error e)
  | output (o : Output κ) : Read p (.mk (some o) none none none) (.ok (.output o))
  | input (i : Input κ) : Read p (.mk none (some i) none none) (.ok (.input i))
  | block {d : Draft κ} {kind : BlockKind} {condition : κ} {children : List (Draft κ)}
    {complete : Option κ} (h : d.WellFormed)
    (hb : d.block? kind = some (.mk condition children complete)) :
    Read p d ((draftSteps p 0 children).map (.block kind condition · complete))

theorem DraftBlock.toStep_read {kind : BlockKind} (h : d.populated = 1) {b : DraftBlock κ}
    (hb : d.block? kind = some b) : d.Read p (b.toStep p kind) := by
  obtain ⟨condition, children, complete⟩ := b
  cases children with
  | nil => exact .malformed (.hollow h hb)
  | cons child children =>
    have hw : d.WellFormed := by
      refine ⟨h, fun kind' condition' children' complete' hb' => ?_⟩
      obtain ⟨_, he⟩ := Draft.block?_unique h hb hb'
      cases he
      exact List.cons_ne_nil _ _
    have hstep : DraftBlock.toStep p kind (.mk condition (child :: children) complete) =
        (draftSteps p 0 (child :: children)).map (.block kind condition · complete) := by
      rw [DraftBlock.toStep]
      cases draftSteps p 0 (child :: children) <;> rfl
    rw [hstep]
    exact .block hw hb

theorem Draft.toStep_read (p : Position) (d : Draft κ) : d.Read p (d.toStep p) := by
  obtain ⟨output, input, branch, loop⟩ := d
  cases output <;> cases input <;> cases branch <;> cases loop
  case some.none.none.none o => exact .output o
  case none.some.none.none i => exact .input i
  case none.none.some.none block => exact block.toStep_read rfl rfl
  case none.none.none.some block => exact block.toStep_read rfl rfl
  case none.none.none.none => exact .malformed (.unfilled rfl)
  all_goals exact .malformed (.overfilled (by simp [Draft.populated]))

theorem Draft.Read.ok_cases {step : Step κ} (h : d.Read p (.ok step)) : d.WellFormed ∧
    ((∀ kind, d.block? kind = none) ∧ step.children? = none ∧ d.Makes step ∨
      ∃ kind condition children complete steps,
        d.block? kind = some (.mk condition children complete) ∧
          draftSteps p 0 children = .ok steps ∧ step = .block kind condition steps complete) := by
  generalize hr : Except.ok step = result at h
  cases h with
  | malformed => cases hr
  | output o =>
    cases hr
    exact ⟨leaf_wellFormed rfl, .inl ⟨block?_leaf _ _, rfl, .output o⟩⟩
  | input i =>
    cases hr
    exact ⟨leaf_wellFormed rfl, .inl ⟨block?_leaf _ _, rfl, .input i⟩⟩
  | @block _ kind condition children complete hw hb =>
    cases hs : draftSteps p 0 children with
    | error e => simp [hs, Except.map] at hr
    | ok steps =>
      simp only [hs, Except.map, Except.ok.injEq] at hr
      exact ⟨hw, .inr ⟨kind, condition, children, complete, steps, hb, hs, hr⟩⟩

theorem Draft.Read.error_cases {e : ScriptError} (h : d.Read p (.error e)) :
    d.Malformed p e ∨ d.WellFormed ∧ ∃ kind condition children complete,
      d.block? kind = some (.mk condition children complete) ∧
        draftSteps p 0 children = .error e := by
  generalize hr : Except.error e = result at h
  cases h with
  | malformed h => cases hr; exact .inl h
  | output => cases hr
  | input => cases hr
  | @block _ kind condition children complete hw hb =>
    cases hs : draftSteps p 0 children with
    | ok steps => simp [hs, Except.map] at hr
    | error e' =>
      simp only [hs, Except.map, Except.error.injEq] at hr
      subst hr
      exact .inr ⟨hw, kind, condition, children, complete, hb, hs⟩

end

/-! ## Drafts among their siblings -/

section
variable {p : Position}

theorem draftSteps_ok : ∀ {drafts : List (Draft κ)} {i : Nat} {steps : List (Step κ)},
    draftSteps p i drafts = .ok steps → steps.length = drafts.length ∧
      ∀ (j : Nat) (d : Draft κ), drafts[j]? = some d →
        ∃ step, steps[j]? = some step ∧ d.toStep (p.child (i + j)) = .ok step
  | [], i, steps, h => by cases h; exact ⟨rfl, nofun⟩
  | draft :: drafts, i, steps, h => by
    rw [draftSteps] at h
    cases hd : draft.toStep (p.child i) with
    | error e => simp [hd] at h
    | ok step =>
      cases hrest : draftSteps p (i + 1) drafts with
      | error e => simp [hd, hrest] at h
      | ok rest =>
        simp only [hd, hrest, Except.ok.injEq] at h
        subst h
        obtain ⟨hlen, hall⟩ := draftSteps_ok hrest
        refine ⟨by simp [hlen], fun j d hj => ?_⟩
        cases j with
        | zero => cases hj; exact ⟨step, rfl, hd⟩
        | succ j =>
          obtain ⟨other, hother, ht⟩ := hall j d hj
          exact ⟨other, hother, by rw [← ht, Nat.add_assoc, Nat.add_comm 1]⟩

theorem draftSteps_split {e : ScriptError} : ∀ {drafts : List (Draft κ)} {i : Nat},
    draftSteps p i drafts = .error e → ∃ before d after steps, drafts = before ++ d :: after ∧
      draftSteps p i before = .ok steps ∧ d.toStep (p.child (i + before.length)) = .error e
  | [], i, h => by cases h
  | draft :: drafts, i, h => by
    rw [draftSteps] at h
    cases hd : draft.toStep (p.child i) with
    | error e' =>
      simp only [hd, Except.error.injEq] at h
      subst h
      exact ⟨[], draft, drafts, [], rfl, rfl, hd⟩
    | ok step =>
      cases hrest : draftSteps p (i + 1) drafts with
      | ok rest => simp [hd, hrest] at h
      | error e' =>
        simp only [hd, hrest, Except.error.injEq] at h
        subst h
        obtain ⟨before, d, after, steps, rfl, hb, ht⟩ := draftSteps_split hrest
        refine ⟨draft :: before, d, after, step :: steps, rfl, ?_, ?_⟩
        · rw [draftSteps, hd, hb]
        · rw [List.length_cons, ← Nat.add_assoc, Nat.add_right_comm]
          exact ht

theorem stands_before {before after : List (Draft κ)} {j : Nat} {q : Position} {d : Draft κ}
    (hj : j < before.length) (h : Stands (before ++ after) (j :: q) d) :
    Stands before (j :: q) d := by
  cases h with
  | here h => exact .here ((List.getElem?_append_left hj).symm.trans h)
  | inside h hb hin => exact .inside ((List.getElem?_append_left hj).symm.trans h) hb hin

end

/-! ## Reading a tree -/

section
variable {drafts : List (Draft κ)} {q : Position} {d : Draft κ}

theorem Draft.Read.made {p : Position} {step : Step κ} (h : d.Read p (.ok step)) :
    d.WellFormed ∧ d.Makes step := by
  obtain ⟨hw, ⟨_, _, hm⟩ | ⟨kind, condition, children, complete, steps, hb, hs, rfl⟩⟩ := h.ok_cases
  · exact ⟨hw, hm⟩
  · exact ⟨hw, .block hw.populated hb (draftSteps_ok hs).1⟩

theorem Stands.made (h : Stands drafts q d) : ∀ {p : Position} {i : Nat} {steps : List (Step κ)},
    draftSteps p i drafts = .ok steps →
      ∃ step, resolve? steps q = some step ∧ d.WellFormed ∧ d.Makes step := by
  -- on the path to the draft: each block on it is read to the block of the step there
  induction h with
  | @here drafts j d h =>
    intro p i steps hs
    obtain ⟨step, hstep, ht⟩ := (draftSteps_ok hs).2 j d h
    have hread := d.toStep_read (p.child (i + j))
    rw [ht] at hread
    exact ⟨step, hstep, hread.made⟩
  | @inside drafts children j d inner kind condition complete r h hb hin ih =>
    intro p i steps hs
    obtain ⟨step, hstep, ht⟩ := (draftSteps_ok hs).2 j d h
    have hread := d.toStep_read (p.child (i + j))
    rw [ht] at hread
    obtain ⟨hw, ⟨hleaf, _⟩ | ⟨kind', condition', children', complete', steps', hb', hs', rfl⟩⟩ :=
      hread.ok_cases
    · rw [hleaf kind] at hb
      cases hb
    · obtain ⟨_, he⟩ := Draft.block?_unique hw.populated hb hb'
      cases he
      obtain ⟨step, hr, hm⟩ := ih hs'
      refine ⟨step, ?_, hm⟩
      rw [resolve?_below hstep hin.ne_nil]
      exact hr

theorem stands_of_resolve? : ∀ {q : Position} {drafts : List (Draft κ)} {steps : List (Step κ)}
    {p : Position} {i : Nat} {step : Step κ}, draftSteps p i drafts = .ok steps →
      resolve? steps q = some step → ∃ d, Stands drafts q d
  | [], _, _, _, _, _, _, h => by cases h
  | j :: q, drafts, steps, p, i, step, hs, h => by
    obtain ⟨hlen, hall⟩ := draftSteps_ok hs
    have hj : j < drafts.length := hlen ▸ resolve?_lt h
    have hd : drafts[j]? = some drafts[j] := List.getElem?_eq_getElem hj
    by_cases hq : q = []
    · subst hq
      exact ⟨_, .here hd⟩
    obtain ⟨outer, houter, ht⟩ := hall j _ hd
    have hread := drafts[j].toStep_read (p.child (i + j))
    rw [ht] at hread
    rw [resolve?_below houter hq] at h
    obtain ⟨_, ⟨_, hleaf, _⟩ | ⟨kind, condition, children, complete, steps', hb, hs', rfl⟩⟩ :=
      hread.ok_cases
    · rw [hleaf] at h
      cases h
    · obtain ⟨inner, hin⟩ := stands_of_resolve? hs' h
      exact ⟨inner, .inside hd hb hin⟩

end

/-! ## The first malformed draft -/

section
variable {drafts : List (Draft κ)} {n : Nat} {d : Draft κ}

/-- All malformed drafts stand at or after the top-level draft with this number. -/
def MalformedFrom (n : Nat) (drafts : List (Draft κ)) : Prop :=
  ∀ q d, Stands drafts q d → ¬ d.WellFormed → ∃ j r, q = j :: r ∧ n ≤ j

theorem malformedFrom_append {p : Position} {i : Nat} {before after : List (Draft κ)}
    {steps : List (Step κ)} (h : draftSteps p i before = .ok steps) :
    MalformedFrom before.length (before ++ after) := by
  intro q d hq hd
  cases q with
  | nil => exact absurd rfl hq.ne_nil
  | cons j r =>
    refine ⟨j, r, rfl, ?_⟩
    by_cases hj : j < before.length
    · obtain ⟨_, _, hw, _⟩ := (stands_before hj hq).made h
      exact absurd hw hd
    · exact Nat.le_of_not_lt hj

theorem firstMalformed_here (hn : MalformedFrom n drafts) (hd : drafts[n]? = some d)
    (h : ¬ d.WellFormed) : FirstMalformed drafts [n] d := by
  refine ⟨.here hd, h, fun q other hq ho => ?_⟩
  obtain ⟨j, r, rfl, hj⟩ := hn q other hq ho
  rw [Position.cons_precedes]
  rcases Nat.lt_or_eq_of_le hj with hj | hj
  · exact .inl hj
  · exact .inr ⟨hj, Position.nil_precedes r⟩

theorem firstMalformed_inside (hn : MalformedFrom n drafts) (hd : drafts[n]? = some d)
    (h : d.WellFormed) {kind : BlockKind} {condition : κ} {children : List (Draft κ)}
    {complete : Option κ} (hb : d.block? kind = some (.mk condition children complete))
    {p : Position} {inner : Draft κ} (hin : FirstMalformed children p inner) :
    FirstMalformed drafts (n :: p) inner := by
  refine ⟨.inside hd hb hin.stands, hin.malformed, fun q other hq ho => ?_⟩
  obtain ⟨j, r, rfl, hj⟩ := hn q other hq ho
  rw [Position.cons_precedes]
  rcases Nat.lt_or_eq_of_le hj with hj | rfl
  · exact .inl hj
  refine .inr ⟨rfl, ?_⟩
  cases hq with
  | here hd' =>
    cases hd.symm.trans hd'
    exact absurd h ho
  | inside hd' hb' hin' =>
    cases hd.symm.trans hd'
    obtain ⟨_, he⟩ := Draft.block?_unique h.populated hb hb'
    cases he
    exact hin.first r other hin' ho

theorem sizeOf_block? {kind : BlockKind} {condition : κ} {children : List (Draft κ)}
    {complete : Option κ} (h : d.block? kind = some (.mk condition children complete)) :
    sizeOf children < sizeOf d := by
  obtain ⟨output, input, branch, loop⟩ := d
  cases kind <;> simp only [Draft.block?] at h <;> subst h <;> simp <;> omega

theorem draftSteps_first {drafts : List (Draft κ)} {p : Position} {e : ScriptError}
    (h : draftSteps p 0 drafts = .error e) :
    ∃ q d, FirstMalformed drafts q d ∧ d.Malformed (p ++ q) e := by
  obtain ⟨before, d, after, steps, hdrafts, hb, ht⟩ := draftSteps_split h
  have hn : MalformedFrom before.length drafts := hdrafts ▸ malformedFrom_append hb
  have hd : drafts[before.length]? = some d := by simp [hdrafts]
  have hread := d.toStep_read (p.child (0 + before.length))
  rw [ht, Nat.zero_add] at hread
  rcases hread.error_cases with hm | ⟨hw, kind, condition, children, complete, hblock, hs⟩
  · exact ⟨[before.length], d, firstMalformed_here hn hd hm.not_wellFormed, hm⟩
  · have hsize : sizeOf children < sizeOf drafts := by
      have hlt := List.sizeOf_lt_of_mem (List.mem_of_getElem? hd)
      have hlt' := sizeOf_block? hblock
      omega
    obtain ⟨q, inner, hfirst, hm⟩ := draftSteps_first hs
    refine ⟨before.length :: q, inner, firstMalformed_inside hn hd hw hblock hfirst, ?_⟩
    rw [Position.child, List.append_assoc] at hm
    exact hm
termination_by sizeOf drafts

end

/-! ## Scripts -/

section
variable {drafts : List (Draft κ)} {steps : List (Step κ)}

theorem emptyBlock?_of_drafts (h : draftSteps [] 0 drafts = .ok steps) :
    emptyBlock? steps = none := by
  rw [emptyBlock?_none_iff]
  rintro p kind ⟨condition, complete, hp⟩
  obtain ⟨d, hd⟩ := stands_of_resolve? h hp
  obtain ⟨step, hstep, hw, hm⟩ := hd.made h
  cases hp.symm.trans hstep
  cases hm with
  | block _ hb hn =>
    exact hw.filled _ _ _ _ hb (List.eq_nil_of_length_eq_zero hn.symm)

theorem ofDrafts_cases (drafts : List (Draft κ)) (complete : Option κ) :
    (∃ script, Script.ofDrafts drafts complete = .ok script ∧ script.complete = complete ∧
      draftSteps [] 0 drafts = .ok script.steps) ∨
    ∃ e p d, Script.ofDrafts drafts complete = .error e ∧ FirstMalformed drafts p d ∧
      d.Malformed p e := by
  unfold Script.ofDrafts
  cases h : draftSteps [] 0 drafts with
  | ok steps => exact .inl ⟨_, Script.ofSteps_none (emptyBlock?_of_drafts h), rfl, rfl⟩
  | error e =>
    obtain ⟨p, d, hfirst, hm⟩ := draftSteps_first h
    exact .inr ⟨e, p, d, rfl, hfirst, hm⟩

end

/-- **Drafts.** A tree of drafts makes a script if and only if all of its drafts are well formed. At
every position of the script there is the step that the draft there was filled with. If it is
refused, then for what is wrong with the malformed draft that comes first; the steps that are made
of drafts are never refused. -/
theorem drafts_make_script (drafts : List (Draft κ)) (complete : Option κ) :
    ((∃ script, Script.ofDrafts drafts complete = .ok script) ↔
      ∀ p d, Stands drafts p d → d.WellFormed) ∧
    (∀ script, Script.ofDrafts drafts complete = .ok script → script.complete = complete ∧ ∀ p,
      (∀ d, Stands drafts p d → ∃ step, resolve? script.steps p = some step ∧ d.Makes step) ∧
      ∀ step, resolve? script.steps p = some step → ∃ d, Stands drafts p d ∧ d.Makes step) ∧
    (∀ e, Script.ofDrafts drafts complete = .error e →
      ∃ p d, FirstMalformed drafts p d ∧ d.Malformed p e) ∧
    ∀ steps, draftSteps [] 0 drafts = .ok steps →
      ∃ script, Script.ofSteps steps complete = .ok script := by
  have hsecond : ∀ steps, draftSteps [] 0 drafts = .ok steps →
      ∃ script, Script.ofSteps steps complete = .ok script :=
    fun steps h => ⟨_, Script.ofSteps_none (emptyBlock?_of_drafts h)⟩
  rcases ofDrafts_cases drafts complete with
    ⟨script, hok, hcomplete, hs⟩ | ⟨e, p, d, herr, hfirst, hm⟩
  · have hmade : ∀ p d, Stands drafts p d →
        ∃ step, resolve? script.steps p = some step ∧ d.WellFormed ∧ d.Makes step :=
      fun p d h => h.made hs
    refine ⟨⟨fun _ p d h => ?_, fun _ => ⟨script, hok⟩⟩, ?_, ?_, hsecond⟩
    · obtain ⟨_, _, hw, _⟩ := hmade p d h
      exact hw
    · intro script' h'
      cases hok.symm.trans h'
      refine ⟨hcomplete, fun p => ⟨fun d h => ?_, fun step h => ?_⟩⟩
      · obtain ⟨step, hstep, _, hm⟩ := hmade p d h
        exact ⟨step, hstep, hm⟩
      · obtain ⟨d, hd⟩ := stands_of_resolve? hs h
        obtain ⟨step', hstep, _, hm⟩ := hmade p d hd
        cases h.symm.trans hstep
        exact ⟨d, hd, hm⟩
    · intro e h
      rw [hok] at h
      cases h
  · refine ⟨⟨?_, fun h => absurd (h p d hfirst.stands) hfirst.malformed⟩, ?_, ?_, hsecond⟩
    · rintro ⟨script, h⟩
      rw [herr] at h
      cases h
    · intro script h
      rw [herr] at h
      cases h
    · intro e' h
      cases herr.symm.trans h
      exact ⟨p, d, hfirst, hm⟩

end Dialogue
