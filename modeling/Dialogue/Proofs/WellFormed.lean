import Dialogue.Proofs.Moves

/-!
# Well-formed states

In every state that events can lead to, the position addresses a step exactly or is the index just
past the last step of the script, and the step is of the form that the phase asks for. So an event
is rejected only because the phase does not await it or because it answers another prompt.
-/

namespace Dialogue

variable {κ : Type}

inductive Reachable (script : Script κ) : State → Prop
  | initial : Reachable script .initial
  | step {s : State} {event : Event} {t : Transition κ} :
    Reachable script s → transition script s event = .ok t → Reachable script t.state

/-! ## The invariant -/

def State.Fits (script : Script κ) (s : State) : Prop :=
  match s.phase with
  | .running => True
  | .resolvingText | .settling => ∃ o, resolve? script.steps s.position = some (.output o)
  | .evaluatingCondition => ∃ kind condition children complete,
    resolve? script.steps s.position = some (.block kind condition children complete)
  | .awaitingInput | .validating _ => ∃ i, resolve? script.steps s.position = some (.input i)
  | .completed => s.position = [script.steps.length]

structure State.WellFormed (script : Script κ) (s : State) : Prop where
  nonempty : s.position ≠ []
  -- each proper prefix is a block, and the next index selects from its children
  through : ∀ q i, q ≠ [] → q ++ [i] <+: s.position → ∃ kind condition children complete,
    resolve? script.steps q = some (.block kind condition children complete) ∧
      resolve? script.steps (q ++ [i]) = children[i]?
  lands : (∃ step, resolve? script.steps s.position = some step) ∨
    s.position = [script.steps.length]
  exact : script.stepAt? s.position = resolve? script.steps s.position
  fits : s.Fits script

inductive Phase.Awaits : Phase → Event → Prop
  | drive : Awaits .running .drive
  | text (text : String) : Awaits .resolvingText (.textResolved text)
  | settled : Awaits .settling .outputSettled
  | condition (holds : Bool) : Awaits .evaluatingCondition (.conditionEvaluated holds)
  | submission (text : String) (turn : Nat) : Awaits .awaitingInput (.submitted text turn)
  | passed (text : String) : Awaits (.validating text) .validationPassed
  | failed (text errorText : String) : Awaits (.validating text) (.validationFailed errorText)

inductive Rejection.Explained (s : State) : Event → Rejection → Prop
  | phase {event : Event} (h : ¬ s.phase.Awaits event)
    (hs : ∀ text turn, event ≠ .submitted text turn) : Explained s event (.outOfPhase event s)
  | notAwaiting {text : String} {turn : Nat} (h : s.phase ≠ .awaitingInput) :
    Explained s (.submitted text turn) (.notAwaitingInput s.status)
  | turn {text : String} {turn : Nat} (hp : s.phase = .awaitingInput) (h : turn ≠ s.prompts) :
    Explained s (.submitted text turn) (.staleSubmission turn s.prompts)

section
variable {script : Script κ} {s : State}

theorem State.Fits.output (h : s.Fits script) (hp : s.phase = .resolvingText ∨ s.phase = .settling) :
    ∃ o, resolve? script.steps s.position = some (.output o) := by
  rcases hp with hp | hp <;> simpa only [State.Fits, hp] using h

theorem State.Fits.block (h : s.Fits script) (hp : s.phase = .evaluatingCondition) :
    ∃ kind condition children complete,
      resolve? script.steps s.position = some (.block kind condition children complete) := by
  simpa only [State.Fits, hp] using h

theorem State.Fits.input (h : s.Fits script)
    (hp : s.phase = .awaitingInput ∨ ∃ text, s.phase = .validating text) :
    ∃ i, resolve? script.steps s.position = some (.input i) := by
  rcases hp with hp | ⟨text, hp⟩ <;> simpa only [State.Fits, hp] using h

end

/-! ## Positions that land -/

/-- The position is a path into a block followed by an index of a step there, or by the index just
past the end of the script. -/
def Script.Lands (script : Script κ) (p : Position) : Prop :=
  ∃ q i body, p = q ++ [i] ∧ bodyAt? script.steps q = some body ∧
    (i < body.length ∨ q = [] ∧ i = body.length)

section
variable {script : Script κ}

theorem lands_start (script : Script κ) : script.Lands .start := by
  refine ⟨[], 0, script.steps, rfl, rfl, ?_⟩
  rcases Nat.eq_zero_or_pos script.steps.length with h | h
  · exact Or.inr ⟨rfl, h.symm⟩
  · exact Or.inl h

theorem lands_descend {p : Position} {kind : BlockKind} {condition : κ} {children : List (Step κ)}
    {complete : Option κ}
    (h : resolve? script.steps p = some (.block kind condition children complete)) :
    script.Lands p.descend :=
  ⟨p, 0, children, rfl, bodyAt?_of_block h,
    Or.inl (List.length_pos_iff.mpr (script.block_nonempty h))⟩

theorem lands_of_resolve? {p : Position} {step : Step κ} (h : resolve? script.steps p = some step) :
    script.Lands p := by
  obtain ⟨q, i, body, rfl, hb, hi⟩ := snoc_of_resolve? h
  exact ⟨q, i, body, rfl, hb, Or.inl (List.getElem?_eq_some_iff.mp hi).1⟩

theorem lands_advance {p : Position} {a : Advance} (h : Advances script.steps p a) :
    script.Lands a.next := by
  induction h with
  | sibling hb hi => exact ⟨_, _, _, rfl, hb, Or.inl hi⟩
  | past hi => exact ⟨[], _, script.steps, rfl, rfl, Or.inr ⟨rfl, hi⟩⟩
  | again hp _ => exact lands_of_resolve? hp
  | leave _ _ _ ih => exact ih

theorem Script.Lands.through {p : Position} (hp : script.Lands p) {q : Position} {i : Nat}
    (hq : q ≠ []) (h : q ++ [i] <+: p) : ∃ kind condition children complete,
      resolve? script.steps q = some (.block kind condition children complete) ∧
        resolve? script.steps (q ++ [i]) = children[i]? := by
  obtain ⟨q₀, j, body, rfl, hb, -⟩ := hp
  have hpre : q <+: q₀ := by
    refine List.prefix_of_prefix_length_le ((List.prefix_append q [i]).trans h)
      (List.prefix_append q₀ [j]) ?_
    have := h.length_le
    simp at this; exact this
  obtain ⟨r, rfl⟩ := hpre
  rw [bodyAt?_append] at hb
  obtain ⟨children, hc, -⟩ := Option.bind_eq_some_iff.mp hb
  obtain ⟨kind, condition, complete, hblock⟩ := block_of_bodyAt? hc hq
  exact ⟨kind, condition, children, complete, hblock, by rw [resolve?_snoc, hc]; rfl⟩

theorem Script.Lands.exact {p : Position} (hp : script.Lands p) :
    script.stepAt? p = resolve? script.steps p := by
  obtain ⟨q, i, body, rfl, hb, -⟩ := hp
  rw [Script.stepAt?, lookup_snoc hb, resolve?_snoc, hb]
  rfl

theorem Script.Lands.lands {p : Position} (hp : script.Lands p) :
    (∃ step, resolve? script.steps p = some step) ∨ p = [script.steps.length] := by
  obtain ⟨q, i, body, rfl, hb, hi | ⟨rfl, rfl⟩⟩ := hp
  · refine Or.inl ⟨body[i], ?_⟩
    rw [resolve?_snoc, hb]
    exact List.getElem?_eq_getElem hi
  · simp only [bodyAt?, Option.some.injEq] at hb
    subst hb
    exact Or.inr rfl

theorem Script.Lands.nonempty {p : Position} (hp : script.Lands p) : p ≠ [] := by
  obtain ⟨q, i, body, rfl, -⟩ := hp
  simp

theorem Script.Lands.wellFormed {s : State} (hp : script.Lands s.position) (h : s.Fits script) :
    s.WellFormed script :=
  ⟨hp.nonempty, fun _ _ => hp.through, hp.lands, hp.exact, h⟩

theorem State.WellFormed.lands' {s : State} (h : s.WellFormed script) :
    script.Lands s.position := by
  rcases h.lands with ⟨step, hs⟩ | hs
  · exact lands_of_resolve? hs
  · exact ⟨[], _, script.steps, hs, rfl, Or.inr ⟨rfl, rfl⟩⟩

/-! ## One step -/

theorem moveOn_wellFormed {s : State} {step : Step κ}
    (h : resolve? script.steps s.position = some step) (finish : List (Effect κ)) :
    (moveOn script s finish).state.WellFormed script :=
  Script.Lands.wellFormed (lands_advance (advance_advances h)) trivial

theorem moves_wellFormed {s : State} {event : Event} {t : Transition κ} (hs : s.WellFormed script)
    (h : Moves script s event t) : t.state.WellFormed script := by
  have hl := hs.lands'
  have hf := hs.fits
  have he := hs.exact
  cases h with
  | finish hp h =>
    rw [he] at h
    rcases hs.lands with ⟨step, hstep⟩ | hend
    · rw [h] at hstep; cases hstep
    · exact Script.Lands.wellFormed hl hend
  | produce hp h => rw [he] at h; exact Script.Lands.wellFormed hl ⟨_, h⟩
  | present hp h => rw [he] at h; exact Script.Lands.wellFormed hl ⟨_, h⟩
  | ask hp h => rw [he] at h; exact Script.Lands.wellFormed hl ⟨_, _, _, _, h⟩
  | say hp h => rw [he] at h; exact Script.Lands.wellFormed hl ⟨_, h⟩
  | settle hp =>
    obtain ⟨o, ho⟩ := hf.output (.inr hp)
    exact moveOn_wellFormed ho []
  | enter hp =>
    obtain ⟨kind, condition, children, complete, hblock⟩ := hf.block hp
    exact Script.Lands.wellFormed (lands_descend hblock) trivial
  | leave hp h => rw [he] at h; exact moveOn_wellFormed h _
  | submit hp h => rw [he] at h; exact Script.Lands.wellFormed hl ⟨_, h⟩
  | accept hp h => rw [he] at h; exact moveOn_wellFormed h _
  | refuse hp => exact Script.Lands.wellFormed hl trivial

theorem rejection_explained {s : State} {event : Event} {r : Rejection} (hs : s.WellFormed script)
    (h : transition script s event = .error r) : r.Explained s event := by
  have hf := hs.fits
  have he := hs.exact
  unfold transition at h
  split at h
  · cases h
  · rename_i hp
    obtain ⟨o, ho⟩ := hf.output (.inl hp)
    rw [he, ho] at h
    cases h
  · cases h
  · cases h
  · rename_i hp
    obtain ⟨kind, condition, children, complete, hblock⟩ := hf.block hp
    rw [he, hblock] at h
    cases h
  · rename_i text turn hp
    obtain ⟨i, hi⟩ := hf.input (.inl hp)
    split at h
    · rw [he, hi] at h
      cases h
    · rename_i ht
      cases h; exact .turn hp ht
  · rename_i hp
    cases h
    exact .notAwaiting hp
  · rename_i hp
    obtain ⟨i, hi⟩ := hf.input (.inr ⟨_, hp⟩)
    rw [he, hi] at h
    cases h
  · cases h
  · rename_i h₁ h₂ h₃ h₄ h₅ h₆ h₇ h₈ h₉
    cases h
    refine .phase (fun ha => ?_) h₁
    generalize hp : s.phase = phase at ha
    cases ha with
    | drive => exact h₂ hp rfl
    | text text => exact h₃ text hp rfl
    | settled => exact h₄ hp rfl
    | condition holds =>
      cases holds with
      | true => exact h₅ hp rfl
      | false => exact h₆ hp rfl
    | submission text turn => exact h₇ text turn hp rfl
    | passed text => exact h₈ text hp rfl
    | failed text errorText => exact h₉ text errorText hp rfl

theorem initial_wellFormed (script : Script κ) : State.initial.WellFormed script :=
  Script.Lands.wellFormed (lands_start script) trivial

end

theorem Reachable.wellFormed {script : Script κ} {s : State} (h : Reachable script s) :
    s.WellFormed script := by
  induction h with
  | initial => exact initial_wellFormed script
  | step _ ht ih => exact moves_wellFormed ih (transition_moves ht)

/-- **Well-formedness.** Every reachable state is well formed, a completed one is at the end and
accepts nothing further, and no rejection comes from the form of a step. -/
theorem reachable_wellFormed {script : Script κ} {s : State} (h : Reachable script s) :
    s.WellFormed script ∧
      (s.phase = .completed → s.position = [script.steps.length] ∧
        ∀ event, ∃ r, transition script s event = .error r) ∧
      (∀ event r, transition script s event = .error r → r.Explained s event) ∧
      ∀ event expected at', transition script s event ≠ .error (.unexpectedStep expected at') := by
  have hs := h.wellFormed
  refine ⟨hs, fun hp => ⟨?_, fun event => ?_⟩, fun event r => rejection_explained hs, ?_⟩
  · have hf := hs.fits
    simpa only [State.Fits, hp] using hf
  · cases ht : transition script s event with
    | error r => exact ⟨r, rfl⟩
    | ok t =>
      have hm := transition_moves ht
      cases hm <;> simp_all
  · intro event expected at' hr
    cases rejection_explained hs hr

def survey : Script Unit where
  steps := [.block .loop () [.input ⟨"pet", [⟨some (), .literal "Which one?"⟩], none⟩,
    .block .branch () [.input ⟨"toy", [], some ()⟩] (some ())] none]
  complete := some ()
  filled := rfl

theorem reachable_survey : Reachable survey ⟨[0, 1, 0], .awaitingInput, 2⟩ := by
  have step {s t : State} {effects : List (Effect Unit)} (event : Event) (h : Reachable survey s)
      (ht : transition survey s event = .ok ⟨t, effects⟩) : Reachable survey t := .step h ht
  have h₁ : Reachable survey ⟨[0, 0], .awaitingInput, 1⟩ :=
    step .drive (step (.conditionEvaluated true) (step .drive .initial rfl) rfl) rfl
  have h₂ : Reachable survey ⟨[0, 1], .running, 1⟩ :=
    step .validationPassed (step (.submitted "cat" 1) h₁ rfl) rfl
  exact step .drive (step (.conditionEvaluated true) (step .drive h₂ rfl) rfl) rfl

theorem wellFormed_in_branch :
    Reachable survey ⟨[0, 1, 0], .awaitingInput, 2⟩ ∧
      State.WellFormed survey ⟨[0, 1, 0], .awaitingInput, 2⟩ ∧
      (Rejection.staleSubmission 1 2).Explained ⟨[0, 1, 0], .awaitingInput, 2⟩
        (.submitted "ball" 1) := by
  obtain ⟨hw, _, he, _⟩ := reachable_wellFormed reachable_survey
  exact ⟨reachable_survey, hw, he _ _ rfl⟩

end Dialogue
