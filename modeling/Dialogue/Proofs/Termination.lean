import Dialogue.Proofs.Chronicle
import Dialogue.Proofs.Stages

/-!
# Termination

How long a conversation can go on. What a state has still to do is counted by the steps that control
can meet before a loop is entered once more: each takes three events at most. Every event uses up
one of them, save that a loop that is entered adds at most the whole script and a refusal adds one
more attempt. So a run of which loops and refusals are bounded is itself bounded, and because a
state that is not complete always has an event to go on with, it completes.
-/

namespace Dialogue

variable {κ : Type}

/-! ## Sizes -/

mutual

def Step.size : Step κ → Nat
  | .output _ => 1
  | .input _ => 1
  | .block _ _ children _ => sizes children + 1

def sizes : List (Step κ) → Nat
  | [] => 0
  | step :: steps => step.size + sizes steps

end

mutual

/-- The number of steps that control meets in a step if it enters no loop. -/
def Step.span : Step κ → Nat
  | .output _ => 1
  | .input _ => 1
  | .block .branch _ children _ => spans children + 1
  | .block .loop _ _ _ => 1

def spans : List (Step κ) → Nat
  | [] => 0
  | step :: steps => step.span + spans steps

end

mutual

theorem span_le_size : ∀ step : Step κ, step.span ≤ step.size
  | .output _ => Nat.le_refl 1
  | .input _ => Nat.le_refl 1
  | .block .branch _ children _ => by
    rw [Step.span, Step.size]
    exact Nat.succ_le_succ (spans_le_sizes children)
  | .block .loop _ children _ => by
    rw [Step.span, Step.size]
    omega

theorem spans_le_sizes : ∀ steps : List (Step κ), spans steps ≤ sizes steps
  | [] => Nat.le_refl 0
  | step :: steps => by
    rw [spans, sizes]
    exact Nat.add_le_add (span_le_size step) (spans_le_sizes steps)

end

theorem size_le_sizes {step : Step κ} : ∀ {steps : List (Step κ)} {i : Nat},
    steps[i]? = some step → step.size ≤ sizes steps
  | [], _, h => by simp at h
  | other :: steps, 0, h => by
    cases h
    rw [sizes]
    omega
  | other :: steps, i + 1, h => by
    have ih : step.size ≤ sizes steps := size_le_sizes h
    rw [sizes]
    omega

theorem size_resolve? {step : Step κ} : ∀ {steps : List (Step κ)} {p : Position},
    resolve? steps p = some step → step.size ≤ sizes steps
  | _, [], h => by simp [resolve?] at h
  | steps, [i], h => size_le_sizes h
  | steps, i :: j :: p, h => by
    rw [resolve?] at h
    split at h
    · rename_i kind condition children complete hi
      have hblock := size_le_sizes hi
      have ih := size_resolve? h
      rw [Step.size] at hblock
      omega
    · cases h

theorem span_pos (step : Step κ) : 1 ≤ step.span := by
  cases step with
  | block kind condition children complete => cases kind <;> simp [Step.span]
  | _ => exact Nat.le_refl 1

/-! ## Steps to come -/

def revisits (steps : List (Step κ)) (p : Position) : Nat :=
  match resolve? steps p with
  | some (.block .loop _ _ _) => 1
  | _ => 0

/-- The steps to come after one that is given by its indices from the innermost outwards. -/
def stepsBeyond (steps : List (Step κ)) : List Nat → Nat
  | [] => 0
  | i :: up =>
    spans (((bodyAt? steps up.reverse).getD []).drop (i + 1)) + revisits steps up.reverse +
      stepsBeyond steps up

def stepsAfter (steps : List (Step κ)) (p : Position) : Nat := stepsBeyond steps p.reverse

def stepsFrom (steps : List (Step κ)) (p : Position) : Nat :=
  ((resolve? steps p).map Step.span).getD 0 + stepsAfter steps p

section
variable {steps : List (Step κ)} {p : Position} {body : List (Step κ)}

theorem stepsAfter_snoc (hb : bodyAt? steps p = some body) (i : Nat) :
    stepsAfter steps (p ++ [i]) =
      spans (body.drop (i + 1)) + revisits steps p + stepsAfter steps p := by
  simp [stepsAfter, stepsBeyond, hb]

theorem stepsFrom_snoc (hb : bodyAt? steps p = some body) (i : Nat) :
    stepsFrom steps (p ++ [i]) = spans (body.drop i) + revisits steps p + stepsAfter steps p := by
  rw [stepsFrom, stepsAfter_snoc hb, resolve?_snoc, hb]
  by_cases hi : i < body.length
  · rw [List.drop_eq_getElem_cons hi, spans]
    simp [List.getElem?_eq_getElem hi]
    omega
  · have hle : body.length ≤ i := Nat.le_of_not_lt hi
    rw [List.drop_eq_nil_of_le hle, List.drop_eq_nil_of_le (Nat.le_succ_of_le hle)]
    simp [List.getElem?_eq_none hle]

theorem stepsFrom_of_resolve? {step : Step κ} (h : resolve? steps p = some step) :
    stepsFrom steps p = step.span + stepsAfter steps p := by
  rw [stepsFrom, h]
  rfl

theorem stepsFrom_advance {a : Advance} (h : Advances steps p a) :
    stepsFrom steps a.next = stepsAfter steps p := by
  induction h with
  | sibling hb _ => rw [stepsFrom_snoc hb, stepsAfter_snoc hb]
  | @past i _ =>
    have hb : bodyAt? steps [] = some steps := rfl
    rw [← List.nil_append [i + 1], stepsFrom_snoc hb, ← List.nil_append [i], stepsAfter_snoc hb]
  | @again p condition body complete i hp hi =>
    have hend : body.drop (i + 1) = [] := List.drop_eq_nil_of_le (Nat.le_of_eq hi.symm)
    rw [stepsAfter_snoc (bodyAt?_of_block hp), hend, stepsFrom_of_resolve? hp]
    simp [revisits, hp, spans, Step.span]
  | @leave p condition body complete i a hp hi _ ih =>
    have hend : body.drop (i + 1) = [] := List.drop_eq_nil_of_le (Nat.le_of_eq hi.symm)
    rw [stepsAfter_snoc (bodyAt?_of_block hp), hend, ih]
    simp [revisits, hp, spans]

theorem stepsFrom_descend {kind : BlockKind} {condition : κ} {complete : Option κ}
    (h : resolve? steps p = some (.block kind condition body complete)) :
    stepsFrom steps p.descend = spans body + revisits steps p + stepsAfter steps p :=
  stepsFrom_snoc (bodyAt?_of_block h) 0

end

/-! ## Work to do -/

def Step.isLoop : Step κ → Bool
  | .block .loop _ _ _ => true
  | _ => false

def Event.entersLoop (script : Script κ) (s : State) (event : Event) : Bool :=
  event = .conditionEvaluated true && (script.stepAt? s.position).any Step.isLoop

/-- How often the condition of a loop has held. -/
def Chronicle.rounds (script : Script κ) (c : Chronicle) : Nat :=
  c.countP fun e => e.2.entersLoop script e.1

/-- A bound on the events to come while no loop is entered and nothing is refused. -/
def State.work (script : Script κ) (s : State) : Nat :=
  match s.phase with
  | .running => 3 * stepsFrom script.steps s.position + 1
  | .resolvingText | .evaluatingCondition | .awaitingInput =>
    3 * stepsFrom script.steps s.position
  | .settling | .validating _ => 3 * stepsFrom script.steps s.position - 1
  | .completed => 0

section
variable {script : Script κ} {s : State}

theorem work_moveOn {step : Step κ} (h : resolve? script.steps s.position = some step)
    (finish : List (Effect κ)) :
    (moveOn script s finish).state.work script = 3 * stepsAfter script.steps s.position + 1 := by
  have hl := stepsFrom_advance (advance_advances h)
  change 3 * stepsFrom script.steps (advance script.steps s.position).next + 1 = _
  rw [hl]

theorem stepsFrom_pos {step : Step κ} (h : resolve? script.steps s.position = some step) :
    stepsAfter script.steps s.position + 1 ≤ stepsFrom script.steps s.position := by
  have hpos := span_pos step
  rw [stepsFrom_of_resolve? h]
  omega

/-- Control goes into a block: a loop and its body are to be met once more. -/
theorem work_enter {kind : BlockKind} {condition : κ} {children : List (Step κ)}
    {complete : Option κ} (hs : script.stepAt? s.position = resolve? script.steps s.position)
    (h : resolve? script.steps s.position = some (.block kind condition children complete)) :
    3 * stepsFrom script.steps s.position.descend + 2 ≤ 3 * stepsFrom script.steps s.position +
      3 * sizes script.steps * ((Event.conditionEvaluated true).entersLoop script s).toNat := by
  have hsize := size_resolve? h
  have hspans := spans_le_sizes children
  rw [Step.size] at hsize
  rw [stepsFrom_descend h, stepsFrom_of_resolve? h, Event.entersLoop, hs, h]
  cases kind with
  | branch =>
    simp [revisits, h, Step.span, Step.isLoop]
    omega
  | loop =>
    simp [revisits, h, Step.span, Step.isLoop]
    omega

theorem moves_work {event : Event} {t : Transition κ} (hw : s.WellFormed script)
    (h : Moves script s event t) : t.state.work script + 1 ≤ s.work script +
      3 * sizes script.steps * (event.entersLoop script s).toNat + 3 * event.isRefusal.toNat := by
  have hf := hw.fits
  have he := hw.exact
  cases h with
  | finish hp _ =>
    simp only [State.work, hp]
    omega
  | produce hp _ =>
    simp only [State.work, hp]
    omega
  | present hp _ =>
    simp only [State.work, hp]
    omega
  | ask hp _ =>
    simp only [State.work, hp]
    omega
  | say hp h =>
    have hpos := stepsFrom_pos (he ▸ h)
    simp only [State.work, hp]
    omega
  | settle hp =>
    obtain ⟨o, ho⟩ := hf.output (.inr hp)
    have hpos := stepsFrom_pos ho
    rw [work_moveOn ho]
    simp only [State.work, hp]
    omega
  | enter hp =>
    obtain ⟨kind, condition, children, complete, hblock⟩ := hf.block hp
    have henter := work_enter he hblock
    simp only [State.work, hp]
    omega
  | leave hp h =>
    have hpos := stepsFrom_pos (he ▸ h)
    rw [work_moveOn (he ▸ h)]
    simp only [State.work, hp]
    omega
  | submit hp h =>
    have hpos := stepsFrom_pos (he ▸ h)
    simp only [State.work, hp]
    omega
  | accept hp h =>
    have hpos := stepsFrom_pos (he ▸ h)
    rw [work_moveOn (he ▸ h)]
    simp only [State.work, hp]
    omega
  | refuse hp =>
    simp only [State.work, hp, Event.isRefusal, Bool.toNat_true]
    omega

theorem Chronicle.To.length_le {c : Chronicle} (h : Chronicle.To script c s) :
    c.length + s.work script ≤
      3 * sizes script.steps * (c.rounds script + 1) + 3 * c.refusals + 1 := by
  induction h with
  | nil =>
    have hb : bodyAt? script.steps [] = some script.steps := rfl
    have hstart : stepsFrom script.steps .start = spans script.steps := stepsFrom_snoc hb 0
    have hle := spans_le_sizes script.steps
    simp only [State.work, State.initial, hstart, Chronicle.rounds, Chronicle.refusals]
    simp
    omega
  | @cons c s event t hc ht ih =>
    have hm := moves_work hc.reachable.wellFormed (transition_moves ht)
    simp only [Chronicle.rounds, Chronicle.refusals, Chronicle.countP_cons_toNat] at ih ⊢
    rw [Nat.add_right_comm (List.countP _ c) _ 1, Nat.mul_add, List.length_cons]
    omega

end

/-! ## Oracles -/

/-- Whoever answers what a conversation asks. An answer may depend on all events before. -/
structure Oracle (κ : Type) where
  text : Chronicle → Option (Wording κ) → String
  holds : Chronicle → κ → Bool
  -- why the rules refuse the text, if they do
  refuses : Chronicle → List (Rule κ) → String → Option String
  submits : Chronicle → String

structure Play (κ : Type) where
  state : State
  chronicle : Chronicle
  -- the effects of the latest transition, and those of all of them
  latest : List (Effect κ)
  effects : List (Effect κ)

def Effect.completes : Effect κ → Bool
  | .publishStatus .completed => true
  | _ => false

namespace Oracle

def answer (o : Oracle κ) (c : Chronicle) : Effect κ → Option Event
  | .resolveText wording => some (.textResolved (o.text c wording))
  | .settleOutput _ _ => some .outputSettled
  | .evaluateCondition condition => some (.conditionEvaluated (o.holds c condition))
  | .validate rules text =>
    some (match o.refuses c rules text with
      | none => .validationPassed
      | some errorText => .validationFailed errorText)
  | _ => none

def next? (o : Oracle κ) (p : Play κ) : Option Event :=
  match (p.latest.filterMap (o.answer p.chronicle)).getLast? with
  | some event => some event
  | none =>
    match p.state.phase with
    | .running => some .drive
    | .awaitingInput => some (.submitted (o.submits p.chronicle) p.state.prompts)
    | _ => none

def step (o : Oracle κ) (script : Script κ) (p : Play κ) : Play κ :=
  match o.next? p with
  | none => p
  | some event =>
    match transition script p.state event with
    | .error _ => p
    | .ok t => ⟨t.state, (p.state, event) :: p.chronicle, t.effects, p.effects ++ t.effects⟩

def play (o : Oracle κ) (script : Script κ) : Nat → Play κ
  | 0 => ⟨.initial, [], [], []⟩
  | n + 1 => o.step script (o.play script n)

end Oracle

/-! ## Plays -/

/-- The latest effects ask for what the state awaits, and completion has been told of if it is
there, and only then. -/
structure Play.Sound (script : Script κ) (p : Play κ) : Prop where
  chronicle : Chronicle.To script p.chronicle p.state
  latest : Asks p.state.phase p.latest ∨ Quiet p.latest ∧ (p.state.phase = .running ∨
    p.state.phase = .awaitingInput ∨ p.state.phase = .completed)
  completes : p.effects.countP Effect.completes = if p.state.phase = .completed then 1 else 0

section
variable {script : Script κ} {o : Oracle κ}

theorem answer_asking (c : Chronicle) {effect : Effect κ} {phase : Phase}
    (h : effect.asking? = some phase) :
    ∃ event, o.answer c effect = some event ∧ phase.Awaits event ∧ event.Internal := by
  cases effect with
  | resolveText wording => cases h; exact ⟨_, rfl, .text _, nofun⟩
  | settleOutput wait complete => cases h; exact ⟨_, rfl, .settled, nofun⟩
  | evaluateCondition condition => cases h; exact ⟨_, rfl, .condition _, nofun⟩
  | validate rules text =>
    cases h
    rw [Oracle.answer]
    cases o.refuses c rules text with
    | none => exact ⟨_, rfl, .passed text, nofun⟩
    | some errorText => exact ⟨_, rfl, .failed text errorText, nofun⟩
  | _ => cases h

theorem answer_quiet (c : Chronicle) {effect : Effect κ} (h : effect.asking? = none) :
    o.answer c effect = none := by
  cases effect with
  | resolveText wording => cases h
  | settleOutput wait complete => cases h
  | evaluateCondition condition => cases h
  | validate rules text => cases h
  | _ => rfl

theorem answers_asks (c : Chronicle) {phase : Phase} {effects : List (Effect κ)}
    (h : Asks phase effects) : ∃ event, effects.filterMap (o.answer c) = [event] ∧
      phase.Awaits event ∧ event.Internal := by
  induction h with
  | last h =>
    obtain ⟨event, he, ha⟩ := answer_asking c h
    exact ⟨event, by rw [List.filterMap_cons_some he]; rfl, ha⟩
  | cons h _ ih =>
    obtain ⟨event, he, ha⟩ := ih
    exact ⟨event, by rw [List.filterMap_cons_none (answer_quiet c h), he], ha⟩

theorem answers_quiet (c : Chronicle) {effects : List (Effect κ)} (h : Quiet effects) :
    effects.filterMap (o.answer c) = [] :=
  List.filterMap_eq_nil_iff.mpr fun effect he => answer_quiet c (h effect he)

theorem not_asks_completed {effects : List (Effect κ)} : ¬ Asks .completed effects := by
  intro h
  generalize hp : Phase.completed = phase at h
  induction h with
  | @last effect h =>
    subst hp
    cases effect <;> cases h
  | cons _ _ ih => exact ih

theorem Play.Sound.next {p : Play κ} (hp : p.Sound script) (hne : p.state.phase ≠ .completed) :
    ∃ event t, o.next? p = some event ∧ transition script p.state event = .ok t := by
  have hw := hp.chronicle.reachable.wellFormed
  unfold Oracle.next?
  rcases hp.latest with hasks | ⟨hquiet, hphase⟩
  · obtain ⟨event, he, ha, hi⟩ := answers_asks (o := o) p.chronicle hasks
    obtain ⟨t, ht⟩ := accepts_of_awaits hw ha hi
    exact ⟨event, t, by rw [he]; rfl, ht⟩
  · rw [answers_quiet p.chronicle hquiet]
    rcases hphase with hrun | hwait | hdone
    · have ha : p.state.phase.Awaits .drive := by
        rw [hrun]
        exact .drive
      obtain ⟨t, ht⟩ := accepts_of_awaits hw ha nofun
      exact ⟨.drive, t, by simp [hrun], ht⟩
    · obtain ⟨t, ht⟩ := (submission_accepted_iff hw (o.submits p.chronicle) _).mpr ⟨hwait, rfl⟩
      exact ⟨_, t, by simp [hwait], ht⟩
    · exact absurd hdone hne

theorem Play.Sound.over {p : Play κ} (hp : p.Sound script) (hc : p.state.phase = .completed) :
    o.step script p = p := by
  have hnext : o.next? p = none := by
    rcases hp.latest with hasks | ⟨hquiet, _⟩
    · exact absurd (hc ▸ hasks) not_asks_completed
    · simp [Oracle.next?, answers_quiet p.chronicle hquiet, hc]
  rw [Oracle.step, hnext]

theorem completes_hooks (step : String) (complete : Option κ) :
    (Effect.hooks step complete).countP Effect.completes = 0 := by
  cases complete <;> rfl

theorem completes_exitHooks (exited : List Position) :
    (exitHooks script exited).countP Effect.completes = 0 := by
  rw [List.countP_eq_zero]
  intro effect he
  obtain ⟨callback, rfl⟩ := mem_exitHooks he
  exact Bool.false_ne_true

theorem moves_completes {s : State} {event : Event} {t : Transition κ}
    (h : Moves script s event t) :
    t.effects.countP Effect.completes = if t.state.phase = .completed then 1 else 0 := by
  cases h <;> simp [moveOn, completes_hooks, completes_exitHooks, Effect.completes]

theorem Play.Sound.step {p : Play κ} (hp : p.Sound script) : (o.step script p).Sound script := by
  by_cases hc : p.state.phase = .completed
  · rw [hp.over hc]
    exact hp
  · obtain ⟨event, t, hn, ht⟩ := hp.next (o := o) hc
    have hm := transition_moves ht
    simp only [Oracle.step, hn, ht]
    refine ⟨hp.chronicle.cons ht, moves_asks hm, ?_⟩
    rw [List.countP_append, hp.completes, if_neg hc, moves_completes hm, Nat.zero_add]

theorem play_sound (o : Oracle κ) (script : Script κ) (n : Nat) :
    (o.play script n).Sound script := by
  induction n with
  | zero => exact ⟨.nil, .inr ⟨nofun, .inl rfl⟩, rfl⟩
  | succ n ih => exact ih.step

theorem Play.Sound.step_length {p : Play κ} (hp : p.Sound script)
    (hne : p.state.phase ≠ .completed) :
    (o.step script p).chronicle.length = p.chronicle.length + 1 := by
  obtain ⟨event, t, hn, ht⟩ := hp.next (o := o) hne
  simp only [Oracle.step, hn, ht, List.length_cons]

theorem play_goes_on (o : Oracle κ) (script : Script κ) (n : Nat) :
    (o.play script n).state.phase = .completed ∨ (o.play script n).chronicle.length = n := by
  induction n with
  | zero => exact .inr rfl
  | succ n ih =>
    have hp := play_sound o script n
    rw [Oracle.play]
    rcases ih with hc | hl
    · rw [hp.over hc]
      exact .inl hc
    · by_cases hc : (o.play script n).state.phase = .completed
      · rw [hp.over hc]
        exact .inl hc
      · rw [hp.step_length hc, hl]
        exact .inr rfl

end

/-- **Termination.** The length of a run is bounded by the size of the script, the rounds of its
loops and the refusals. A play goes on until it is complete, so one with finitely many rounds and
refusals completes, and it tells so once. -/
theorem play_completes (o : Oracle κ) (script : Script κ) :
    (∀ c s, Chronicle.To script c s → c.length ≤
      3 * sizes script.steps * (c.rounds script + 1) + 3 * c.refusals + 1) ∧
    (∀ n, Chronicle.To script (o.play script n).chronicle (o.play script n).state ∧
      ((o.play script n).state.phase = .completed ∨ (o.play script n).chronicle.length = n)) ∧
    ∀ rounds refusals, (∀ n, (o.play script n).chronicle.rounds script ≤ rounds ∧
        (o.play script n).chronicle.refusals ≤ refusals) →
      ∀ n, 3 * sizes script.steps * (rounds + 1) + 3 * refusals + 1 ≤ n →
        (o.play script n).state.phase = .completed ∧
          (o.play script n).effects.countP Effect.completes = 1 := by
  refine ⟨?_, fun n => ⟨(play_sound o script n).chronicle, play_goes_on o script n⟩, ?_⟩
  · intro c s h
    have hle := h.length_le
    omega
  · intro rounds refusals hfinite n hn
    have hp := play_sound o script n
    have hdone : (o.play script n).state.phase = .completed := by
      by_cases hc : (o.play script n).state.phase = .completed
      · exact hc
      -- one more event would exceed the bound on the length
      · have hl := (play_goes_on o script n).resolve_left hc
        have hlater : (o.play script (n + 1)).chronicle.length = n + 1 := by
          rw [Oracle.play, hp.step_length hc, hl]
        have hle := (play_sound o script (n + 1)).chronicle.length_le
        obtain ⟨hrounds, hrefusals⟩ := hfinite (n + 1)
        have hmul := Nat.mul_le_mul_left (3 * sizes script.steps) (Nat.add_le_add_right hrounds 1)
        omega
    refine ⟨hdone, ?_⟩
    rw [hp.completes, if_pos hdone]

end Dialogue
