import Dialogue.Proofs.Moments

/-!
# Driving

Why a call neither loses an event nor comes to a stand. At most the last of the effects of a
transition is answered, and it is there exactly where the new phase awaits its answer. So no event
comes on top of another, and the next turn takes the one that comes. A call returns only when a
callback has failed, or when the conversation waits or is complete.
-/

namespace Dialogue

variable {κ W : Type}

/-! ## The effect that is answered -/

inductive Phase.Asking : Phase → Prop
  | text : Asking .resolvingText
  | output : Asking .settling
  | condition : Asking .evaluatingCondition
  | rules (text : String) : Asking (.validating text)

structure Transition.AsksLast (t : Transition κ) : Prop where
  last : ∀ before effect after, t.effects = before ++ effect :: after → effect.asking? ≠ none →
    Quiet before ∧ after = []
  phase : ∀ phase : Phase, phase.Asking →
    ((∃ effect ∈ t.effects, effect.asking? = some phase) ↔ t.state.phase = phase)

theorem Effect.asking_phase {effect : Effect κ} {phase : Phase}
    (h : effect.asking? = some phase) : phase.Asking := by
  cases effect with
  | resolveText wording => cases h; exact .text
  | settleOutput wait complete => cases h; exact .output
  | evaluateCondition condition => cases h; exact .condition
  | validate rules text => cases h; exact .rules text
  | _ => cases h

section
variable {phase : Phase} {effects : List (Effect κ)}

theorem Asks.exists_asking (h : Asks phase effects) :
    ∃ effect ∈ effects, effect.asking? = some phase := by
  induction h with
  | last h => exact ⟨_, List.mem_singleton_self _, h⟩
  | cons _ _ ih =>
    obtain ⟨effect, he, hp⟩ := ih
    exact ⟨effect, List.mem_cons_of_mem _ he, hp⟩

theorem Asks.asking (h : Asks phase effects) : phase.Asking := by
  obtain ⟨effect, _, hp⟩ := h.exists_asking
  exact Effect.asking_phase hp

theorem Asks.split (h : Asks phase effects) : ∀ {before : List (Effect κ)} {effect : Effect κ}
    {after : List (Effect κ)}, effects = before ++ effect :: after → effect.asking? ≠ none →
      Quiet before ∧ after = [] ∧ effect.asking? = some phase := by
  induction h with
  | last h =>
    intro before effect after he _
    cases before with
    | nil =>
      cases he
      exact ⟨nofun, rfl, h⟩
    | cons first before => simp at he
  | cons hq _ ih =>
    intro before effect after he hne
    cases before with
    | nil =>
      cases he
      exact absurd hq hne
    | cons first before =>
      cases he
      obtain ⟨hbefore, hafter, hp⟩ := ih rfl hne
      exact ⟨List.forall_mem_cons.mpr ⟨hq, hbefore⟩, hafter, hp⟩

theorem Asks.asking_iff (h : Asks phase effects) (other : Phase) :
    (∃ effect ∈ effects, effect.asking? = some other) ↔ phase = other := by
  constructor
  · rintro ⟨effect, he, ho⟩
    obtain ⟨before, after, hsplit⟩ := List.append_of_mem he
    obtain ⟨_, _, hp⟩ := h.split hsplit (by simp [ho])
    exact Option.some.inj (hp.symm.trans ho)
  · rintro rfl
    exact h.exists_asking

theorem Quiet.none_asking (h : Quiet effects) (phase : Phase) :
    ¬ ∃ effect ∈ effects, effect.asking? = some phase := by
  rintro ⟨effect, he, hp⟩
  rw [h effect he] at hp
  cases hp

theorem moves_asksLast {script : Script κ} {s : State} {event : Event} {t : Transition κ}
    (h : Moves script s event t) : t.AsksLast := by
  rcases moves_asks h with ha | ⟨hq, hp⟩
  · refine ⟨fun before effect after he hne => ?_, fun phase _ => ha.asking_iff phase⟩
    obtain ⟨hbefore, hafter, _⟩ := ha.split he hne
    exact ⟨hbefore, hafter⟩
  · refine ⟨fun before effect after he hne => ?_, fun phase hphase => ?_⟩
    · have hmem : effect ∈ t.effects := he ▸ List.mem_append_right _ List.mem_cons_self
      exact absurd (hq effect hmem) hne
    · refine iff_of_false (hq.none_asking phase) ?_
      rintro rfl
      rcases hp with hp | hp | hp <;> rw [hp] at hphase <;> cases hphase

end

/-! ## The events that answer effects -/

namespace Session

def answering (host : Host κ W) : List (Effect κ) → Session κ → W → List Event
  | [], _, _ => []
  | effect :: effects, s, world =>
    let first := s.perform host world effect
    match first.outcome with
    | .error _ => []
    | .ok event => event.toList ++ answering host effects first.session first.world

section
variable {host : Host κ W} {s : Session κ} {world : W} {effect : Effect κ}

theorem answering_cons_ok {answer : Option Event}
    (h : (s.perform host world effect).outcome = .ok answer) (effects : List (Effect κ)) :
    answering host (effect :: effects) s world = answer.toList ++
      answering host effects (s.perform host world effect).session
        (s.perform host world effect).world := by
  rw [answering]
  simp only [h]

theorem answering_cons_error {failure : Failure}
    (h : (s.perform host world effect).outcome = .error failure) (effects : List (Effect κ)) :
    answering host (effect :: effects) s world = [] := by
  rw [answering]
  simp only [h]

end

theorem answering_quiet (host : Host κ W) : ∀ {effects : List (Effect κ)}, Quiet effects →
    ∀ (s : Session κ) (world : W), answering host effects s world = []
  | [], _, _, _ => rfl
  | effect :: effects, hq, s, world => by
    obtain ⟨hfirst, hrest⟩ := List.forall_mem_cons.mp hq
    cases h : (s.perform host world effect).outcome with
    | error failure => exact answering_cons_error h effects
    | ok answer =>
      obtain rfl : answer = none := perform_quiet hfirst h
      rw [answering_cons_ok h]
      exact answering_quiet host hrest _ _

/-- Where an effect is answered, a failure comes before any event, and an event comes alone. -/
theorem answering_asks (host : Host κ W) {phase : Phase} {effects : List (Effect κ)}
    (ha : Asks phase effects) : ∀ (s : Session κ) (world : W),
      (carry host effects none s world).Fails ∧ answering host effects s world = [] ∨
        ∃ event, (carry host effects none s world).next = .again event ∧
          answering host effects s world = [event] := by
  induction ha with
  | @last effect hq =>
    intro s world
    cases h : (s.perform host world effect).outcome with
    | error failure => exact .inl ⟨carry_fails h _ _, answering_cons_error h _⟩
    | ok answer =>
      obtain ⟨event, rfl, _⟩ := perform_asking hq h
      rw [carry_cons_ok host h, answering_cons_ok h]
      exact .inr ⟨event, rfl, rfl⟩
  | @cons effect effects hq _ ih =>
    intro s world
    cases h : (s.perform host world effect).outcome with
    | error failure => exact .inl ⟨carry_fails h _ _, answering_cons_error h _⟩
    | ok answer =>
      obtain rfl : answer = none := perform_quiet hq h
      have ih := ih (s.perform host world effect).session (s.perform host world effect).world
      rw [carry_cons_ok host h, answering_cons_ok h]
      exact ih

end Session

open Session

/-! ## Turns -/

inductive Stage.Follows (script : Script κ) (stage : Stage κ W) : List Event → Prop
  | failed {failure : Failure} (hh : stage.session.halted = true)
    (hn : stage.next = .returns (.error (.callback failure))) : Follows script stage []
  -- the event that answers them comes next, and it is accepted
  | answered {event : Event} {t : Transition κ} (hh : stage.session.halted = false)
    (hp : stage.session.state.phase.Asking) (hn : stage.next = .again event)
    (ht : transition script stage.session.state event = .ok t) : Follows script stage [event]
  | driven {t : Transition κ} (hh : stage.session.halted = false)
    (hp : stage.session.state.phase = .running) (hn : stage.next = .again .drive)
    (ht : transition script stage.session.state .drive = .ok t) : Follows script stage []
  | rested (hh : stage.session.halted = false)
    (hp : stage.session.state.phase = .awaitingInput ∨ stage.session.state.phase = .completed)
    (hn : stage.next = .returns (.ok ())) : Follows script stage []

section
variable {host : Host κ W} {script : Script κ} {s : Session κ}

theorem react_follows {event : Event} {t : Transition κ} (hs : s.script = script)
    (hr : Reachable script s.state) (hh : s.halted = false)
    (ht : transition s.script s.state event = .ok t) (world : W) :
    (s.react host world event).Follows script
      (answering host t.effects { s with state := t.state } world) := by
  have hsound : (s.react host world event).Sound script := react_sound hs hr hh ht world
  have hstate : (s.react host world event).session.state = t.state :=
    (react_grows host ht world).state
  have haccepts : ∀ later, (s.react host world event).next = .again later →
      ∃ t', transition script (s.react host world event).session.state later = .ok t' := by
    intro later hn
    have h := hsound.accepts hn
    rwa [hsound.kept] at h
  rw [react_of_ok host ht] at hsound hstate haccepts ⊢
  rcases moves_asks (transition_moves ht) with ha | ⟨hq, hp⟩
  · rcases answering_asks host ha { s with state := t.state } world with
      ⟨⟨hf, failure, hn⟩, hnone⟩ | ⟨later, hn, hone⟩
    · rw [hnone]
      exact .failed hf hn
    · obtain ⟨t', ht'⟩ := haccepts later hn
      rw [hone]
      exact .answered (hsound.again later hn).1 (by rw [hstate]; exact ha.asking) hn ht'
  · rw [answering_quiet host hq]
    rcases carry_quiet host hq { s with state := t.state } world with ⟨hf, failure, hn⟩ | ⟨hk, hn⟩
    · exact .failed hf hn
    · rcases hp with hp | hp
      · rw [if_pos hp] at hn
        obtain ⟨t', ht'⟩ := haccepts .drive hn
        exact .driven (hk.trans hh) (by rw [hstate, hp]) hn ht'
      · have hne : t.state.phase ≠ .running := by
          rcases hp with hp | hp <;> simp [hp]
        rw [if_neg hne] at hn
        exact .rested (hk.trans hh) (by rwa [hstate]) hn

end

namespace Conversation

/-- What is pending is never declined, and where an event is accepted, nothing is lost of what
comes of it. -/
structure Driven (host : Host κ W) (script : Script κ) (c : Conversation κ W) : Prop where
  pending : ∀ event, c.pending = some event → c.session.halted = false ∧
    ∃ t, transition script c.session.state event = .ok t
  taken : ∀ event requests t, c.event? = some (event, requests) → c.session.halted = false →
    transition script c.session.state event = .ok t → t.AsksLast ∧
      ∃ stage, stage.session.state = t.state ∧
        c.next host = staged stage requests c.marks ((c.session.state, event) :: c.chronicle) ∧
        stage.Follows script (answering host t.effects { c.session with state := t.state } c.world)

theorem Going.driven {host : Host κ W} {script : Script κ} {c : Conversation κ W}
    (h : c.Going script) : c.Driven host script := by
  refine ⟨fun event hp => ?_, fun event requests t he hh ht => ?_⟩
  · have ha := h.accepts event hp
    rwa [h.kept] at ha
  · rw [← h.kept] at ht
    exact ⟨moves_asksLast (transition_moves ht), c.session.react host c.world event,
      (react_grows host ht c.world).state, next_taken he hh ht,
      react_follows h.kept h.reachable hh ht c.world⟩

end Conversation

/-! ## Calls -/

structure Returned.Rested (r : Returned κ W) : Prop where
  rests : r.session.Rests
  ok : r.result = .ok () → r.session.halted = false ∧
    (r.session.state.phase = .awaitingInput ∨ r.session.state.phase = .completed)

section
variable {host : Host κ W} {script : Script κ} {s : Session κ} {bound : Nat} {world : W}
  {r : Returned κ W}

theorem finish_rested {stage : Stage κ W} (hs : stage.Sound script)
    (hf : ∃ events, stage.Follows script events)
    (h : Session.finish host bound stage = some r) : r.Rested := by
  have step : ∀ (stage : Stage κ W) (event : Event),
      stage.Sound script ∧ (∃ events, stage.Follows script events) → stage.next = .again event →
        (stage.session.react host stage.world event).Sound script ∧
          ∃ events, (stage.session.react host stage.world event).Follows script events := by
    rintro stage event ⟨hs, -⟩ hn
    obtain ⟨t, ht⟩ := hs.accepts hn
    exact ⟨hs.step hn, _, react_follows hs.kept hs.reachable (hs.again event hn).1 ht stage.world⟩
  obtain ⟨last, ⟨hlast, events, hf⟩, hn, hsession⟩ := finish_last step ⟨hs, hf⟩ h
  refine ⟨hsession ▸ (hlast.returns _ hn).2, fun hok => ?_⟩
  rw [← hsession]
  rw [hok] at hn
  cases hf with
  | failed _ hn' => cases hn'.symm.trans hn
  | answered _ _ hn' _ => cases hn'.symm.trans hn
  | driven _ _ hn' _ => cases hn'.symm.trans hn
  | rested hh hp _ => exact ⟨hh, hp⟩

theorem call_rested (hs : s.script = script) (hr : Reachable script s.state) {event : Event}
    (h : s.call host bound world event = some r) :
    (∃ e : CallError, e.Declines ∧ r = ⟨[], s, world, .error e⟩) ∨ r.Rested := by
  rcases call_split h with hdeclined | ⟨hh, t, ht⟩
  · exact .inl hdeclined
  · rw [Session.call, receive_live hh] at h
    exact .inr (finish_rested (react_sound hs hr hh ht world)
      ⟨_, react_follows hs hr hh ht world⟩ h)

theorem Session.Reached.rests {settings : Settings} {w : W} {requests : List Request}
    (h : Session.Reached host script settings world requests s w) :
    s.Rests ∨ Request.start ∉ requests ∧ s.halted = false ∧ s.state = .initial := by
  induction h with
  | fresh => exact .inr ⟨nofun, rfl, rfl⟩
  | @called requests s w bound request r hreached hr ih =>
    obtain ⟨hs, hreach⟩ := hreached.sound
    rw [request_eq] at hr
    rcases call_rested hs hreach hr with ⟨e, hd, rfl⟩ | hrested
    · rcases ih with hrests | ⟨hstart, hh, hinitial⟩
      · exact .inl hrests
      · refine .inr ⟨?_, hh, hinitial⟩
        rw [List.mem_append, List.mem_singleton]
        rintro (hmem | rfl)
        · exact hstart hmem
        · obtain ⟨t, ht⟩ : ∃ t, transition s.script s.state .drive = .ok t := by
            rw [hinitial]
            exact ⟨_, rfl⟩
          exact hd.not_taken (call_accepted hs hreach hh ht hr).2.2
    · exact .inl hrested.rests

end

/-- **Driving.** No event is lost: at most the last effect of a transition is answered, exactly
where the new phase awaits it, and the next turn takes its answer, which is accepted. And no call
comes to a stand: once the session has been started, every call that returns leaves it halted,
waiting or complete, and it returns with success only in the last two cases. -/
theorem drive_lossless (host : Host κ W) (script : Script κ) (settings : Settings) (world : W) :
    (∀ requests n, ((Conversation.opened script settings world requests).after host n).Driven
      host script) ∧
    ∀ requests s w, Session.Reached host script settings world requests s w →
      ∀ bound request r, s.request host bound w request = some r →
        (.start ∈ requests ++ [request] → r.session.Rests) ∧
        (r.result = .ok () → r.session.halted = false ∧
          (r.session.state.phase = .awaitingInput ∨ r.session.state.phase = .completed)) := by
  constructor
  · intro requests n
    exact (Conversation.after_going host
      (Conversation.opened_going script settings world requests) n).driven
  · intro requests s w h bound request r hr
    constructor
    · intro hstart
      rcases (h.called hr).rests with hrests | ⟨hno, _⟩
      · exact hrests
      · exact absurd hstart hno
    · intro hok
      obtain ⟨hs, hreach⟩ := h.sound
      rw [request_eq] at hr
      rcases call_rested hs hreach hr with ⟨e, _, rfl⟩ | hrested
      · cases hok
      · exact hrested.ok hok

end Dialogue
