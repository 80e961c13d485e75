import Dialogue.Proofs.Conversation

/-!
# Moments

A conversation moment by moment: each of its marks with the session as it is then. Performing an
effect either asks the host, which leaves the session as it is, or changes it and tells observers of
that, first by a notice and then by the new view. What holds at every moment of a conversation is
proved for these two, and then for effects, turns and conversations.
-/

namespace Dialogue

variable {κ W : Type}

structure Moment (κ : Type) where
  mark : Mark κ
  session : Session κ

/-! ## The moments of a conversation -/

namespace Session

/-- An occurrence of an effect that leads from one session to another. The notice of a change comes
before the new view; whatever is asked is asked of the session as it was. -/
def moment (before after : Session κ) (o : Occurrence κ) : Moment κ :=
  ⟨.occurred o,
    match o with
    | .notified _ => { after with published := before.published }
    | .published _ => after
    | _ => before⟩

def effectMoments (host : Host κ W) : List (Effect κ) → Session κ → W → List (Moment κ)
  | [], _, _ => []
  | effect :: effects, s, world =>
    let first := s.perform host world effect
    first.history.map (s.moment first.session) ++
      match first.outcome with
      | .ok _ => effectMoments host effects first.session first.world
      | .error failure =>
        let halted := first.session.halt
        (halted.told (.failed failure.message)).map (first.session.moment halted.publish)

def eventMoments (host : Host κ W) (s : Session κ) (world : W) (event : Event) :
    List (Moment κ) :=
  if s.halted then []
  else match transition s.script s.state event with
    | .ok t => effectMoments host t.effects { s with state := t.state } world
    | .error _ => []

end Session

def Stage.returnMoments (stage : Stage κ W) : List (Moment κ) :=
  match stage.next with
  | .again _ => []
  | .returns result => [⟨.returned result, stage.session⟩]

namespace Conversation

def turnMoments (host : Host κ W) (c : Conversation κ W) : List (Moment κ) :=
  match c.event? with
  | none => []
  | some (event, _) => c.session.eventMoments host c.world event ++
      (c.session.receive host c.world event).returnMoments

def moments (host : Host κ W) (c : Conversation κ W) : Nat → List (Moment κ)
  | 0 => []
  | n + 1 => c.moments host n ++ (c.after host n).turnMoments host

end Conversation

def Throughout (P : List (Mark κ) → Moment κ → Prop) (marks : List (Mark κ))
    (moments : List (Moment κ)) : Prop :=
  ∀ before m later, moments = before ++ m :: later → P (marks ++ before.map Moment.mark) m

section
variable {P : List (Mark κ) → Moment κ → Prop} {marks : List (Mark κ)} {a b : List (Moment κ)}

theorem Throughout.nil : Throughout P marks [] := by
  intro before m later h
  simp at h

theorem Throughout.cons {m : Moment κ} (hm : P marks m) (h : Throughout P (marks ++ [m.mark]) a) :
    Throughout P marks (m :: a) := by
  intro before m' later he
  cases before with
  | nil =>
    cases he
    simpa using hm
  | cons e before =>
    cases he
    simpa using h before m' later rfl

theorem Throughout.append (ha : Throughout P marks a)
    (hb : Throughout P (marks ++ a.map Moment.mark) b) : Throughout P marks (a ++ b) := by
  induction a generalizing marks with
  | nil => simpa using hb
  | cons m a ih =>
    have hm : P marks m := by simpa using ha [] m a rfl
    have ha' : Throughout P (marks ++ [m.mark]) a := by
      intro before m' later he
      simpa using ha (m :: before) m' later (congrArg (m :: ·) he)
    refine Throughout.cons hm (ih ha' ?_)
    simpa using hb

end

/-! ## Readings -/

def Mark.occurrence? : Mark κ → Option (Occurrence κ)
  | .occurred o => some o
  | .returned _ => none

def occurrences (marks : List (Mark κ)) : List (Occurrence κ) :=
  marks.filterMap Mark.occurrence?

@[simp] theorem occurrences_append (a b : List (Mark κ)) :
    occurrences (a ++ b) = occurrences a ++ occurrences b :=
  List.filterMap_append

@[simp] theorem occurrences_occurred (history : List (Occurrence κ)) :
    occurrences (history.map .occurred) = history := by
  simp [occurrences, List.filterMap_map, Function.comp_def, Mark.occurrence?]

@[simp] theorem occurrences_returned (result : CallResult) :
    occurrences [(.returned result : Mark κ)] = [] := rfl

@[simp] theorem occurrences_stage (stage : Stage κ W) :
    occurrences stage.marks = stage.history := by
  unfold Stage.marks
  cases stage.next <;> simp

/-! ## Asking and telling -/

open Session

section
variable {P : List (Mark κ) → Moment κ → Prop} {marks : List (Mark κ)} {s : Session κ}

theorem moment_asking {o : Occurrence κ} (ho : o.isAsking = true) (after : Session κ) :
    s.moment after o = ⟨.occurred o, s⟩ := by
  cases o with
  | called call reply => rfl
  | slept millis => rfl
  | _ => cases ho

theorem throughout_asking {J : List (Mark κ) → Prop} (h : ∀ {marks : List (Mark κ)}
    {o : Occurrence κ}, J marks → o.isAsking = true →
      P marks ⟨.occurred o, s⟩ ∧ J (marks ++ [.occurred o])) :
    ∀ {history : List (Occurrence κ)} {marks : List (Mark κ)}, Asking history → J marks →
      Throughout P marks (history.map (s.moment s)) ∧ J (marks ++ history.map .occurred)
  | [], marks, _, hj => ⟨.nil, by simpa using hj⟩
  | o :: history, marks, ha, hj => by
    have ho : o.isAsking = true := ha o List.mem_cons_self
    obtain ⟨hp, hj⟩ := h hj ho
    obtain ⟨hrest, hj⟩ := throughout_asking h (fun o ho => ha o (List.mem_cons_of_mem _ ho)) hj
    refine ⟨?_, by simpa using hj⟩
    rw [List.map_cons, moment_asking ho]
    exact .cons hp hrest

theorem throughout_telling {notice : Notice}
    (hn : P marks ⟨.occurred (.notified notice), { s.noting notice with published := s.published }⟩)
    (hp : P (marks ++ [.occurred (.notified notice)])
      ⟨.occurred (.published (s.noting notice).view), (s.noting notice).publish⟩) :
    Throughout P marks
      (((s.noting notice).told notice).map (s.moment (s.noting notice).publish)) :=
  .cons hn (.cons hp .nil)

end

section
variable {host : Host κ W} {s : Session κ} {world : W} {effect : Effect κ}

theorem effectMoments_cons_ok {answer : Option Event}
    (h : (s.perform host world effect).outcome = .ok answer) (effects : List (Effect κ)) :
    effectMoments host (effect :: effects) s world =
      (s.perform host world effect).history.map (s.moment (s.perform host world effect).session) ++
        effectMoments host effects (s.perform host world effect).session
          (s.perform host world effect).world := by
  rw [effectMoments, h]

theorem effectMoments_cons_error {failure : Failure}
    (h : (s.perform host world effect).outcome = .error failure) (effects : List (Effect κ)) :
    effectMoments host (effect :: effects) s world =
      let first := s.perform host world effect
      first.history.map (s.moment first.session) ++
        (first.session.halt.told (.failed failure.message)).map
          (first.session.moment first.session.halt.publish) := by
  rw [effectMoments, h]

end

/-- What holds of a session after some marks, `J`, is kept by asking and by telling, and meanwhile
`P` holds of every moment. -/
structure Keeps (J : List (Mark κ) → Session κ → Prop) (P : List (Mark κ) → Moment κ → Prop) :
    Prop where
  asks : ∀ {marks : List (Mark κ)} {s : Session κ} {o : Occurrence κ}, J marks s →
    o.isAsking = true → P marks ⟨.occurred o, s⟩ ∧ J (marks ++ [.occurred o]) s
  tells : ∀ {marks : List (Mark κ)} {s : Session κ} (notice : Notice), J marks s →
    let told := Mark.occurred (.notified notice)
    let shown := Mark.occurred (.published (s.noting notice).view)
    P marks ⟨told, { s.noting notice with published := s.published }⟩ ∧
      P (marks ++ [told]) ⟨shown, (s.noting notice).publish⟩ ∧
        J (marks ++ [told, shown]) (s.noting notice).publish

namespace Keeps

variable {J : List (Mark κ) → Session κ → Prop} {P : List (Mark κ) → Moment κ → Prop}
  {marks : List (Mark κ)} {s : Session κ}

theorem telling (h : Keeps J P) (notice : Notice) (hj : J marks s) :
    Throughout P marks (((s.noting notice).told notice).map (s.moment (s.noting notice).publish)) ∧
      J (marks ++ ((s.noting notice).told notice).map .occurred) (s.noting notice).publish := by
  obtain ⟨hn, hp, hj⟩ := h.tells notice hj
  exact ⟨throughout_telling hn hp, hj⟩

theorem performing (h : Keeps J P) (host : Host κ W) (world : W) (effect : Effect κ)
    (hj : J marks s) :
    Throughout P marks ((s.perform host world effect).history.map
      (s.moment (s.perform host world effect).session)) ∧
        J (marks ++ (s.perform host world effect).history.map .occurred)
          (s.perform host world effect).session := by
  cases hn : s.effectNotice? effect with
  | none =>
    obtain ⟨ha, hs⟩ := perform_asks host hn world
    rw [hs]
    exact throughout_asking (J := (J · s)) h.asks ha hj
  | some notice =>
    rw [perform_announces host hn]
    exact h.telling notice hj

theorem effects (h : Keeps J P) (host : Host κ W) : ∀ (effects : List (Effect κ))
    (event : Option Event) {s : Session κ} (world : W) {marks : List (Mark κ)}, J marks s →
      Throughout P marks (effectMoments host effects s world) ∧
        J (marks ++ (carry host effects event s world).history.map .occurred)
          (carry host effects event s world).session
  | [], event, s, world, marks, hj => by
    obtain ⟨next, hc, _⟩ := carry_nil host event s world
    refine ⟨.nil, ?_⟩
    rw [hc]
    simpa using hj
  | effect :: effects, event, s, world, marks, hj => by
    obtain ⟨hfirst, hj⟩ := h.performing host world effect hj
    cases ho : (s.perform host world effect).outcome with
    | error failure =>
      obtain ⟨hlast, hj⟩ := h.telling (.failed failure.message) hj
      rw [carry_cons_error host ho, effectMoments_cons_error ho]
      refine ⟨hfirst.append ?_, ?_⟩
      · rw [List.map_map]
        exact hlast
      · rw [List.map_append, ← List.append_assoc]
        exact hj
    | ok answer =>
      obtain ⟨hrest, hj⟩ := h.effects host effects (answer.or event)
        (s.perform host world effect).world hj
      rw [carry_cons_ok host ho, effectMoments_cons_ok ho]
      refine ⟨hfirst.append ?_, by simpa [Stage.after] using hj⟩
      rw [List.map_map]
      exact hrest

end Keeps

/-! ## Coming to rest -/

/-- When a conversation comes to wait or to its end, the host is asked at most, and then observers
are told once: of the status, or of a failure at the end. -/
structure ComesToRest (s : Session κ) (moments : List (Moment κ)) (stage : Stage κ W)
    (asked : List (Occurrence κ)) (notice : Notice) : Prop where
  asking : Asking asked
  moments : moments = asked.map (s.moment s) ++
    ((s.noting notice).told notice).map (s.moment (s.noting notice).publish)
  history : stage.history = asked ++ (s.noting notice).told notice
  session : stage.session = (s.noting notice).publish
  next : notice = .statusChanged s.state.status ∧ stage.next = .returns (.ok ()) ∨
    s.state.phase = .completed ∧ ∃ failure,
      notice = .failed failure.message ∧ stage.next = .returns (.error (.callback failure))

section
variable (host : Host κ W) {s : Session κ}

theorem carry_publish (hp : s.state.phase ≠ .running) (status : Status) (world : W) :
    carry host [.publishStatus status] none s world =
      ⟨s.told (.statusChanged status), s.publish, world, .returns (.ok ())⟩ := by
  have hnil : carry host [] none s.publish world = ⟨[], s.publish, world, .returns (.ok ())⟩ :=
    carry_nil_resting host (s := s.publish) hp world
  rw [carry_cons_ok host rfl]
  exact congrArg (Stage.after · _) hnil

theorem publish_rests (hp : s.state.phase ≠ .running) (world : W) :
    ComesToRest s (effectMoments host [.publishStatus s.state.status] s world)
      (carry host [.publishStatus s.state.status] none s world) []
      (.statusChanged s.state.status) :=
  ⟨nofun, rfl, by rw [carry_publish host hp]; rfl, by rw [carry_publish host hp]; rfl,
    .inl ⟨rfl, by rw [carry_publish host hp]⟩⟩

theorem finish_rests (hp : s.state.phase = .completed) (world : W) :
    let effects : List (Effect κ) := [.runFormHook, .publishStatus .completed]
    ∃ asked notice, ComesToRest s (effectMoments host effects s world)
      (carry host effects none s world) asked notice := by
  intro effects
  have hnone : s.effectNotice? .runFormHook = none := rfl
  obtain ⟨ha, hs⟩ := perform_asks host hnone world
  cases ho : (s.perform host world .runFormHook).outcome with
  | error failure =>
    have hcarry : carry host effects none s world =
        ⟨(s.perform host world .runFormHook).history ++ s.halt.told (.failed failure.message),
          s.halt.publish, (s.perform host world .runFormHook).world,
          .returns (.error (.callback failure))⟩ := by
      rw [carry_cons_error host ho]
      simp only [hs]
    refine ⟨_, .failed failure.message, ha, ?_, ?_, ?_, .inr ⟨hp, failure, rfl, ?_⟩⟩
    · rw [effectMoments_cons_error ho]
      simp only [hs]
      rfl
    · rw [hcarry]
      rfl
    · rw [hcarry]
      rfl
    · rw [hcarry]
  | ok answer =>
    obtain rfl : answer = none := perform_quiet rfl ho
    have hne : s.state.phase ≠ .running := by simp [hp]
    have hstatus : s.state.status = .completed := by simp [State.status, hp, Phase.status]
    have hcarry : carry host effects none s world =
        ⟨(s.perform host world .runFormHook).history ++ s.told (.statusChanged .completed),
          s.publish, (s.perform host world .runFormHook).world, .returns (.ok ())⟩ := by
      rw [carry_cons_ok host ho, hs, Option.or_none, carry_publish host hne]
      rfl
    refine ⟨_, .statusChanged .completed, ha, ?_, ?_, ?_, .inl ⟨by rw [hstatus], ?_⟩⟩
    · rw [effectMoments_cons_ok ho, hs]
      rfl
    · rw [hcarry]
      rfl
    · rw [hcarry]
      rfl
    · rw [hcarry]

end

/-! ## Marks of moments -/

theorem effectMoments_marks (host : Host κ W) : ∀ (effects : List (Effect κ))
    (event : Option Event) (s : Session κ) (world : W),
      (effectMoments host effects s world).map Moment.mark =
        (carry host effects event s world).history.map .occurred
  | [], event, s, world => by
    obtain ⟨next, hc, _⟩ := carry_nil host event s world
    rw [hc]
    rfl
  | effect :: effects, event, s, world => by
    cases ho : (s.perform host world effect).outcome with
    | error failure =>
      rw [carry_cons_error host ho, effectMoments_cons_error ho, List.map_append,
        List.map_append, List.map_map, List.map_map]
      rfl
    | ok answer =>
      have ih := effectMoments_marks host effects (answer.or event)
        (s.perform host world effect).session (s.perform host world effect).world
      rw [carry_cons_ok host ho, effectMoments_cons_ok ho, List.map_append, List.map_map,
        Stage.after, List.map_append]
      exact congrArg _ ih

theorem Stage.marks_returnMoments (stage : Stage κ W) :
    stage.marks = stage.history.map .occurred ++ stage.returnMoments.map Moment.mark := by
  unfold Stage.marks Stage.returnMoments
  cases stage.next <;> rfl

theorem eventMoments_of_halted (host : Host κ W) {s : Session κ} (hh : s.halted = true) (world : W)
    (event : Event) : s.eventMoments host world event = [] := by
  simp [eventMoments, hh]

theorem eventMoments_of_ok (host : Host κ W) {s : Session κ} {event : Event} {t : Transition κ}
    (hh : s.halted = false) (ht : transition s.script s.state event = .ok t) (world : W) :
    s.eventMoments host world event =
      effectMoments host t.effects { s with state := t.state } world := by
  simp [eventMoments, hh, ht]

theorem eventMoments_of_error (host : Host κ W) {s : Session κ} {event : Event} {r : Rejection}
    (ht : transition s.script s.state event = .error r) (world : W) :
    s.eventMoments host world event = [] := by
  simp [eventMoments, ht]

namespace Conversation

variable {host : Host κ W} {c : Conversation κ W}

inductive Scene (host : Host κ W) (c : Conversation κ W) :
    List (Moment κ) → Conversation κ W → Prop
  | idle (h : c.event? = none) : Scene host c [] c
  | declined {event : Event} {requests : List Request} {e : CallError}
    (h : c.event? = some (event, requests))
    (hd : c.session.halted = true ∨
      ∃ r, transition c.session.script c.session.state event = .error r) :
    Scene host c [⟨.returned (.error e), c.session⟩]
      ⟨c.session, c.world, none, requests, c.marks ++ [.returned (.error e)], c.chronicle⟩
  | taken {event : Event} {requests : List Request} {t : Transition κ}
    (h : c.event? = some (event, requests)) (hh : c.session.halted = false)
    (ht : transition c.session.script c.session.state event = .ok t) :
    Scene host c (effectMoments host t.effects { c.session with state := t.state } c.world ++
        (c.session.react host c.world event).returnMoments)
      (staged (c.session.react host c.world event) requests c.marks
        ((c.session.state, event) :: c.chronicle))

theorem next_scene (host : Host κ W) (c : Conversation κ W) :
    c.Scene host (c.turnMoments host) (c.next host) := by
  rw [next, turnMoments]
  cases he : c.event? with
  | none => exact .idle he
  | some p =>
    obtain ⟨event, requests⟩ := p
    by_cases hh : c.session.halted = true
    · simp only [receive_halted hh, eventMoments_of_halted host hh, Session.entered, if_pos hh]
      exact .declined he (.inl hh)
    · have hh' : c.session.halted = false := Bool.eq_false_iff.mpr hh
      simp only [receive_live hh', Session.entered, if_neg hh]
      cases ht : transition c.session.script c.session.state event with
      | error rejection =>
        rw [Session.react_of_error host ht, eventMoments_of_error host ht]
        exact .declined he (.inr ⟨rejection, ht⟩)
      | ok t =>
        rw [eventMoments_of_ok host hh' ht]
        exact .taken he hh' ht

theorem Scene.marks {moments : List (Moment κ)} {c' : Conversation κ W}
    (h : c.Scene host moments c') : c'.marks = c.marks ++ moments.map Moment.mark := by
  cases h with
  | idle => simp
  | declined => rfl
  | taken _ _ ht =>
    rw [List.map_append, effectMoments_marks host _ none, ← react_of_ok host ht,
      ← Stage.marks_returnMoments]
    rfl

theorem moments_marks (host : Host κ W) (c : Conversation κ W) (n : Nat) :
    (c.after host n).marks = c.marks ++ (c.moments host n).map Moment.mark := by
  induction n with
  | zero => simp [after, moments]
  | succ n ih =>
    have hm := (next_scene host (c.after host n)).marks
    rw [after, hm, ih, moments, List.map_append, List.append_assoc]

/-- What a request under way goes on with is accepted, so it is not declined any more. -/
structure Going (script : Script κ) (c : Conversation κ W) : Prop where
  kept : c.session.script = script
  reachable : Reachable script c.session.state
  accepts : ∀ event, c.pending = some event → c.session.halted = false ∧
    ∃ t, transition c.session.script c.session.state event = .ok t

theorem opened_going (script : Script κ) (settings : Settings) (world : W)
    (requests : List Request) : (opened script settings world requests).Going script :=
  ⟨rfl, .initial, nofun⟩

theorem Going.idle_of_declined {script : Script κ} (h : c.Going script) {event : Event}
    {requests : List Request} (he : c.event? = some (event, requests))
    (hd : c.session.halted = true ∨
      ∃ r, transition c.session.script c.session.state event = .error r) : c.pending = none := by
  cases hp : c.pending with
  | none => rfl
  | some later =>
    obtain ⟨hh, t, ht⟩ := h.accepts later hp
    simp only [event?, hp, Option.some.injEq, Prod.mk.injEq] at he
    obtain ⟨rfl, -⟩ := he
    rcases hd with hd | ⟨r, hr⟩
    · rw [hh] at hd
      cases hd
    · rw [ht] at hr
      cases hr

theorem scene_going {script : Script κ} {moments : List (Moment κ)} {c' : Conversation κ W}
    (h : c.Going script) (hc : c.Scene host moments c') : c'.Going script := by
  cases hc with
  | idle => exact h
  | declined => exact ⟨h.kept, h.reachable, nofun⟩
  | @taken event requests t he hh ht =>
    have hs : (c.session.react host c.world event).Sound script :=
      react_sound h.kept h.reachable hh ht c.world
    refine ⟨hs.kept, hs.reachable, fun later hp => ?_⟩
    cases hn : (c.session.react host c.world event).next with
    | returns result => simp [staged, Stage.pending?, hn] at hp
    | again later' =>
      simp only [staged, Stage.pending?, hn, Option.some.injEq] at hp
      subst hp
      exact ⟨(hs.again _ hn).1, hs.accepts hn⟩

theorem after_going (host : Host κ W) {script : Script κ} (h : c.Going script) (n : Nat) :
    (c.after host n).Going script := by
  induction n with
  | zero => exact h
  | succ n ih => exact scene_going ih (next_scene host _)

theorem after_throughout (host : Host κ W) {I : Conversation κ W → Prop}
    {P : List (Mark κ) → Moment κ → Prop} (h : I c)
    (step : ∀ c moments c', I c → c.Scene host moments c' →
      I c' ∧ Throughout P c.marks moments) (n : Nat) :
    I (c.after host n) ∧ Throughout P c.marks (c.moments host n) := by
  induction n with
  | zero => exact ⟨h, .nil⟩
  | succ n ih =>
    obtain ⟨hi, hp⟩ := ih
    obtain ⟨hi', hp'⟩ := step _ _ _ hi (next_scene host (c.after host n))
    rw [moments_marks] at hp'
    exact ⟨hi', hp.append hp'⟩

end Conversation

end Dialogue
