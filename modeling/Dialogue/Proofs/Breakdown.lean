import Dialogue.Proofs.Lockstep

/-!
# Breakdowns

What the failure of a callback leaves behind. The consultation ends with it, so that the effects
before it are performed and those after it are left out. The session says so, and from then on it
takes no event: whatever the client asks for, it is as it was.
-/

namespace Dialogue

variable {κ W α β : Type}

/-! ## Failed callbacks -/

def Mark.failed : Mark κ → Bool
  | .occurred (.called _ ⟨_, .error _⟩) => true
  | _ => false

def Clean (marks : List (Mark κ)) : Prop :=
  ∀ mark ∈ marks, mark.failed = false

/-- A callback has failed, and nothing has been asked after it. -/
def FailsWith (marks : List (Mark κ)) (role : Role) (source : String) : Prop :=
  ∃ before call reply millis,
    marks = before ++ [.occurred (.called call reply), .occurred (.slept millis)] ∧
      Clean before ∧ call.role = role ∧ reply.result = .error source

/-- A consultation fails if and only if a callback does, with what that callback came to. -/
structure Consulted.Honest (c : Consulted κ W α) : Prop where
  ok : ∀ a, c.result = .ok a → Clean c.marks
  error : ∀ role source, c.result = .error (role, source) → FailsWith c.marks role source

section
variable {a b : List (Mark κ)}

theorem Clean.nil : Clean ([] : List (Mark κ)) := fun _ h => absurd h List.not_mem_nil

theorem Clean.append (ha : Clean a) (hb : Clean b) : Clean (a ++ b) := by
  intro mark hm
  rcases List.mem_append.mp hm with hm | hm
  · exact ha mark hm
  · exact hb mark hm

theorem FailsWith.after {role : Role} {source : String} (h : FailsWith b role source)
    (ha : Clean a) : FailsWith (a ++ b) role source := by
  obtain ⟨before, call, reply, millis, rfl, hc, hr, hs⟩ := h
  exact ⟨a ++ before, call, reply, millis, (List.append_assoc _ _ _).symm, ha.append hc, hr, hs⟩

end

namespace Consulted

theorem Honest.map {c : Consulted κ W α} (h : c.Honest) (f : α → β) : (c.map f).Honest := by
  constructor
  · intro b hb
    cases hc : c.result with
    | ok a => exact h.ok a hc
    | error e => simp [Consulted.map, hc, Except.map] at hb
  · intro role source he
    cases hc : c.result with
    | ok a => simp [Consulted.map, hc, Except.map] at he
    | error e =>
      simp [Consulted.map, hc, Except.map] at he
      exact h.error role source (by rw [hc, he])

theorem Honest.bind {c : Consulted κ W α} {f : α → W → Consulted κ W β} (h : c.Honest)
    (hf : ∀ a w, (f a w).Honest) : (c.bind f).Honest := by
  cases hc : c.result with
  | ok a =>
    have hlater := hf a c.world
    have hclean := h.ok a hc
    rw [bind_ok hc]
    constructor
    · intro b hb
      unfold marks
      rw [List.map_append]
      exact hclean.append (hlater.ok b hb)
    · intro role source he
      unfold marks
      rw [List.map_append]
      exact (hlater.error role source he).after hclean
  | error e =>
    rw [bind_error hc]
    constructor
    · exact nofun
    · intro role source he
      cases he
      exact h.error role source hc

end Consulted

theorem consultFor_honest (call : Call κ) (record : α → Value) (reply : Reply α) (millis : Nat)
    (world : W) : (consultFor call record reply millis world).Honest := by
  obtain ⟨sleep, result⟩ := reply
  cases result with
  | ok a =>
    constructor
    · intro b hb
      simp [Clean, Consulted.marks, consultFor, Reply.map, Except.map, Mark.failed]
    · intro role source he
      cases he
  | error e =>
    constructor
    · intro b hb
      cases hb
    · intro role source he
      cases he
      exact ⟨[], call, _, millis, rfl, .nil, rfl, rfl⟩

theorem honest_closed :
    Consulted.Closed (fun _ _ => True) fun α (c : Consulted κ W α) => c.Honest where
  done _ _ := ⟨fun _ _ => .nil, nofun⟩
  called _ _ _ _ := consultFor_honest _ _ _ _ _
  map f h := h.map f
  bind h hf := h.bind hf

theorem consult_honest (call : Call κ) (record : α → Value) (answer : Reply α × W) :
    (consult call record answer).Honest :=
  consultFor_honest _ _ _ _ _

section
variable (host : Host κ W)

theorem settleOutput_honest (pause : Nat) (complete : Option κ) (answers : Answers) (world : W) :
    (settleOutput host pause complete answers world).Honest := by
  cases complete with
  | none => exact ⟨fun _ _ => by simp [Clean, Consulted.marks, settleOutput, Mark.failed], nofun⟩
  | some callback => exact consultFor_honest _ _ _ _ _

end

/-! ## Effects -/

def Performed.after (p : Performed κ W) (history : List (Occurrence κ)) (answer : Option Event) :
    Performed κ W :=
  ⟨history ++ p.history, p.session, p.world, p.outcome.map (·.or answer)⟩

theorem Performed.ok_of_after {p : Performed κ W} {history : List (Occurrence κ)}
    {answer later : Option Event} (h : (p.after history answer).outcome = .ok later) :
    ∃ answer', p.outcome = .ok answer' := by
  cases hp : p.outcome with
  | ok answer' => exact ⟨answer', rfl⟩
  | error failure => simp [Performed.after, hp, Except.map] at h

theorem Performed.error_of_after {p : Performed κ W} {history : List (Occurrence κ)}
    {answer : Option Event} {failure : Failure}
    (h : (p.after history answer).outcome = .error failure) : p.outcome = .error failure := by
  cases hp : p.outcome with
  | ok answer' => simp [Performed.after, hp, Except.map] at h
  | error failure' => simpa [Performed.after, hp, Except.map] using h

theorem Performed.marks_after (p : Performed κ W) (history : List (Occurrence κ))
    (answer : Option Event) : (p.after history answer).marks = history.map .occurred ++ p.marks :=
  List.map_append

structure Performed.Honest (s : Session κ) (p : Performed κ W) : Prop where
  ok : ∀ answer, p.outcome = .ok answer → Clean p.marks ∧ p.session.halted = s.halted
  error : ∀ failure, p.outcome = .error failure →
    FailsWith p.marks failure.role failure.source ∧ p.session = s

namespace Session

theorem clean_told (s : Session κ) (notice : Notice) :
    Clean ((s.told notice).map .occurred : List (Mark κ)) := by
  simp [Clean, told, Mark.failed]

theorem conclude_honest (s : Session κ) {c : Consulted κ W α} (h : c.Honest)
    (answer : α → Option Event) : (s.conclude c answer).Honest s := by
  constructor
  · intro answer' ha
    cases hc : c.result with
    | ok a => exact ⟨h.ok a hc, rfl⟩
    | error e => simp [conclude, hc] at ha
  · intro failure he
    cases hc : c.result with
    | ok a => simp [conclude, hc] at he
    | error e =>
      simp only [conclude, hc] at he
      cases he
      exact ⟨h.error _ _ hc, rfl⟩

section
variable (host : Host κ W)

theorem perform_honest (s : Session κ) (effect : Effect κ) (world : W) :
    (s.perform host world effect).Honest s := by
  cases effect with
  | resolveText wording =>
    cases wording with
    | none => exact ⟨fun _ _ => ⟨.nil, rfl⟩, nofun⟩
    | some wording =>
      exact s.conclude_honest (honest_closed.wording host s.answers (fun _ _ => trivial) world) _
  | appendMessage speaker text => exact ⟨fun _ _ => ⟨clean_told _ _, rfl⟩, nofun⟩
  | settleOutput wait complete =>
    exact s.conclude_honest (settleOutput_honest host _ complete s.answers world) _
  | evaluateCondition condition => exact s.conclude_honest (consult_honest _ _ _) _
  | validate rules text =>
    exact s.conclude_honest (honest_closed.rules host text s.answers (fun _ _ _ _ => trivial)
      (fun _ _ _ _ => trivial) world) _
  | storeAnswer name value => exact ⟨fun _ _ => ⟨clean_told _ _, rfl⟩, nofun⟩
  | runHook callback step => exact s.conclude_honest (consult_honest _ _ _) _
  | runFormHook =>
    unfold perform
    cases s.script.complete with
    | none => exact ⟨fun _ _ => ⟨.nil, rfl⟩, nofun⟩
    | some callback => exact s.conclude_honest (consult_honest _ _ _) _
  | publishStatus status => exact ⟨fun _ _ => ⟨clean_told _ _, rfl⟩, nofun⟩

theorem performAll_cons_ok {s : Session κ} {world : W} {effect : Effect κ} {answer : Option Event}
    (h : (s.perform host world effect).outcome = .ok answer) (effects : List (Effect κ)) :
    performAll host (effect :: effects) s world = (performAll host effects
      (s.perform host world effect).session (s.perform host world effect).world).after
        (s.perform host world effect).history answer := by
  rw [performAll]
  simp only [h]
  rfl

theorem performAll_cons_error {s : Session κ} {world : W} {effect : Effect κ} {failure : Failure}
    (h : (s.perform host world effect).outcome = .error failure) (effects : List (Effect κ)) :
    performAll host (effect :: effects) s world = s.perform host world effect := by
  rw [performAll]
  simp only [h]

theorem performAll_ok : ∀ {effects : List (Effect κ)} {s : Session κ} {world : W}
    {answer : Option Event}, (performAll host effects s world).outcome = .ok answer →
      Clean (performAll host effects s world).marks ∧
        (performAll host effects s world).session.halted = s.halted
  | [], s, world, answer, _ => ⟨.nil, rfl⟩
  | effect :: effects, s, world, answer, h => by
    have hfirst := s.perform_honest host effect world
    cases he : (s.perform host world effect).outcome with
    | ok answer' =>
      obtain ⟨hclean, hhalted⟩ := hfirst.ok answer' he
      rw [performAll_cons_ok host he] at h ⊢
      obtain ⟨later, hlater⟩ := Performed.ok_of_after h
      obtain ⟨hclean', hhalted'⟩ := performAll_ok hlater
      rw [Performed.marks_after]
      exact ⟨hclean.append hclean', hhalted'.trans hhalted⟩
    | error failure =>
      rw [performAll_cons_error host he, he] at h
      cases h

theorem performAll_grows : ∀ (effects : List (Effect κ)) (s : Session κ) (world : W),
    s.Grows (performAll host effects s world).history (performAll host effects s world).session
  | [], _, _ => grows_of_asking nofun
  | effect :: effects, s, world => by
    have hfirst := perform_grows host s world effect
    cases he : (s.perform host world effect).outcome with
    | ok answer =>
      rw [performAll_cons_ok host he]
      exact hfirst.trans (performAll_grows effects _ _)
    | error failure =>
      rw [performAll_cons_error host he]
      exact hfirst

end

end Session

/-- How performing effects breaks off: those in `done` are performed, the callback of `effect`
fails, and those in `left` are left out. -/
structure Breakdown (host : Host κ W) (effects : List (Effect κ)) (s : Session κ) (world : W) where
  done : List (Effect κ)
  effect : Effect κ
  left : List (Effect κ)
  failure : Failure
  -- what the effects in `done` came to, and then `effect`
  reached : Performed κ W
  failed : Performed κ W
  split : effects = done ++ effect :: left
  reached_eq : Session.performAll host done s world = reached
  failed_eq : reached.session.perform host reached.world effect = failed
  performed : ∃ answer, reached.outcome = .ok answer
  fails : failed.outcome = .error failure
  whole : Session.performAll host effects s world =
    ⟨reached.history ++ failed.history, failed.session, failed.world, failed.outcome⟩

namespace Breakdown

section
variable {host : Host κ W} {effects : List (Effect κ)} {s : Session κ} {world : W}

def session (b : Breakdown host effects s world) : Session κ :=
  b.reached.session.halt.publish

def cons {effect : Effect κ} {answer : Option Event}
    (h : (s.perform host world effect).outcome = .ok answer)
    (b : Breakdown host effects (s.perform host world effect).session
      (s.perform host world effect).world) : Breakdown host (effect :: effects) s world where
  done := effect :: b.done
  effect := b.effect
  left := b.left
  failure := b.failure
  reached := b.reached.after (s.perform host world effect).history answer
  failed := b.failed
  split := congrArg (effect :: ·) b.split
  reached_eq := by rw [Session.performAll_cons_ok host h, b.reached_eq]
  failed_eq := b.failed_eq
  performed := by
    obtain ⟨answer', ha⟩ := b.performed
    refine ⟨answer'.or answer, ?_⟩
    rw [Performed.after, ha]
    rfl
  fails := b.fails
  whole := by
    rw [Session.performAll_cons_ok host h, b.whole, Performed.after, Performed.after, b.fails,
      List.append_assoc]
    rfl

theorem exists_of_error : ∀ {effects : List (Effect κ)} {s : Session κ} {world : W}
    {failure : Failure}, (Session.performAll host effects s world).outcome = .error failure →
      ∃ b : Breakdown host effects s world, b.failure = failure
  | [], s, world, failure, h => by cases h
  | effect :: effects, s, world, failure, h => by
    cases he : (s.perform host world effect).outcome with
    | ok answer =>
      rw [Session.performAll_cons_ok host he] at h
      obtain ⟨b, hb⟩ := exists_of_error (Performed.error_of_after h)
      exact ⟨b.cons he, hb⟩
    | error failure' =>
      have hcons := Session.performAll_cons_error host he effects
      rw [hcons, he] at h
      cases h
      exact ⟨⟨[], effect, effects, failure, ⟨[], s, world, .ok none⟩, _, rfl, rfl, rfl,
        ⟨none, rfl⟩, he, hcons⟩, rfl⟩

theorem failed_honest (b : Breakdown host effects s world) :
    b.failed.Honest b.reached.session := by
  have h := b.reached.session.perform_honest host b.effect b.reached.world
  rwa [b.failed_eq] at h

theorem failed_session (b : Breakdown host effects s world) :
    b.failed.session = b.reached.session :=
  (b.failed_honest.error b.failure b.fails).2

theorem failing (b : Breakdown host effects s world) : ∃ before call reply millis,
    b.failed.marks =
      before ++ [.occurred (.called call reply), .occurred (.slept millis)] ∧
    Clean (b.reached.marks ++ before) ∧ call.role = b.failure.role ∧
      reply.result = .error b.failure.source := by
  obtain ⟨answer, ha⟩ := b.performed
  have hclean : Clean b.reached.marks := by
    have h := b.reached_eq
    exact h ▸ (Session.performAll_ok host (h ▸ ha)).1
  obtain ⟨before, call, reply, millis, hmarks, hbefore, hrole, hsource⟩ :=
    (b.failed_honest.error b.failure b.fails).1
  exact ⟨before, call, reply, millis, hmarks, hclean.append hbefore, hrole, hsource⟩

theorem reached_grows (b : Breakdown host effects s world) :
    s.Grows b.reached.history b.reached.session := by
  have h := Session.performAll_grows host b.done s world
  rwa [b.reached_eq] at h

theorem session_state (b : Breakdown host effects s world) : b.session.state = s.state :=
  b.reached_grows.state

theorem effect_ne_publish (b : Breakdown host effects s world) (status : Status) :
    b.effect ≠ .publishStatus status := by
  intro he
  have h := b.fails
  rw [← b.failed_eq, he] at h
  cases h

/-- When the script is at its end, only its own callback can fail. -/
theorem phase {script : Script κ} {before : State} {event : Event} {t : Transition κ}
    (h : Moves script before event t) (b : Breakdown host t.effects s world) :
    t.state.phase ≠ .awaitingInput ∧ (t.state.phase = .completed ↔ b.effect = .runFormHook) := by
  have hmem : b.effect ∈ t.effects := by
    have hsplit : b.effect ∈ b.done ++ b.effect :: b.left :=
      List.mem_append_right _ List.mem_cons_self
    rwa [← b.split] at hsplit
  have hhas := moves_has h b.effect hmem
  have hpublish := b.effect_ne_publish
  generalize b.effect = effect at hmem hhas hpublish ⊢
  clear b
  cases h with
  | finish =>
    simp only [List.mem_cons, List.not_mem_nil, or_false] at hmem
    rcases hmem with rfl | rfl
    · exact ⟨nofun, fun _ => rfl, fun _ => rfl⟩
    · exact absurd rfl (hpublish _)
  | present => exact absurd (List.mem_singleton.mp hmem) (hpublish _)
  | produce =>
    cases List.mem_singleton.mp hmem
    exact ⟨nofun, nofun, nofun⟩
  | ask =>
    cases List.mem_singleton.mp hmem
    exact ⟨nofun, nofun, nofun⟩
  | _ =>
    refine ⟨by simp [moveOn], by simp [moveOn], fun he => ?_⟩
    subst he
    cases hhas

end

end Breakdown

section
variable {host : Host κ W}

/-! ## Stages -/

theorem react_breaks {s : Session κ} {event : Event} {t : Transition κ} {world : W}
    (ht : transition s.script s.state event = .ok t)
    (b : Breakdown host t.effects { s with state := t.state } world) :
    s.react host world event = ⟨b.reached.history ++ b.failed.history ++
        b.session.told (.failed b.failure.message), b.session, b.failed.world,
      .returns (.error (.callback b.failure))⟩ := by
  unfold Session.react
  rw [ht]
  simp only [b.whole, b.fails, b.failed_session]
  rfl

theorem clean_stage {stage : Stage κ W} (h : Clean (stage.history.map .occurred)) :
    Clean stage.marks := by
  refine h.append ?_
  cases stage.next <;> simp [Clean, Mark.failed]

theorem react_cases (host : Host κ W) {s : Session κ} {event : Event} {t : Transition κ}
    (ht : transition s.script s.state event = .ok t) (world : W) :
    Clean (s.react host world event).marks ∧
        (s.react host world event).session.halted = s.halted ∨
      Nonempty (Breakdown host t.effects { s with state := t.state } world) := by
  cases ho : (Session.performAll host t.effects { s with state := t.state } world).outcome with
  | error failure =>
    obtain ⟨b, _⟩ := Breakdown.exists_of_error ho
    exact .inr ⟨b⟩
  | ok answer =>
    obtain ⟨hclean, hhalted⟩ := Session.performAll_ok host ho
    left
    unfold Session.react
    rw [ht]
    cases answer with
    | some later =>
      simp only [ho]
      exact ⟨clean_stage hclean, hhalted⟩
    | none =>
      simp only [ho]
      exact ⟨clean_stage hclean, hhalted⟩

/-! ## Conversations -/

namespace Conversation

/-- The next turn of a conversation breaks off, at a callback that is entered after the marks in
`before`. -/
structure BreaksOff (host : Host κ W) (c : Conversation κ W) (before : List (Mark κ))
    (call : Call κ) (reply : Reply Value) {t : Transition κ}
    (b : Breakdown host t.effects { c.session with state := t.state } c.world) : Prop where
  taken : ∃ event requests, c.event? = some (event, requests) ∧
    transition c.session.script c.session.state event = .ok t
  role : call.role = b.failure.role
  source : reply.result = .error b.failure.source
  clean : Clean before
  marks : ∃ millis, (c.next host).marks = before ++
    [.occurred (.called call reply), .occurred (.slept millis),
      .occurred (.notified (.failed b.failure.message)), .occurred (.published b.session.view),
      .returned (.error (.callback b.failure))]
  session : (c.next host).session = b.session
  pending : (c.next host).pending = none

/-- Nothing comes of a conversation any more: the session stays as it is, and whatever the client
asks for, it is told that the session is halted. -/
structure Frozen (host : Host κ W) (c : Conversation κ W) : Prop where
  halted : c.session.halted = true
  published : c.session.published = c.session.view
  session : ∀ n, (c.after host n).session = c.session
  marks : ∀ n, (c.after host n).marks =
    c.marks ++ List.replicate (min n c.requests.length) (.returned (.error .halted))
  requests : ∀ bound request, c.session.request host bound c.world request =
    some ⟨[], c.session, c.world, .error .halted⟩

theorem exists_breaksOff {c : Conversation κ W} {event : Event} {requests : List Request}
    {t : Transition κ} (he : c.event? = some (event, requests)) (hh : c.session.halted = false)
    (ht : transition c.session.script c.session.state event = .ok t) (hm : Clean c.marks)
    (b : Breakdown host t.effects { c.session with state := t.state } c.world) :
    ∃ before call reply, c.BreaksOff host before call reply b ∧
      .called call reply ∈ b.failed.history := by
  obtain ⟨before, call, reply, millis, hfailed, hclean, hrole, hsource⟩ := b.failing
  have hnext : c.next host = _ := next_taken he hh ht
  rw [react_breaks ht b] at hnext
  refine ⟨c.marks ++ (b.reached.marks ++ before), call, reply,
    ⟨⟨event, requests, he, ht⟩, hrole, hsource, hm.append hclean, ⟨millis, ?_⟩, ?_, ?_⟩, ?_⟩
  · have hmarks : (c.next host).marks = c.marks ++ ((b.reached.marks ++ b.failed.marks) ++
        (b.session.told (.failed b.failure.message)).map .occurred ++
          [.returned (.error (.callback b.failure))]) := by
      rw [hnext, staged, Stage.marks_returns rfl]
      simp [Performed.marks]
    rw [hmarks, hfailed]
    simp [Session.told]
  · rw [hnext]
    rfl
  · rw [hnext]
    rfl
  · have hmem : Mark.occurred (.called call reply) ∈ b.failed.marks := by
      rw [hfailed]
      simp
    simpa [Performed.marks] using hmem

theorem next_cases {c : Conversation κ W} (hh : c.session.halted = false) (hm : Clean c.marks) :
    (c.next host).session.halted = false ∧ Clean (c.next host).marks ∨
      ∃ before call reply, ∃ (t : Transition κ)
        (b : Breakdown host t.effects { c.session with state := t.state } c.world),
          c.BreaksOff host before call reply b := by
  have hturn := next_turn host c
  generalize c.next host = c' at hturn ⊢
  cases hturn with
  | idle => exact .inl ⟨hh, hm⟩
  | declined => exact .inl ⟨hh, hm.append (by simp [Clean, Mark.failed])⟩
  | @taken event requests t he _ ht =>
    rcases react_cases host ht c.world with ⟨hclean, hhalted⟩ | ⟨⟨b⟩⟩
    · exact .inl ⟨hhalted.trans hh, hm.append hclean⟩
    · obtain ⟨before, call, reply, hbreaks, _⟩ := exists_breaksOff he hh ht hm b
      exact .inr ⟨before, call, reply, t, b, hbreaks⟩

theorem next_halted {s : Session κ} (hh : s.halted = true) (world : W) (request : Request)
    (requests : List Request) (marks : List (Mark κ)) (chronicle : Chronicle) :
    next host ⟨s, world, none, request :: requests, marks, chronicle⟩ =
      ⟨s, world, none, requests, marks ++ [.returned (.error .halted)], chronicle⟩ := by
  simp only [next, event?, receive_halted hh, Session.entered, if_pos hh]
  rfl

theorem after_halted (host : Host κ W) {s : Session κ} (hh : s.halted = true) (world : W) :
    ∀ (n : Nat) (requests : List Request) (marks : List (Mark κ)) (chronicle : Chronicle),
      after host ⟨s, world, none, requests, marks, chronicle⟩ n =
        ⟨s, world, none, requests.drop n,
          marks ++ List.replicate (min n requests.length) (.returned (.error .halted)), chronicle⟩
  | 0, requests, marks, chronicle => by simp [after]
  | n + 1, [], marks, chronicle => by
    have hover : next host ⟨s, world, none, [], marks, chronicle⟩ =
        ⟨s, world, none, [], marks, chronicle⟩ := rfl
    rw [after_succ, hover, after_halted host hh world n]
    simp
  | n + 1, request :: requests, marks, chronicle => by
    rw [after_succ, next_halted hh, after_halted host hh world n]
    simp [List.replicate_succ, Nat.add_min_add_right]

theorem frozen_of_halted {c : Conversation κ W} (hh : c.session.halted = true)
    (hv : c.session.published = c.session.view) (hp : c.pending = none) : c.Frozen host := by
  obtain ⟨s, world, pending, requests, marks, chronicle⟩ := c
  cases hp
  have hafter := after_halted host hh world
  refine ⟨hh, hv, fun n => ?_, fun n => ?_, fun bound request => ?_⟩
  · rw [hafter n]
  · rw [hafter n]
  · rw [request_eq]
    exact call_halted hh bound world _

section
variable {c : Conversation κ W} {before : List (Mark κ)} {call : Call κ} {reply : Reply Value}
  {t : Transition κ} {b : Breakdown host t.effects { c.session with state := t.state } c.world}

theorem BreaksOff.frozen (h : c.BreaksOff host before call reply b) :
    (c.next host).Frozen host := by
  refine frozen_of_halted ?_ ?_ h.pending
  · rw [h.session]
    rfl
  · rw [h.session]
    rfl

theorem BreaksOff.marks_after (h : c.BreaksOff host before call reply b) (n : Nat) :
    ∃ rest, ((c.next host).after host n).marks =
      before ++ .occurred (.called call reply) :: rest ∧ Clean rest := by
  obtain ⟨millis, hmarks⟩ := h.marks
  refine ⟨[.occurred (.slept millis), .occurred (.notified (.failed b.failure.message)),
    .occurred (.published b.session.view), .returned (.error (.callback b.failure))] ++
      List.replicate (min n (c.next host).requests.length) (.returned (.error .halted)), ?_, ?_⟩
  · rw [h.frozen.marks n, hmarks, List.append_assoc]
    rfl
  · refine Clean.append (by simp [Clean, Mark.failed]) fun mark hmark => ?_
    rw [(List.mem_replicate.mp hmark).2]
    rfl

theorem after_cases (hh : c.session.halted = false) (hm : Clean c.marks) (n : Nat) :
    (c.after host n).session.halted = false ∧ Clean (c.after host n).marks ∨
      ∃ m < n, ∃ before call reply, ∃ (t : Transition κ) (b : Breakdown host t.effects
        { (c.after host m).session with state := t.state } (c.after host m).world),
          (c.after host m).BreaksOff host before call reply b := by
  induction n with
  | zero => exact .inl ⟨hh, hm⟩
  | succ n ih =>
    rcases ih with ⟨hh', hm'⟩ | ⟨m, hlt, hbreaks⟩
    · exact (next_cases hh' hm').imp_right fun hbreaks => ⟨n, Nat.lt_succ_self n, hbreaks⟩
    · exact .inr ⟨m, Nat.lt_succ_of_lt hlt, hbreaks⟩

end

theorem after_later (host : Host κ W) {m n : Nat} (h : m < n) (c : Conversation κ W) :
    ∃ k, c.after host n = ((c.after host m).next host).after host k := by
  obtain ⟨k, rfl⟩ := Nat.exists_eq_add_of_lt h
  refine ⟨k, ?_⟩
  rw [Nat.add_right_comm, after_add]
  rfl

end Conversation

theorem split_at_failure {before before' rest rest' : List (Mark κ)} {mark mark' : Mark κ}
    (h : before ++ mark :: rest = before' ++ mark' :: rest') (hf : mark.failed = true)
    (hb : Clean before') (hr : Clean rest') : before = before' ∧ mark = mark' := by
  rcases List.append_eq_append_iff.mp h with ⟨more, hbefore, hmore⟩ | ⟨more, hbefore, hmore⟩
  · cases more with
    | nil => exact ⟨by simpa using hbefore.symm, (List.cons.inj hmore).1⟩
    | cons first more =>
      obtain ⟨rfl, _⟩ := List.cons.inj hmore
      have hclean := hb mark (hbefore ▸ List.mem_append_right _ List.mem_cons_self)
      rw [hf] at hclean
      cases hclean
  · cases more with
    | nil => exact ⟨by simpa using hbefore, (List.cons.inj hmore).1.symm⟩
    | cons first more =>
      obtain ⟨rfl, hrest⟩ := List.cons.inj hmore
      have hclean := hr mark (hrest ▸ List.mem_append_right _ List.mem_cons_self)
      rw [hf] at hclean
      cases hclean

theorem failed_of_error (call : Call κ) {reply : Reply Value} {source : String}
    (h : reply.result = .error source) :
    Mark.failed (.occurred (.called call reply) : Mark κ) = true := by
  obtain ⟨sleep, result⟩ := reply
  cases h
  rfl

section
variable {script : Script κ} {settings : Settings} {world : W} {requests : List Request}

theorem breaksOff_of_failure {n : Nat} {before rest : List (Mark κ)} {call : Call κ}
    {reply : Reply Value} {source : String} {c : Conversation κ W}
    (hh : c.session.halted = false) (hm : Clean c.marks)
    (hmarks : (c.after host n).marks = before ++ .occurred (.called call reply) :: rest)
    (hsource : reply.result = .error source) :
    ∃ m < n, ∃ (t : Transition κ) (b : Breakdown host t.effects
      { (c.after host m).session with state := t.state } (c.after host m).world),
        (c.after host m).BreaksOff host before call reply b := by
  have hfailed := failed_of_error call hsource
  rcases Conversation.after_cases hh hm n with
    ⟨_, hclean⟩ | ⟨m, hlt, before', call', reply', t, b, hbreaks⟩
  · have hmem : Mark.occurred (.called call reply) ∈ (c.after host n).marks :=
      hmarks ▸ List.mem_append_right _ List.mem_cons_self
    rw [hclean _ hmem] at hfailed
    cases hfailed
  · obtain ⟨k, hk⟩ := Conversation.after_later host hlt c
    obtain ⟨rest', hmarks', hrest⟩ := hbreaks.marks_after k
    rw [hk, hmarks'] at hmarks
    obtain ⟨rfl, hmark⟩ := split_at_failure hmarks.symm hfailed hbreaks.clean hrest
    cases hmark
    exact ⟨m, hlt, t, b, hbreaks⟩

theorem halted_iff {c : Conversation κ W} (hh : c.session.halted = false) (hm : Clean c.marks)
    (n : Nat) : (c.after host n).session.halted = true ↔ ∃ before call reply source rest,
      (c.after host n).marks = before ++ .occurred (.called call reply) :: rest ∧
        reply.result = .error source := by
  constructor
  · intro hhalted
    rcases Conversation.after_cases hh hm n with
      ⟨hlive, _⟩ | ⟨m, hlt, before, call, reply, t, b, hbreaks⟩
    · rw [hlive] at hhalted
      cases hhalted
    · obtain ⟨k, hk⟩ := Conversation.after_later host hlt c
      obtain ⟨rest, hmarks, _⟩ := hbreaks.marks_after k
      exact ⟨before, call, reply, b.failure.source, rest, by rw [hk, hmarks], hbreaks.source⟩
  · rintro ⟨before, call, reply, source, rest, hmarks, hsource⟩
    obtain ⟨m, hlt, t, b, hbreaks⟩ := breaksOff_of_failure hh hm hmarks hsource
    obtain ⟨k, hk⟩ := Conversation.after_later host hlt c
    rw [hk, hbreaks.frozen.session k, hbreaks.frozen.halted]

end

end

/-- **Breakdown.** A session is halted if and only if a callback has failed. Then the conversation
has broken off at that callback, with the effects that were left, and it is frozen. Up to there it
is the beginning of every conversation in which the callbacks before have the same outcomes. -/
theorem failure_breaks_off (host : Host κ W) (script : Script κ) (settings : Settings) (world : W)
    (requests : List Request) (n : Nat) :
    let c := (Conversation.opened script settings world requests).after host
    ((c n).session.halted = true ↔ ∃ before call reply source rest,
      (c n).marks = before ++ .occurred (.called call reply) :: rest ∧
        reply.result = .error source) ∧
    ∀ before call reply source rest,
      (c n).marks = before ++ .occurred (.called call reply) :: rest →
      reply.result = .error source → ∃ m < n, ∃ (t : Transition κ) (b : Breakdown host t.effects
        { (c m).session with state := t.state } (c m).world),
        (c m).BreaksOff host before call reply b ∧ (c (m + 1)).Frozen host ∧
        ((c (m + 1)).session.state.phase ≠ .awaitingInput ∧
          ((c (m + 1)).session.state.phase = .completed ↔ b.effect = .runFormHook)) ∧
        ∀ (V : Type) (host' : Host κ V) (world' : V),
          let c' := (Conversation.opened script settings world' requests).after host'
          (∀ i, Concur before (c' i).marks) →
            ∃ i outcome, untimed before ++ [.asked call outcome] <+: untimed (c' i).marks := by
  intro c
  have hclean : Clean (Conversation.opened script settings world requests).marks := by
    simp [Clean, Conversation.opened]
  refine ⟨halted_iff rfl hclean n, ?_⟩
  intro before call reply source rest hmarks hsource
  obtain ⟨m, hlt, t, b, hbreaks⟩ := breaksOff_of_failure rfl hclean hmarks hsource
  obtain ⟨event, later, _, ht⟩ := hbreaks.taken
  have hstate : (c (m + 1)).session.state = t.state := by
    have hs : (c (m + 1)).session = b.session := hbreaks.session
    rw [hs, b.session_state]
  refine ⟨m, hlt, t, b, hbreaks, hbreaks.frozen, ?_, ?_⟩
  · rw [hstate]
    exact b.phase (transition_moves ht)
  · intro V host' world' c' hconcur
    have halike := Conversation.opened_alike host host' script settings requests world world' n
    exact ⟨n, halike.asked hmarks (hconcur n)⟩

/-- The answer to the second input is stored, then the callback for the end of that input fails. -/
theorem survey_breaks_off :
    let c := (Conversation.opened survey .instant 0
      [.start, .submit "cat", .submit "ball", .start]).after (failingAt 3)
    (c 11).session.answers.get? "toy" = some ["ball"] ∧
      ∃ m < 11, ∃ (before : List (Mark Unit)) (call : Call Unit) (reply : Reply Value)
        (t : Transition Unit) (b : Breakdown (failingAt 3) t.effects
          { (c m).session with state := t.state } (c m).world),
        (c m).BreaksOff (failingAt 3) before call reply b ∧ (c (m + 1)).Frozen (failingAt 3) := by
  intro c
  have h := failure_breaks_off (failingAt 3) survey .instant 0
    [.start, .submit "cat", .submit "ball", .start] 11
  have hhalted : (c 11).session.halted = true := rfl
  obtain ⟨before, call, reply, source, rest, hmarks, hsource⟩ := h.1.mp hhalted
  obtain ⟨m, hlt, t, b, hbreaks, hfrozen, _⟩ := h.2 before call reply source rest hmarks hsource
  exact ⟨rfl, m, hlt, before, call, reply, t, b, hbreaks, hfrozen⟩

end Dialogue
