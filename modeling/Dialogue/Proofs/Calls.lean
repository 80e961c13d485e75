import Dialogue.Proofs.Readings
import Dialogue.Proofs.Record

/-!
# Calls

A client starts a session and submits texts, in any order and as often as it likes. A call whose
first event is accepted goes on until it returns with success or with the failure of a callback:
none of the events that come up on the way is rejected. So a call is declined by its first event or
not at all, and a declined call changes nothing.
-/

namespace Dialogue

variable {κ W : Type}

/-! ## Stages of a call -/

def CallResult.Taken (result : CallResult) : Prop :=
  result = .ok () ∨ ∃ failure, result = .error (.callback failure)

/-- The stage goes on with an event that its state awaits, or it is at rest with the result of a
call that was taken. -/
structure Stage.Sound (script : Script κ) (stage : Stage κ W) : Prop where
  kept : stage.session.script = script
  reachable : Reachable script stage.session.state
  again : ∀ event, stage.next = .again event → stage.session.halted = false ∧
    stage.session.state.phase.Awaits event ∧ event.Internal
  returns : ∀ result, stage.next = .returns result →
    CallResult.Taken result ∧ stage.session.Rests

section
variable {host : Host κ W} {script : Script κ}

theorem react_sound {s : Session κ} {event : Event} {t : Transition κ} (hs : s.script = script)
    (hr : Reachable script s.state) (hh : s.halted = false)
    (ht : transition s.script s.state event = .ok t) (world : W) :
    (s.react host world event).Sound script := by
  have hg := Session.react_grows host ht world
  have hstate : (s.react host world event).session.state = t.state := hg.state
  refine ⟨hg.script.trans hs, ?_, ?_, ?_⟩
  · rw [hstate]
    exact hr.step (hs ▸ ht)
  · intro event' hl
    rcases Session.react_next host ht world with ⟨_, failure, hn⟩ | ⟨hk, ⟨later, hn, ha⟩ | ⟨hn, _⟩⟩
    · rw [hn] at hl
      cases hl
    · rw [hn] at hl
      cases hl
      exact ⟨hk.trans hh, hstate ▸ ha⟩
    · rw [hn] at hl
      cases hl
  · intro result hl
    rcases Session.react_next host ht world with ⟨hf, failure, hn⟩ | ⟨_, ⟨later, hn, _⟩ | ⟨hn, hp⟩⟩
    · rw [hn] at hl
      cases hl
      exact ⟨.inr ⟨failure, rfl⟩, .inl hf⟩
    · rw [hn] at hl
      cases hl
    · rw [hn] at hl
      cases hl
      exact ⟨.inl rfl, .inr (hstate ▸ hp)⟩

theorem Stage.Sound.accepts {stage : Stage κ W} (hs : stage.Sound script) {event : Event}
    (hn : stage.next = .again event) :
    ∃ t, transition stage.session.script stage.session.state event = .ok t := by
  obtain ⟨_, ha, hi⟩ := hs.again event hn
  rw [hs.kept]
  exact accepts_of_awaits hs.reachable.wellFormed ha hi

theorem Stage.Sound.step {stage : Stage κ W} (hs : stage.Sound script) {event : Event}
    (hn : stage.next = .again event) :
    (stage.session.react host stage.world event).Sound script := by
  obtain ⟨t, ht⟩ := hs.accepts hn
  exact react_sound hs.kept hs.reachable (hs.again event hn).1 ht stage.world

/-- What the stages of a call keep holds of the one at which it returns. -/
theorem finish_last {P : Stage κ W → Prop} (step : ∀ stage event, P stage →
    stage.next = .again event → P (stage.session.react host stage.world event))
    {bound : Nat} {stage : Stage κ W} {r : Returned κ W} (hp : P stage)
    (h : Session.finish host bound stage = some r) : ∃ last, P last ∧
      last.next = .returns r.result ∧ last.session = r.session := by
  replace h := finishes_of_finish h
  induction h with
  | returns hn => exact ⟨_, hp, hn, rfl⟩
  | again hn _ ih => exact ih (step _ _ hp hn)

theorem finish_sound {bound : Nat} {stage : Stage κ W} {r : Returned κ W} (hs : stage.Sound script)
    (h : Session.finish host bound stage = some r) : r.session.script = script ∧
      Reachable script r.session.state ∧ CallResult.Taken r.result := by
  obtain ⟨last, hlast, hn, hsession⟩ := finish_last (fun _ _ hs hn => hs.step hn) hs h
  rw [← hsession]
  exact ⟨hlast.kept, hlast.reachable, (hlast.returns _ hn).1⟩

end

/-! ## Requests -/

/-- What a client asks of a session; without a turn, a text answers the prompt shown last. -/
inductive Request
  | start
  | submit (text : String)
  | submitForTurn (text : String) (turn : Nat)

def Request.event (s : State) : Request → Event
  | .start => .drive
  | .submit text => .submitted text s.prompts
  | .submitForTurn text turn => .submitted text turn

namespace Session

def request (host : Host κ W) (bound : Nat) (s : Session κ) (world : W) :
    Request → Option (Returned κ W)
  | .start => s.start host bound world
  | .submit text => s.submit host bound world text
  | .submitForTurn text turn => s.submitForTurn host bound world text turn

/-- The sessions that a client can have after some calls, each of which has returned. -/
inductive Reached (host : Host κ W) (script : Script κ) (settings : Settings) (world : W) :
    List Request → Session κ → W → Prop
  | fresh : Reached host script settings world [] (.fresh script settings) world
  | called {requests : List Request} {s : Session κ} {w : W} {bound : Nat} {request : Request}
    {r : Returned κ W} : Reached host script settings world requests s w →
    s.request host bound w request = some r →
    Reached host script settings world (requests ++ [request]) r.session r.world

end Session

inductive CallError.Declines : CallError → Prop
  | halted : Declines .halted
  | rejected (rejection : Rejection) : Declines (.rejected rejection)

theorem CallError.Declines.not_taken {e : CallError} (h : e.Declines) :
    ¬ CallResult.Taken (.error e) := by
  rintro (h' | ⟨failure, h'⟩)
  · cases h'
  · cases h'
    cases h

section
variable {host : Host κ W} {script : Script κ} {s : Session κ}

theorem request_eq (bound : Nat) (s : Session κ) (world : W) (request : Request) :
    s.request host bound world request = s.call host bound world (request.event s.state) := by
  cases request <;> rfl

theorem call_halted (hh : s.halted = true) (bound : Nat) (world : W) (event : Event) :
    s.call host bound world event = some ⟨[], s, world, .error .halted⟩ := by
  rw [Session.call, receive_halted hh, finish_returns rfl]

theorem call_rejected (hh : s.halted = false) {event : Event} {r : Rejection}
    (ht : transition s.script s.state event = .error r) (bound : Nat) (world : W) :
    s.call host bound world event = some ⟨[], s, world, .error (.rejected r)⟩ := by
  rw [Session.call, receive_live hh, Session.react_of_error host ht, finish_returns rfl]

theorem call_accepted (hs : s.script = script) (hr : Reachable script s.state)
    (hh : s.halted = false) {event : Event} {t : Transition κ}
    (ht : transition s.script s.state event = .ok t) {bound : Nat} {world : W} {r : Returned κ W}
    (h : s.call host bound world event = some r) : r.session.script = script ∧
      Reachable script r.session.state ∧ CallResult.Taken r.result := by
  rw [Session.call, receive_live hh] at h
  exact finish_sound (react_sound hs hr hh ht world) h

theorem receive_cases (host : Host κ W) (hs : s.script = script) (hr : Reachable script s.state)
    (world : W) (event : Event) : (∃ e : CallError, e.Declines ∧
        s.receive host world event = ⟨[], s, world, .returns (.error e)⟩) ∨
      (s.receive host world event).Sound script := by
  by_cases hh : s.halted = true
  · exact .inl ⟨.halted, .halted, receive_halted hh world event⟩
  · have hh : s.halted = false := Bool.eq_false_iff.mpr hh
    rw [receive_live hh]
    cases ht : transition s.script s.state event with
    | error rejection =>
      exact .inl ⟨.rejected rejection, .rejected rejection, Session.react_of_error host ht world⟩
    | ok t => exact .inr (react_sound hs hr hh ht world)

theorem call_split {bound : Nat} {world : W} {event : Event} {r : Returned κ W}
    (h : s.call host bound world event = some r) :
    (∃ e : CallError, e.Declines ∧ r = ⟨[], s, world, .error e⟩) ∨
      s.halted = false ∧ ∃ t, transition s.script s.state event = .ok t := by
  cases hh : s.halted with
  | true =>
    rw [call_halted hh] at h
    cases h
    exact .inl ⟨.halted, .halted, rfl⟩
  | false =>
    cases ht : transition s.script s.state event with
    | error rejection =>
      rw [call_rejected hh ht] at h
      cases h
      exact .inl ⟨.rejected rejection, .rejected rejection, rfl⟩
    | ok t => exact .inr ⟨rfl, t, rfl⟩

theorem call_cases (hs : s.script = script) (hr : Reachable script s.state) {bound : Nat}
    {world : W} {event : Event} {r : Returned κ W}
    (h : s.call host bound world event = some r) :
    (∃ e : CallError, e.Declines ∧ r = ⟨[], s, world, .error e⟩) ∨
      r.session.script = script ∧ Reachable script r.session.state ∧ CallResult.Taken r.result := by
  rcases call_split h with hdeclined | ⟨hh, t, ht⟩
  · exact .inl hdeclined
  · exact .inr (call_accepted hs hr hh ht h)

theorem Session.Reached.sound {settings : Settings} {world w : W} {requests : List Request}
    (h : Session.Reached host script settings world requests s w) :
    s.script = script ∧ Reachable script s.state := by
  induction h with
  | fresh => exact ⟨rfl, .initial⟩
  | called _ hr ih =>
    rw [request_eq] at hr
    rcases call_cases ih.1 ih.2 hr with ⟨e, _, rfl⟩ | ⟨hs, hreach, _⟩
    · exact ih
    · exact ⟨hs, hreach⟩

theorem submission_rejected_iff (hs : s.script = script) (hr : Reachable script s.state)
    (hh : s.halted = false) (bound : Nat) (world : W) (text : String) (turn : Nat) :
    (∃ r rejection, s.submitForTurn host bound world text turn = some r ∧
        r.result = .error (.rejected rejection)) ↔
      s.state.phase ≠ .awaitingInput ∨ turn ≠ s.state.prompts := by
  have hiff := submission_accepted_iff (hs ▸ hr.wellFormed) text turn
  rw [← Classical.not_and_iff_not_or_not, ← hiff]
  cases ht : transition s.script s.state (.submitted text turn) with
  | error rejection =>
    have hcall : s.submitForTurn host bound world text turn =
        some ⟨[], s, world, .error (.rejected rejection)⟩ := call_rejected hh ht bound world
    exact ⟨fun _ => nofun, fun _ => ⟨_, rejection, hcall, rfl⟩⟩
  | ok t =>
    refine ⟨?_, fun h => absurd ⟨t, rfl⟩ h⟩
    rintro ⟨r, rejection, hcall, he⟩
    have htaken := (call_accepted hs hr hh ht hcall).2.2
    rw [he] at htaken
    exact absurd htaken (CallError.Declines.rejected rejection).not_taken

/-- **Declined calls are atomic.** A call that is declined leaves session and callbacks alone and
tells observers nothing. A submission is rejected exactly when the session does not await it. -/
theorem declined_call_atomic {settings : Settings} {world w : W} {requests : List Request}
    (h : Session.Reached host script settings world requests s w) :
    (∀ bound request r e, s.request host bound w request = some r → r.result = .error e →
      e.Declines → r = ⟨[], s, w, .error e⟩) ∧
    (s.halted = false → ∀ bound text turn,
      (∃ r rejection, s.submitForTurn host bound w text turn = some r ∧
          r.result = .error (.rejected rejection)) ↔
        s.state.phase ≠ .awaitingInput ∨ turn ≠ s.state.prompts) ∧
    (s.halted = true → ∀ bound request,
      s.request host bound w request = some ⟨[], s, w, .error .halted⟩) := by
  obtain ⟨hs, hreach⟩ := h.sound
  refine ⟨?_, fun hh bound => submission_rejected_iff hs hreach hh bound w, ?_⟩
  · intro bound request r e hr he hd
    rw [request_eq] at hr
    rcases call_cases hs hreach hr with ⟨e', _, rfl⟩ | ⟨_, _, htaken⟩
    · cases he
      rfl
    · rw [he] at htaken
      exact absurd htaken hd.not_taken
  · intro hh bound request
    rw [request_eq]
    exact call_halted hh bound w _

end

def failingAt (k : Nat) : Host Unit Nat :=
  let reply {α : Type} (value : α) (n : Nat) : Reply α × Nat :=
    (⟨0, if n = k then .error "out of order" else .ok value⟩, n + 1)
  ⟨fun _ _ => reply "", fun _ _ => reply true, fun _ _ _ => reply true, fun _ _ => reply ()⟩

/-- An answer for turn 0 while `survey` waits for one for turn 1. -/
theorem stale_answer_declined : ∃ s w r, Session.Reached (failingAt 2) survey .instant 0
    [.start] s w ∧ s.halted = false ∧
      s.request (failingAt 2) 0 w (.submitForTurn "cat" 0) = some r ∧
      r.result = .error (.rejected (.staleSubmission 0 1)) ∧ r = ⟨[], s, w, r.result⟩ := by
  have h : ((Session.fresh survey .instant).request (failingAt 2) 2 0 .start).bind (fun r =>
      (r.session.request (failingAt 2) 0 r.world (.submitForTurn "cat" 0)).map fun r' =>
        (r.session.halted, r'.result)) =
      some (false, .error (.rejected (.staleSubmission 0 1))) := rfl
  obtain ⟨r, hr, h⟩ := Option.bind_eq_some_iff.mp h
  obtain ⟨r', hr', h⟩ := Option.map_eq_some_iff.mp h
  obtain ⟨hh, he⟩ := Prod.mk.inj h
  have hreached : Session.Reached (failingAt 2) survey .instant 0 [.start] r.session r.world :=
    .called .fresh hr
  have hatomic := (declined_call_atomic hreached).1 _ _ _ _ hr' he (.rejected _)
  exact ⟨r.session, r.world, r', hreached, hh, hr', he, by rw [he]; exact hatomic⟩

end Dialogue
