import Dialogue.Proofs.Calls
import Dialogue.Proofs.Chronicle

/-!
# Conversations

A session with its client, who makes one request after another, each as soon as the one before has
returned. A conversation is followed event by event, so there is something to say of it also where
a request never returns. Its marks are what occurs and what the client is told; its chronicle has
the events that were accepted.
-/

namespace Dialogue

variable {κ W : Type}

structure Conversation (κ W : Type) where
  session : Session κ
  world : W
  -- what the request under way goes on with
  pending : Option Event
  requests : List Request
  marks : List (Mark κ)
  chronicle : Chronicle

def Stage.pending? (stage : Stage κ W) : Option Event :=
  match stage.next with
  | .again event => some event
  | .returns _ => none

def Session.entered (s : Session κ) (event : Event) : Chronicle :=
  if s.halted then []
  else match transition s.script s.state event with
    | .ok _ => [(s.state, event)]
    | .error _ => []

namespace Conversation

def opened (script : Script κ) (settings : Settings) (world : W) (requests : List Request) :
    Conversation κ W :=
  ⟨.fresh script settings, world, none, requests, [], []⟩

def event? (c : Conversation κ W) : Option (Event × List Request) :=
  match c.pending, c.requests with
  | some event, requests => some (event, requests)
  | none, request :: requests => some (request.event c.session.state, requests)
  | none, [] => none

def staged (stage : Stage κ W) (requests : List Request) (marks : List (Mark κ))
    (chronicle : Chronicle) : Conversation κ W :=
  ⟨stage.session, stage.world, stage.pending?, requests, marks ++ stage.marks, chronicle⟩

def next (host : Host κ W) (c : Conversation κ W) : Conversation κ W :=
  match c.event? with
  | none => c
  | some (event, requests) =>
    staged (c.session.receive host c.world event) requests c.marks
      (c.session.entered event ++ c.chronicle)

def after (host : Host κ W) (c : Conversation κ W) : Nat → Conversation κ W
  | 0 => c
  | n + 1 => (c.after host n).next host

inductive Turn (host : Host κ W) (c : Conversation κ W) : Conversation κ W → Prop
  | idle (h : c.event? = none) : Turn host c c
  | declined {event : Event} {requests : List Request} {e : CallError}
    (h : c.event? = some (event, requests)) (he : e.Declines)
    (hh : c.session.halted = true → e = .halted) : Turn host c
      ⟨c.session, c.world, none, requests, c.marks ++ [.returned (.error e)], c.chronicle⟩
  | taken {event : Event} {requests : List Request} {t : Transition κ}
    (h : c.event? = some (event, requests)) (hh : c.session.halted = false)
    (ht : transition c.session.script c.session.state event = .ok t) : Turn host c
      (staged (c.session.react host c.world event) requests c.marks
        ((c.session.state, event) :: c.chronicle))

section
variable {host : Host κ W} {c : Conversation κ W}

theorem next_turn (host : Host κ W) (c : Conversation κ W) : c.Turn host (c.next host) := by
  rw [next]
  cases he : c.event? with
  | none => exact .idle he
  | some p =>
    obtain ⟨event, requests⟩ := p
    by_cases hh : c.session.halted = true
    · simp only [receive_halted hh, Session.entered, if_pos hh]
      exact .declined he .halted fun _ => rfl
    · have hh' : c.session.halted = false := Bool.eq_false_iff.mpr hh
      simp only [receive_live hh', Session.entered, if_neg hh]
      cases ht : transition c.session.script c.session.state event with
      | error rejection =>
        rw [Session.react_of_error host ht]
        exact .declined he (.rejected rejection) fun h => absurd h hh
      | ok t => exact .taken he hh' ht

theorem next_taken {event : Event} {requests : List Request} {t : Transition κ}
    (he : c.event? = some (event, requests)) (hh : c.session.halted = false)
    (ht : transition c.session.script c.session.state event = .ok t) :
    c.next host = staged (c.session.react host c.world event) requests c.marks
      ((c.session.state, event) :: c.chronicle) := by
  simp only [next, he, receive_live hh, Session.entered, hh, ht]
  rfl

theorem next_marks (host : Host κ W) (c : Conversation κ W) :
    ∃ marks, (c.next host).marks = c.marks ++ marks := by
  have ht := next_turn host c
  generalize c.next host = c' at ht ⊢
  cases ht with
  | idle => exact ⟨[], (List.append_nil _).symm⟩
  | declined => exact ⟨_, rfl⟩
  | taken => exact ⟨_, rfl⟩

/-- What every turn keeps holds throughout. -/
theorem after_induction {P : Conversation κ W → Prop} (h : P c)
    (step : ∀ c c', P c → c.Turn host c' → P c') (n : Nat) : P (c.after host n) := by
  induction n with
  | zero => exact h
  | succ n ih => exact step _ _ ih (next_turn host _)

theorem after_add (c : Conversation κ W) (m n : Nat) :
    c.after host (m + n) = (c.after host m).after host n := by
  induction n with
  | zero => rfl
  | succ n ih =>
    rw [← Nat.add_assoc, after, ih]
    rfl

theorem after_succ (c : Conversation κ W) (n : Nat) :
    c.after host (n + 1) = (c.next host).after host n := by
  rw [Nat.add_comm, after_add]
  rfl

/-! ## Requests that return -/

theorem next_again (host : Host κ W) {stage : Stage κ W} {event : Event}
    (hn : stage.next = .again event) (hh : stage.session.halted = false)
    (requests : List Request) (marks : List (Mark κ)) (chronicle : Chronicle) :
    ∃ chronicle', (staged stage requests marks chronicle).next host =
      staged (stage.session.react host stage.world event) requests
        (marks ++ stage.history.map .occurred) chronicle' := by
  have hp : (staged stage requests marks chronicle).event? = some (event, requests) := by
    simp [event?, staged, Stage.pending?, hn]
  rw [next, hp, ← Stage.marks_again hn, ← receive_live hh]
  exact ⟨_, rfl⟩

theorem after_finish {script : Script κ} {bound : Nat} {stage : Stage κ W} {r : Returned κ W}
    (hs : stage.Sound script) (h : Session.finish host bound stage = some r)
    (requests : List Request) (marks : List (Mark κ)) (chronicle : Chronicle) :
    ∃ n chronicle', (staged stage requests marks chronicle).after host n =
      ⟨r.session, r.world, none, requests, marks ++ r.marks, chronicle'⟩ := by
  replace h := finishes_of_finish h
  induction h generalizing marks chronicle with
  | returns hn =>
    refine ⟨0, chronicle, ?_⟩
    simp [after, staged, Stage.pending?, hn, Stage.marks_returns hn, Returned.marks]
  | @again _ stage event _ hn _ ih =>
    have hh := (hs.again event hn).1
    obtain ⟨chronicle₁, hnext⟩ := next_again host hn hh requests marks chronicle
    obtain ⟨n, chronicle₂, hrest⟩ :=
      ih (hs.step hn) (marks ++ stage.history.map .occurred) chronicle₁
    refine ⟨n + 1, chronicle₂, ?_⟩
    rw [after_succ, hnext, hrest]
    simp [Returned.marks, List.append_assoc]

end

end Conversation

/-- The sessions that a client has between its requests are those of a conversation. -/
theorem Session.Reached.conversation {host : Host κ W} {script : Script κ} {settings : Settings}
    {world w : W} {requests : List Request} {s : Session κ}
    (h : Session.Reached host script settings world requests s w) : ∀ more, ∃ n marks chronicle,
      (Conversation.opened script settings world (requests ++ more)).after host n =
        ⟨s, w, none, more, marks, chronicle⟩ := by
  induction h with
  | fresh => exact fun more => ⟨0, [], [], rfl⟩
  | @called requests s w bound request r hreached hr ih =>
    intro more
    obtain ⟨n, marks, chronicle, hn⟩ := ih (request :: more)
    rw [request_eq, Session.call] at hr
    obtain ⟨hs, hreach⟩ := hreached.sound
    have hnext : ((Conversation.opened script settings world (requests ++ [request] ++ more)).after
        host (n + 1)) = .staged (s.receive host w (request.event s.state)) more marks
          (s.entered (request.event s.state) ++ chronicle) := by
      rw [List.append_assoc, Conversation.after]
      exact congrArg (Conversation.next host) hn
    rcases receive_cases host hs hreach w (request.event s.state) with ⟨e, _, he⟩ | hsound
    · rw [he, finish_returns rfl] at hr
      cases hr
      rw [he] at hnext
      exact ⟨n + 1, _, _, hnext⟩
    · obtain ⟨k, chronicle', hk⟩ := Conversation.after_finish hsound hr more marks
        (s.entered (request.event s.state) ++ chronicle)
      refine ⟨n + 1 + k, marks ++ r.marks, chronicle', ?_⟩
      rw [Conversation.after_add, hnext]
      exact hk

end Dialogue
