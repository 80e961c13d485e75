import Dialogue.Form.Basic
import Dialogue.Proofs.Readings

/-!
# Courses of a form

A form among its clients, who send, wait for room or give up, and follow what is published, while
time passes and the task makes its moves, all of it in any order. The handle stays. A docket keeps
the submissions that the task has taken off its queue, each with what has occurred since; nothing
depends on it.
-/

namespace Dialogue

variable {κ W : Type}

/-! ## Dockets -/

structure Entry (κ W : Type) where
  submission : Submission
  -- the form when it took the submission off its queue
  before : Form κ W
  history : List (Occurrence κ)
  reply : Option CallResult

/-- The submissions taken so far, the latest first. -/
abbrev Docket (κ W : Type) := List (Entry κ W)

namespace Docket

def extend : Docket κ W → List (Occurrence κ) → Docket κ W
  | [], _ => []
  | e :: docket, history => { e with history := e.history ++ history } :: docket

def answer : Docket κ W → CallResult → Docket κ W
  | [], _ => []
  | e :: docket, result => { e with reply := some result } :: docket

theorem extend_eq (docket : Docket κ W) (history : List (Occurrence κ)) : docket.extend history =
    docket.modifyHead fun e => { e with history := e.history ++ history } := by
  cases docket <;> rfl

theorem answer_eq (docket : Docket κ W) (result : CallResult) : docket.answer result =
    docket.modifyHead fun e => { e with reply := some result } := by
  cases docket <;> rfl

theorem extend_nil (docket : Docket κ W) : docket.extend [] = docket := by
  cases docket with
  | nil => rfl
  | cons e docket => rw [extend, List.append_nil]

theorem extend_extend (docket : Docket κ W) (a b : List (Occurrence κ)) :
    (docket.extend a).extend b = docket.extend (a ++ b) := by
  cases docket with
  | nil => rfl
  | cons e docket => rw [extend, extend, extend, List.append_assoc]

def histories (docket : Docket κ W) : List (Occurrence κ) :=
  docket.reverse.flatMap Entry.history

theorem histories_cons (e : Entry κ W) (docket : Docket κ W) :
    histories (e :: docket) = histories docket ++ e.history := by
  simp [histories]

theorem histories_extend {docket : Docket κ W} (hd : docket ≠ []) (history : List (Occurrence κ)) :
    (docket.extend history).histories = docket.histories ++ history := by
  cases docket with
  | nil => exact absurd rfl hd
  | cons e docket => rw [extend, histories_cons, histories_cons, List.append_assoc]

end Docket

/-! ## Steps -/

namespace Form

def work? (f : Form κ W) : Option (Work κ) :=
  match f.activity with
  | .working work => some work
  | .asleep _ work => some work
  | _ => none

def ahead (f : Form κ W) : List (Occurrence κ) :=
  (f.work?.map Work.ahead).getD []

def next? (f : Form κ W) : Option Next :=
  match f.activity with
  | .unstarted => some (.again .drive)
  | _ => f.work?.map Work.next

def line (f : Form κ W) : List (Occurrence κ) :=
  f.past.reverse ++ f.ahead

end Form

structure Desk (κ W : Type) where
  form : Form κ W
  docket : Docket κ W

namespace Desk

def opened (script : Script κ) (settings : Settings) (world : W) : Desk κ W :=
  ⟨.spawn script settings world, []⟩

def noted (d : Desk κ W) : Docket κ W :=
  match d.form.activity, d.form.work? with
  | .resting, _ =>
    match d.form.queue with
    | [] => d.docket
    | submission :: _ => ⟨submission, d.form, [], none⟩ :: d.docket
  | _, some ⟨_, o :: _, _⟩ => d.docket.extend [o]
  | _, some ⟨_, [], .returns result⟩ => d.docket.answer result
  | _, _ => d.docket

inductive Step (host : Host κ W) : Desk κ W → Desk κ W → Prop
  | send {f : Form κ W} {docket : Docket κ W} (text : String) (turn : Nat) :
    Step host ⟨f, docket⟩ ⟨(f.send text turn).2, docket⟩
  -- some of the senders that wait for room give up
  | leave {f : Form κ W} {docket : Docket κ W} {senders : List Submission}
    (h : senders.Sublist f.senders) : Step host ⟨f, docket⟩ ⟨{ f with senders }, docket⟩
  | follow {f : Form κ W} {docket : Docket κ W} (feed : Option Feed) :
    Step host ⟨f, docket⟩ ⟨{ f with feed }, docket⟩
  | pass {f : Form κ W} {docket : Docket κ W} {clock : Nat} (h : f.clock ≤ clock) :
    Step host ⟨f, docket⟩ ⟨{ f with clock }, docket⟩
  | move {d : Desk κ W} {f : Form κ W} (h : d.form.move? host = some f) : Step host d ⟨f, d.noted⟩

inductive Course (host : Host κ W) (d : Desk κ W) : Desk κ W → Prop
  | refl : Course host d d
  | step {b c : Desk κ W} : Course host d b → b.Step host c → Course host d c

theorem Course.trans {host : Host κ W} {a b c : Desk κ W} (hab : Course host a b)
    (hbc : Course host b c) : Course host a c := by
  induction hbc with
  | refl => exact hab
  | step _ hstep ih => exact ih.step hstep

theorem Course.keeps {host : Host κ W} {P : Desk κ W → Prop}
    (hstep : ∀ {b c : Desk κ W}, P b → b.Step host c → P c) {d d' : Desk κ W} (hd : P d)
    (h : Course host d d') : P d' := by
  induction h with
  | refl => exact hd
  | step _ hs ih => exact hstep ih hs

def moves (host : Host κ W) : Nat → Desk κ W → Option (Desk κ W)
  | 0, d => some d
  | n + 1, d => (d.form.move? host).bind fun f => moves host n ⟨f, d.noted⟩

theorem Course.moves {host : Host κ W} {d : Desk κ W} : ∀ {n : Nat} {b c : Desk κ W},
    Course host d b → Desk.moves host n b = some c → Course host d c
  | 0, _, _, h, hm => by
    cases hm
    exact h
  | n + 1, _, _, h, hm => by
    obtain ⟨f, hf, hm⟩ := Option.bind_eq_some_iff.mp hm
    exact Course.moves (h.step (.move hf)) hm

end Desk

/-! ## Moves of the task -/

/-- The task is neither over nor to stop, and fresh before its start. -/
structure Form.Alive (f : Form κ W) : Prop where
  kept : f.abandoned = false
  there : f.isGone = false
  fresh : f.activity = .unstarted → f.session.halted = false

inductive Form.Moves (host : Host κ W) (f : Form κ W) : Form κ W → Prop
  | start (h : f.activity = .unstarted) :
    f.Moves host (f.takeUp none (f.session.receive host f.world .drive))
  | serve {submission : Submission} {queue : List Submission} (h : f.activity = .resting)
    (hq : f.queue = submission :: queue) :
    f.Moves host ({ f with
        queue := queue ++ f.senders.take 1
        senders := f.senders.drop 1 }.takeUp (some submission.ticket)
      (f.session.receive host f.world (.submitted submission.text submission.turn)))
  | proceed {work : Work κ} (h : f.work? = some work) (hw : ∀ wake ∈ f.wake?, wake ≤ f.clock) :
    f.Moves host (f.proceed host work)

inductive Desk.Moved (host : Host κ W) (f : Form κ W) (docket : Docket κ W) : Desk κ W → Prop
  | start (h : f.activity = .unstarted) :
    Moved host f docket ⟨f.takeUp none (f.session.receive host f.world .drive), docket⟩
  | serve {submission : Submission} {queue : List Submission} (h : f.activity = .resting)
    (hq : f.queue = submission :: queue) :
    Moved host f docket
      ⟨{ f with
          queue := queue ++ f.senders.take 1
          senders := f.senders.drop 1 }.takeUp (some submission.ticket)
        (f.session.receive host f.world (.submitted submission.text submission.turn)),
      ⟨submission, f, [], none⟩ :: docket⟩
  | reveal {ticket : Option Nat} {o : Occurrence κ} {ahead : List (Occurrence κ)} {next : Next}
    {activity : Activity κ} (h : f.work? = some ⟨ticket, o :: ahead, next⟩)
    (ha : activity = .working ⟨ticket, ahead, next⟩ ∨
      ∃ wake, activity = .asleep wake ⟨ticket, ahead, next⟩) :
    Moved host f docket ⟨{ f.reveal o with activity }, docket.extend [o]⟩
  | again {ticket : Option Nat} {event : Event} (h : f.work? = some ⟨ticket, [], .again event⟩) :
    Moved host f docket ⟨f.takeUp ticket (f.session.react host f.world event), docket⟩
  | reply {ticket : Option Nat} {result : CallResult}
    (h : f.work? = some ⟨ticket, [], .returns result⟩) :
    Moved host f docket ⟨f.hand ticket result, docket.answer result⟩

section
variable {host : Host κ W} {f : Form κ W} {docket : Docket κ W}

theorem Form.Alive.move_eq (ha : f.Alive) : f.move? host =
    match f.activity with
    | .unstarted => some (f.takeUp none (f.session.receive host f.world .drive))
    | .resting => f.serve host
    | .working work => some (f.proceed host work)
    | .asleep wake work => if wake ≤ f.clock then some (f.proceed host work) else none
    | .gone => none := by
  unfold Form.move?
  rw [ha.there, ha.kept]
  rfl

theorem Form.Alive.moves {f' : Form κ W} (ha : f.Alive) (h : f.move? host = some f') :
    f.Moves host f' := by
  rw [ha.move_eq] at h
  cases hact : f.activity with
  | unstarted =>
    rw [hact] at h
    cases h
    exact .start hact
  | resting =>
    rw [hact] at h
    simp only [Form.serve] at h
    cases hq : f.queue with
    | nil => rw [hq] at h; cases h
    | cons submission queue =>
      rw [hq] at h
      cases h
      exact .serve hact hq
  | working work =>
    rw [hact] at h
    cases h
    exact .proceed (by simp [Form.work?, hact]) (by simp [Form.wake?, hact])
  | asleep wake work =>
    rw [hact] at h
    simp only [Option.ite_none_right_eq_some, Option.some.injEq] at h
    obtain ⟨hwake, rfl⟩ := h
    exact .proceed (by simp [Form.work?, hact]) (by simpa [Form.wake?, hact] using hwake)
  | gone => rw [hact] at h; cases h

theorem noted_of_work {work : Work κ} (h : f.work? = some work) :
    Desk.noted ⟨f, docket⟩ = match work.ahead, work.next with
      | o :: _, _ => docket.extend [o]
      | [], .returns result => docket.answer result
      | [], .again _ => docket := by
  obtain ⟨ticket, ahead, next⟩ := work
  unfold Desk.noted
  cases ha : f.activity with
  | working work =>
    simp only [Form.work?, ha, Option.some.injEq] at h ⊢
    subst h
    cases ahead <;> cases next <;> rfl
  | asleep wake work =>
    simp only [Form.work?, ha, Option.some.injEq] at h ⊢
    subst h
    cases ahead <;> cases next <;> rfl
  | _ => simp [Form.work?, ha] at h

theorem moved_of_proceed {work : Work κ} (h : f.work? = some work) :
    Desk.Moved host f docket ⟨f.proceed host work, Desk.noted ⟨f, docket⟩⟩ := by
  obtain ⟨ticket, ahead, next⟩ := work
  rw [noted_of_work h]
  cases ahead with
  | nil =>
    cases next with
    | again event => exact .again h
    | returns result => exact .reply h
  | cons o ahead =>
    cases o with
    | slept n =>
      refine .reveal h ?_
      by_cases hn : n = 0
      · exact .inl (if_pos hn)
      · exact .inr ⟨_, if_neg hn⟩
    | called call reply => exact .reveal h (.inl rfl)
    | notified notice => exact .reveal h (.inl rfl)
    | published view => exact .reveal h (.inl rfl)

theorem moved_of_move {f' : Form κ W} (ha : f.Alive) (h : f.move? host = some f') :
    Desk.Moved host f docket ⟨f', Desk.noted ⟨f, docket⟩⟩ := by
  cases ha.moves h with
  | start hact =>
    have hn : Desk.noted ⟨f, docket⟩ = docket := by simp [Desk.noted, hact, Form.work?]
    rw [hn]
    exact .start hact
  | @serve submission queue hact hq =>
    have hn : Desk.noted ⟨f, docket⟩ = ⟨submission, f, [], none⟩ :: docket := by
      simp [Desk.noted, hact, hq]
    rw [hn]
    exact .serve hact hq
  | proceed hw => exact moved_of_proceed hw

end

end Dialogue
