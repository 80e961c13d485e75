import Dialogue.Proofs.Calls
import Dialogue.Proofs.Course

/-!
# Ledgers

A form reveals a stage bit by bit, but its session is where the stage leads. The ledger of a form
is its session together with all that has occurred or is bound to occur, and only three things
change it: an event is taken, a submission is taken off the queue, a call returns.
-/

namespace Dialogue

variable {κ W : Type}

structure Ledger (κ W : Type) where
  session : Session κ
  world : W
  line : List (Occurrence κ)
  next? : Option Next
  docket : Docket κ W

def Desk.ledger (d : Desk κ W) : Ledger κ W :=
  ⟨d.form.session, d.form.world, d.form.line, d.form.next?, d.docket.extend d.form.ahead⟩

namespace Ledger

def taken (stage : Stage κ W) (line : List (Occurrence κ)) (docket : Docket κ W) : Ledger κ W :=
  ⟨stage.session, stage.world, line ++ stage.history, some stage.next,
    docket.extend stage.history⟩

inductive Turn (host : Host κ W) : Ledger κ W → Ledger κ W → Prop
  | again {s : Session κ} {world : W} {line : List (Occurrence κ)} {event : Event}
    {docket : Docket κ W} :
    Turn host ⟨s, world, line, some (.again event), docket⟩
      (taken (s.react host world event) line docket)
  | serve {before : Form κ W} {docket : Docket κ W} (submission : Submission) :
    Turn host ⟨before.session, before.world, before.past.reverse, none, docket⟩
      (taken (before.session.receive host before.world
          (.submitted submission.text submission.turn))
        before.past.reverse (⟨submission, before, [], none⟩ :: docket))
  | reply {s : Session κ} {world : W} {line : List (Occurrence κ)} {result : CallResult}
    {docket : Docket κ W} :
    Turn host ⟨s, world, line, some (.returns result), docket⟩
      ⟨s, world, line, none, docket.answer result⟩

end Ledger

/-! ## Courses and ledgers -/

section
variable {host : Host κ W}

theorem Form.send_kept (f : Form κ W) (text : String) (turn : Nat) :
    (f.send text turn).2.session = f.session ∧ (f.send text turn).2.world = f.world ∧
      (f.send text turn).2.activity = f.activity ∧ (f.send text turn).2.past = f.past ∧
      (f.send text turn).2.abandoned = f.abandoned ∧
      (f.send text turn).2.replies = f.replies ∧ (f.send text turn).2.view = f.view := by
  unfold Form.send
  dsimp only
  split <;> exact ⟨rfl, rfl, rfl, rfl, rfl, rfl, rfl⟩

theorem Form.reveal_kept (f : Form κ W) (o : Occurrence κ) :
    (f.reveal o).session = f.session ∧ (f.reveal o).world = f.world ∧
      (f.reveal o).past = o :: f.past ∧ (f.reveal o).abandoned = f.abandoned ∧
      (f.reveal o).queue = f.queue ∧ (f.reveal o).senders = f.senders ∧
      (f.reveal o).tickets = f.tickets ∧ (f.reveal o).replies = f.replies := by
  cases o <;> exact ⟨rfl, rfl, rfl, rfl, rfl, rfl, rfl, rfl⟩

theorem ledger_congr {f g : Form κ W} (hs : g.session = f.session) (hw : g.world = f.world)
    (ha : g.activity = f.activity) (hp : g.past = f.past) (docket : Docket κ W) :
    Desk.ledger ⟨g, docket⟩ = Desk.ledger ⟨f, docket⟩ := by
  simp only [Desk.ledger, Form.line, Form.ahead, Form.next?, Form.work?, hs, hw, ha, hp]

theorem alive_congr {f g : Form κ W} (h : f.Alive) (hs : g.session = f.session)
    (ha : g.activity = f.activity) (hk : g.abandoned = f.abandoned) : g.Alive := by
  refine ⟨hk.trans h.kept, ?_, ?_⟩
  · have ht := h.there
    unfold Form.isGone at ht ⊢
    rw [ha]
    exact ht
  · intro hact
    rw [hs]
    exact h.fresh (ha.symm.trans hact)

theorem ledger_of_work {f : Form κ W} {work : Work κ} (h : f.work? = some work)
    (docket : Docket κ W) :
    Desk.ledger ⟨f, docket⟩ = ⟨f.session, f.world, f.past.reverse ++ work.ahead, some work.next,
      docket.extend work.ahead⟩ := by
  have hn : f.next? = some work.next := by
    unfold Form.next?
    cases ha : f.activity with
    | unstarted => rw [Form.work?, ha] at h; cases h
    | _ => rw [h]; rfl
  have hah : f.ahead = work.ahead := by
    rw [Form.ahead, h]
    rfl
  rw [Desk.ledger, Form.line, hn, hah]

theorem ledger_of_resting {f : Form κ W} (h : f.activity = .resting) (docket : Docket κ W) :
    Desk.ledger ⟨f, docket⟩ = ⟨f.session, f.world, f.past.reverse, none, docket⟩ := by
  simp [Desk.ledger, Form.line, Form.ahead, Form.next?, Form.work?, h, Docket.extend_nil]

theorem moved_alive {f : Form κ W} {docket : Docket κ W} {d : Desk κ W} (ha : f.Alive)
    (h : Desk.Moved host f docket d) : d.form.Alive := by
  cases h with
  | start h => exact ⟨ha.kept, rfl, nofun⟩
  | serve h hq => exact ⟨ha.kept, rfl, nofun⟩
  | reveal h hact =>
    refine ⟨(f.reveal_kept _).2.2.2.1.trans ha.kept, ?_, ?_⟩
    · rcases hact with rfl | ⟨wake, rfl⟩ <;> rfl
    · rcases hact with rfl | ⟨wake, rfl⟩ <;> exact nofun
  | again h => exact ⟨ha.kept, rfl, nofun⟩
  | reply h => exact ⟨ha.kept, rfl, nofun⟩

theorem moved_ledger {f : Form κ W} {docket : Docket κ W} {d : Desk κ W} (ha : f.Alive)
    (h : Desk.Moved host f docket d) : d.ledger = Desk.ledger ⟨f, docket⟩ ∨
      Ledger.Turn host (Desk.ledger ⟨f, docket⟩) d.ledger := by
  cases h with
  | start h =>
    right
    have hl : Desk.ledger ⟨f, docket⟩ =
        ⟨f.session, f.world, f.past.reverse, some (.again .drive), docket⟩ := by
      simp [Desk.ledger, Form.line, Form.ahead, Form.next?, Form.work?, h, Docket.extend_nil]
    have hr : f.session.receive host f.world .drive = f.session.react host f.world .drive := by
      simp [Session.receive, ha.fresh h]
    rw [hl, hr]
    exact .again
  | @serve submission queue h hq =>
    right
    rw [ledger_of_resting h]
    exact .serve submission
  | @reveal ticket o ahead next activity h hact =>
    left
    obtain ⟨hs, hw, hp, _⟩ := f.reveal_kept o
    have hwork : Form.work? { f.reveal o with activity } = some ⟨ticket, ahead, next⟩ := by
      rcases hact with rfl | ⟨wake, rfl⟩ <;> rfl
    rw [ledger_of_work h, ledger_of_work hwork, hs, hw, hp, Docket.extend_extend,
      List.reverse_cons, List.append_assoc]
    rfl
  | @again ticket event h =>
    right
    rw [ledger_of_work h, Docket.extend_nil, List.append_nil]
    exact .again
  | @reply ticket result h =>
    right
    rw [ledger_of_work h, Docket.extend_nil, List.append_nil, ledger_of_resting rfl]
    exact .reply

theorem step_ledger {d d' : Desk κ W} (ha : d.form.Alive) (h : d.Step host d') :
    d'.form.Alive ∧ (d'.ledger = d.ledger ∨ Ledger.Turn host d.ledger d'.ledger) := by
  cases h with
  | send text turn =>
    obtain ⟨hs, hw, hact, hp, hk, _⟩ := Form.send_kept _ text turn
    exact ⟨alive_congr ha hs hact hk, .inl (ledger_congr hs hw hact hp _)⟩
  | leave h => exact ⟨alive_congr ha rfl rfl rfl, .inl rfl⟩
  | follow feed => exact ⟨alive_congr ha rfl rfl rfl, .inl rfl⟩
  | pass h => exact ⟨alive_congr ha rfl rfl rfl, .inl rfl⟩
  | move h =>
    have hm : Desk.Moved host d.form d.docket ⟨_, d.noted⟩ := moved_of_move ha h
    exact ⟨moved_alive ha hm, moved_ledger ha hm⟩

theorem opened_alive (script : Script κ) (settings : Settings) (world : W) :
    (Desk.opened script settings world).form.Alive :=
  ⟨rfl, rfl, fun _ => rfl⟩

end

/-! ## Between events -/

def CallResult.Refused (result : CallResult) : Prop :=
  ∃ e : CallError, result = .error e ∧ e.Refusal

theorem CallResult.Refused.not_taken {result : CallResult} (h : CallResult.Refused result) :
    ¬ CallResult.Taken result := by
  obtain ⟨e, rfl, he⟩ := h
  rintro (h | ⟨failure, h⟩)
  · cases h
  · cases h
    cases he

inductive Session.Poised (s : Session κ) : Option Next → Prop
  | working {event : Event} (hh : s.halted = false) (ha : s.state.phase.Awaits event)
    (hi : event.Internal) : Poised s (some (.again event))
  | returning {result : CallResult} (hs : s.Rests)
    (hr : CallResult.Taken result ∨ CallResult.Refused result) : Poised s (some (.returns result))
  | resting (hs : s.Rests) : Poised s none

structure Ledger.Steady (script : Script κ) (l : Ledger κ W) : Prop where
  script : l.session.script = script
  reachable : Reachable l.session.script l.session.state
  poised : l.session.Poised l.next?

namespace Ledger

section
variable {host : Host κ W} {script : Script κ} {l l' : Ledger κ W}

theorem Steady.wellFormed (h : l.Steady script) : l.session.state.WellFormed l.session.script :=
  h.reachable.wellFormed

theorem taken_steady {s : Session κ} {event : Event} {t : Transition κ}
    (hs : s.script = script) (hr : Reachable s.script s.state) (hh : s.halted = false)
    (ht : transition s.script s.state event = .ok t) (world : W) (line : List (Occurrence κ))
    (docket : Docket κ W) : (taken (s.react host world event) line docket).Steady script := by
  have hsound : (s.react host world event).Sound script := react_sound hs (hs ▸ hr) hh ht world
  refine ⟨hsound.kept, ?_, ?_⟩
  · rw [taken, hsound.kept]
    exact hsound.reachable
  · rw [taken]
    cases hn : (s.react host world event).next with
    | again later =>
      obtain ⟨hh, ha, hi⟩ := hsound.again later hn
      exact .working hh ha hi
    | returns result =>
      obtain ⟨htaken, hrest⟩ := hsound.returns result hn
      exact .returning hrest (.inl htaken)

inductive Change (host : Host κ W) : Ledger κ W → Ledger κ W → Prop
  | again {s : Session κ} {world : W} {line : List (Occurrence κ)} {event : Event}
    {docket : Docket κ W} {t : Transition κ} (hh : s.halted = false)
    (ha : s.state.phase.Awaits event) (hi : event.Internal)
    (ht : transition s.script s.state event = .ok t) :
    Change host ⟨s, world, line, some (.again event), docket⟩
      (taken (s.react host world event) line docket)
  | refused {before : Form κ W} {docket : Docket κ W} {submission : Submission} {e : CallError}
    (he : e.Refusal) :
    Change host ⟨before.session, before.world, before.past.reverse, none, docket⟩
      ⟨before.session, before.world, before.past.reverse, some (.returns (.error e)),
        ⟨submission, before, [], none⟩ :: docket⟩
  | accepted {before : Form κ W} {docket : Docket κ W} {submission : Submission} {i : Input κ}
    (hh : before.session.halted = false) (hp : before.session.state.phase = .awaitingInput)
    (ht : submission.turn = before.session.state.prompts)
    (hi : before.session.script.stepAt? before.session.state.position = some (.input i)) :
    Change host ⟨before.session, before.world, before.past.reverse, none, docket⟩
      (taken (before.session.react host before.world (.submitted submission.text submission.turn))
        before.past.reverse (⟨submission, before, [], none⟩ :: docket))
  | reply {s : Session κ} {world : W} {line : List (Occurrence κ)} {result : CallResult}
    {docket : Docket κ W} (hr : CallResult.Taken result ∨ CallResult.Refused result) :
    Change host ⟨s, world, line, some (.returns result), docket⟩
      ⟨s, world, line, none, docket.answer result⟩

theorem turn_change (hs : l.Steady script) (h : Turn host l l') : Change host l l' := by
  have hw := hs.wellFormed
  cases h with
  | again =>
    cases hs.poised with
    | working hh ha hi =>
      obtain ⟨t, ht⟩ := accepts_of_awaits hw ha hi
      exact .again hh ha hi ht
  | @serve before docket submission =>
    cases hs.poised with
    | resting hr =>
      have hrec := Session.receive_receives host hr hw before.world submission.text submission.turn
      dsimp only at hrec
      generalize before.session.receive host before.world
        (.submitted submission.text submission.turn) = stage at hrec ⊢
      cases hrec with
      | refused he =>
        rw [taken, List.append_nil, Docket.extend_nil]
        exact .refused he
      | accepted hh hp ht hi => exact .accepted hh hp ht hi
  | reply =>
    cases hs.poised with
    | returning hr hres => exact .reply hres

theorem change_steady (hs : l.Steady script) (h : Change host l l') : l'.Steady script := by
  cases h with
  | again hh ha hi ht => exact taken_steady hs.script hs.reachable hh ht _ _ _
  | refused he =>
    cases hs.poised with
    | resting hr => exact ⟨hs.script, hs.reachable, .returning hr (.inr ⟨_, rfl, he⟩)⟩
  | @accepted before docket submission i hh hp ht hi =>
    rw [ht]
    exact taken_steady hs.script hs.reachable hh (moves_transition (.submit hp hi)) _ _ _
  | reply hr =>
    cases hs.poised with
    | returning hr hres => exact ⟨hs.script, hs.reachable, .resting hr⟩

end

/-! ## What has been told -/

structure Faithful (l : Ledger κ W) : Prop where
  transcript : l.session.transcript = messages l.line
  answers : l.session.answers = Answers.empty.pushAll (stored l.line)
  prompts : ∀ v ∈ views l.line, v.prompt ≤ l.session.state.prompts
  -- the view of a session that waits is the latest, and the first one of its prompt
  shown : l.session.halted = false → l.session.state.phase = .awaitingInput →
    0 < l.session.state.prompts ∧ ∃ earlier, l.line = earlier ++ [.published l.session.view] ∧
      ∀ v ∈ views earlier, v.prompt < l.session.state.prompts

section
variable {host : Host κ W} {l l' : Ledger κ W}

theorem taken_faithful {s : Session κ} {world : W} {line : List (Occurrence κ)}
    {next? : Option Next} {event : Event} {t : Transition κ} {docket docket' : Docket κ W}
    (hf : Faithful ⟨s, world, line, next?, docket⟩)
    (ht : transition s.script s.state event = .ok t) :
    (taken (s.react host world event) line docket').Faithful := by
  have hg := Session.react_grows host ht world
  have hm := transition_moves ht
  have hstate : (s.react host world event).session.state = t.state := hg.state
  have hle : s.state.prompts ≤ t.state.prompts := by
    rcases moves_prompts hm with ⟨_, h⟩ | ⟨_, h⟩ <;> omega
  refine ⟨?_, ?_, ?_, ?_⟩
  · rw [taken, messages_append, ← hf.transcript]
    exact hg.transcript
  · rw [taken, stored_append, Answers.pushAll, List.foldl_append]
    have ha := hf.answers
    unfold Answers.pushAll at ha
    rw [← ha]
    exact hg.answers
  · intro v hv
    rw [taken, hstate]
    rw [taken, views_append] at hv
    rcases List.mem_append.mp hv with hv | hv
    · exact Nat.le_trans (hf.prompts v hv) hle
    · exact Nat.le_of_eq (hg.views v hv).2.2
  · intro hh hp
    rw [taken, hstate] at hp
    obtain ⟨rfl, hrun, i, hi⟩ := moves_awaiting hm hp
    have hpresent := Session.react_present host hrun hi world
    rw [taken, hpresent]
    refine ⟨Nat.succ_pos _, line ++ [.notified (.statusChanged .waiting)], ?_, ?_⟩
    · rw [List.append_assoc]
      rfl
    · intro v hv
      rw [views_append] at hv
      rcases List.mem_append.mp hv with hv | hv
      · exact Nat.lt_succ_of_le (hf.prompts v hv)
      · cases hv

theorem change_faithful (hf : l.Faithful) (h : Change host l l') : l'.Faithful := by
  cases h with
  | again hh ha hi ht => exact taken_faithful hf ht
  | refused he => exact ⟨hf.transcript, hf.answers, hf.prompts, hf.shown⟩
  | accepted hh hp ht hi =>
    rw [ht]
    exact taken_faithful hf (moves_transition (.submit hp hi))
  | reply hr => exact ⟨hf.transcript, hf.answers, hf.prompts, hf.shown⟩

end

theorem opened_steady (script : Script κ) (settings : Settings) (world : W) :
    (Desk.opened script settings world).ledger.Steady script :=
  ⟨rfl, .initial, .working rfl .drive nofun⟩

theorem opened_faithful (script : Script κ) (settings : Settings) (world : W) :
    (Desk.opened script settings world).ledger.Faithful :=
  ⟨rfl, rfl, nofun, nofun⟩

end Ledger

end Dialogue
