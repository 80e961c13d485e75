import Dialogue.Form.Clock
import Dialogue.Proofs.Elapsed
import Dialogue.Proofs.Passages
import Dialogue.Proofs.Submissions

/-!
# The clock of a form

A clock that stands still while the task has moves to make, and that never passes the time at which
the task wakes. On such a clock the call in hand began as long ago as what has occurred since takes,
so a reply is handed over just when the call has taken its time.
-/

namespace Dialogue

variable {κ W : Type}

/-! ## Courses on a clock -/

namespace Desk

inductive Ticks (host : Host κ W) (d : Desk κ W) : Desk κ W → Prop
  | act {d' : Desk κ W} (h : d.Step host d') (hc : d'.form.clock = d.form.clock) : Ticks host d d'
  | pass {clock : Nat} (h : d.form.clock ≤ clock) (hidle : d.form.move? host = none)
    (hwake : ∀ wake, d.form.wake? = some wake → clock ≤ wake) :
    Ticks host d ⟨{ d.form with clock }, d.docket⟩

inductive Timely (host : Host κ W) (d : Desk κ W) : Desk κ W → Prop
  | refl : Timely host d d
  | step {b c : Desk κ W} : Timely host d b → b.Ticks host c → Timely host d c

theorem Timely.course {host : Host κ W} {d d' : Desk κ W} (h : d.Timely host d') :
    d.Course host d' := by
  induction h with
  | refl => exact .refl
  | step _ ht ih =>
    cases ht with
    | act hs _ => exact ih.step hs
    | pass h _ _ => exact ih.step (.pass h)

end Desk

/-! ## The call in hand -/

def Work.stage (work : Work κ) (f : Form κ W) : Stage κ W :=
  ⟨work.ahead, f.session, f.world, work.next⟩

/-- The call that began with the event at the form `before` leads to the stage, and `history` is
what has occurred since. -/
def Form.Leads (host : Host κ W) (before : Form κ W) (event : Event)
    (history : List (Occurrence κ)) (stage : Stage κ W) : Prop :=
  ∃ taken, (before.session.receive host before.world event).Passes host stage taken history

def Form.due (f : Form κ W) : Nat := f.wake?.getD f.clock

section
variable {host : Host κ W} {before f f' : Form κ W} {event : Event}
  {history : List (Occurrence κ)} {stage : Stage κ W}

theorem leads_receive (before : Form κ W) (event : Event) :
    before.Leads host event [] (before.session.receive host before.world event) :=
  ⟨0, .refl _⟩

theorem Form.Leads.reveal {o : Occurrence κ} {ahead : List (Occurrence κ)} {session : Session κ}
    {world : W} {next : Next}
    (h : before.Leads host event history ⟨o :: ahead, session, world, next⟩) :
    before.Leads host event (history ++ [o]) ⟨ahead, session, world, next⟩ := by
  obtain ⟨taken, h⟩ := h
  exact ⟨taken + 0, h.trans (Stage.passes_after ⟨ahead, session, world, next⟩ [o])⟩

theorem Form.Leads.again {session : Session κ} {world : W} {later : Event}
    (h : before.Leads host event history ⟨[], session, world, .again later⟩) :
    before.Leads host event history (session.react host world later) := by
  obtain ⟨taken, h⟩ := h
  have hp := h.trans Stage.passes_again
  rw [List.append_nil] at hp
  exact ⟨taken + 1, hp⟩

theorem Form.Leads.returns {session : Session κ} {world : W} {result : CallResult}
    (h : before.Leads host event history ⟨[], session, world, .returns result⟩) :
    ∃ bound, before.session.call host bound before.world event =
      some ⟨history, session, world, result⟩ := by
  obtain ⟨taken, h⟩ := h
  exact ⟨0 + taken, h.returns 0⟩

theorem proceed_due (host : Host κ W) (f : Form κ W) (work : Work κ) :
    (f.proceed host work).clock = f.clock ∧
      (f.proceed host work).due = f.clock + elapsed (work.ahead.take 1) := by
  obtain ⟨ticket, ahead, next⟩ := work
  cases ahead with
  | nil => cases next <;> exact ⟨rfl, rfl⟩
  | cons o ahead =>
    cases o with
    | slept n =>
      refine ⟨rfl, ?_⟩
      by_cases hn : n = 0
      · simp [Form.proceed, Form.due, Form.wake?, Form.reveal, elapsed, hn]
      · simp [Form.proceed, Form.due, Form.wake?, elapsed, hn]
    | called call reply => exact ⟨rfl, rfl⟩
    | notified notice => exact ⟨rfl, rfl⟩
    | published view => exact ⟨rfl, rfl⟩

/-- A move is made when it is due and takes no time; what it reveals is slept for after it. -/
theorem move_due (h : f.move? host = some f') (ha : f.Alive) :
    f.due ≤ f.clock ∧ f'.clock = f.clock ∧ f'.due = f.clock + elapsed (f.ahead.take 1) := by
  cases ha.moves h with
  | start hact =>
    simp [Form.due, Form.wake?, Form.ahead, Form.work?, Form.takeUp, hact, elapsed]
  | serve hact hq =>
    simp [Form.due, Form.wake?, Form.ahead, Form.work?, Form.takeUp, hact, elapsed]
  | @proceed work hwork hwake =>
    have hahead : f.ahead = work.ahead := by simp [Form.ahead, hwork]
    have hdue : f.due ≤ f.clock := by
      unfold Form.due
      cases hw : f.wake? with
      | none => exact Nat.le_refl _
      | some wake => exact hwake wake hw
    rw [hahead]
    exact ⟨hdue, proceed_due host f work⟩

end

/-! ## Keeping time -/

/-- How the call in hand began, by the ticket of its work: it is the start, or that of the latest
submission on the docket. -/
inductive Desk.Began (script : Script κ) (settings : Settings) (world : W) (docket : Docket κ W) :
    Option Nat → Form κ W → Event → List (Occurrence κ) → Prop
  | start (history : List (Occurrence κ)) :
    Began script settings world docket none (.spawn script settings world) .drive history
  | submit {e : Entry κ W} {earlier : Docket κ W} (h : docket = e :: earlier) :
    Began script settings world docket (some e.submission.ticket) e.before
      (.submitted e.submission.text e.submission.turn) e.history

structure Desk.OnTime (host : Host κ W) (script : Script κ) (settings : Settings) (world : W)
    (d : Desk κ W) : Prop where
  fresh : d.form.activity = .unstarted → d.form.session = .fresh script settings ∧
    d.form.world = world ∧ d.form.clock = 0
  early : d.form.clock ≤ d.form.due
  hand : ∀ work, d.form.work? = some work → ∃ before event history,
    Desk.Began script settings world d.docket work.ticket before event history ∧
      (before.session.script = script ∧ Reachable script before.session.state) ∧
      before.Leads host event history (work.stage d.form) ∧
      d.form.due = before.clock + elapsed history

section
variable {host : Host κ W} {script : Script κ} {settings : Settings} {world : W}

theorem Desk.Began.extend {docket : Docket κ W} {ticket : Option Nat} {before : Form κ W}
    {event : Event} {history : List (Occurrence κ)}
    (h : Desk.Began script settings world docket ticket before event history)
    (o : Occurrence κ) :
    Desk.Began script settings world (docket.extend [o]) ticket before event (history ++ [o]) := by
  cases h with
  | start => exact .start _
  | submit h =>
    subst h
    exact .submit rfl

theorem moved_onTime {f : Form κ W} {docket : Docket κ W} {d : Desk κ W}
    (ho : Desk.OnTime host script settings world ⟨f, docket⟩)
    (hf : f.session.script = script ∧ Reachable script f.session.state)
    (hm : Desk.Moved host f docket d) (hdue : f.due ≤ f.clock) (hclock : d.form.clock = f.clock)
    (hlater : d.form.due = f.clock + elapsed (f.ahead.take 1)) :
    d.OnTime host script settings world := by
  have hearly : d.form.clock ≤ d.form.due := by omega
  have hnow : f.due = f.clock := Nat.le_antisymm hdue ho.early
  have hahead {work : Work κ} (h : f.work? = some work) : f.ahead = work.ahead := by
    rw [Form.ahead, h]
    rfl
  cases hm with
  | start h =>
    obtain ⟨hs, hw, hc⟩ := ho.fresh h
    dsimp only at hs hw hc
    refine ⟨fun hun => (by cases hun), hearly, fun work hwork => ?_⟩
    cases hwork
    refine ⟨.spawn script settings world, .drive, [], .start [], ⟨rfl, .initial⟩, ?_, ?_⟩
    · rw [hs, hw]
      exact leads_receive (.spawn script settings world) .drive
    · rw [hlater, hc]
      simp [Form.ahead, Form.work?, h, elapsed, Form.spawn]
  | @serve submission queue h hq =>
    refine ⟨fun hun => (by cases hun), hearly, fun work hwork => ?_⟩
    cases hwork
    refine ⟨f, .submitted submission.text submission.turn, [], .submit rfl, hf, ?_, ?_⟩
    · exact leads_receive f _
    · rw [hlater]
      simp [Form.ahead, Form.work?, h]
  | @reveal ticket o ahead next activity h hact =>
    obtain ⟨before, event, history, hbegan, hsound, hleads, hbefore⟩ := ho.hand _ h
    obtain ⟨hs, hw, _⟩ := f.reveal_kept o
    have hwork' : Form.work? { f.reveal o with activity } = some ⟨ticket, ahead, next⟩ := by
      rcases hact with rfl | ⟨wake, rfl⟩ <;> rfl
    refine ⟨?_, hearly, fun work hwork => ?_⟩
    · intro hun
      rcases hact with rfl | ⟨wake, rfl⟩ <;> cases hun
    · cases hwork'.symm.trans hwork
      refine ⟨before, event, history ++ [o], hbegan.extend o, hsound, ?_, ?_⟩
      · rw [Work.stage, hs, hw]
        exact hleads.reveal
      · rw [hlater, hahead h, ← hnow, hbefore, elapsed_append, Nat.add_assoc]
        rfl
  | @again ticket event h =>
    obtain ⟨before, event', history, hbegan, hsound, hleads, hbefore⟩ := ho.hand _ h
    refine ⟨fun hun => (by cases hun), hearly, fun work hwork => ?_⟩
    cases hwork
    refine ⟨before, event', history, hbegan, hsound, hleads.again, ?_⟩
    rw [hlater, hahead h, ← hnow, hbefore]
    rfl
  | reply h => exact ⟨fun hun => (by cases hun), hearly, fun work hwork => (by cases hwork)⟩

theorem onTime_congr {f g : Form κ W} {docket : Docket κ W}
    (ho : Desk.OnTime host script settings world ⟨f, docket⟩) (hs : g.session = f.session)
    (hw : g.world = f.world) (ha : g.activity = f.activity) (hc : g.clock = f.clock) :
    Desk.OnTime host script settings world ⟨g, docket⟩ := by
  have hdue : g.due = f.due := by simp only [Form.due, Form.wake?, ha, hc]
  have hwork : g.work? = f.work? := by simp only [Form.work?, ha]
  refine ⟨fun h => ?_, ?_, fun work h => ?_⟩
  · rw [hs, hw, hc]
    exact ho.fresh (ha ▸ h)
  · rw [hdue, hc]
    exact ho.early
  · rw [hwork] at h
    obtain ⟨before, event, history, hbegan, hsound, hleads, hbefore⟩ := ho.hand work h
    refine ⟨before, event, history, hbegan, hsound, ?_, by rw [hdue, hbefore]⟩
    rwa [Work.stage, hs, hw]

theorem idle_cases {f : Form κ W} (ha : f.Alive) (h : f.move? host = none) :
    f.activity = .resting ∨ ∃ wake work, f.activity = .asleep wake work ∧ f.clock < wake := by
  rw [ha.move_eq] at h
  cases hact : f.activity with
  | unstarted => rw [hact] at h; cases h
  | resting => exact .inl rfl
  | working work => rw [hact] at h; cases h
  | asleep wake work =>
    rw [hact] at h
    simp only [ite_eq_right_iff, reduceCtorEq, imp_false] at h
    exact .inr ⟨wake, work, rfl, Nat.lt_of_not_le h⟩
  | gone =>
    have hthere := ha.there
    rw [Form.isGone, hact] at hthere
    cases hthere

theorem ticks_onTime {d d' : Desk κ W} (hd : d.Sound script)
    (ho : d.OnTime host script settings world) (h : d.Ticks host d') :
    d'.OnTime host script settings world := by
  cases h with
  | act h hc =>
    cases h with
    | send text turn =>
      obtain ⟨hs, hw, hact, _⟩ := Form.send_kept _ text turn
      exact onTime_congr ho hs hw hact hc
    | leave h => exact onTime_congr ho rfl rfl rfl rfl
    | follow feed => exact onTime_congr ho rfl rfl rfl rfl
    | pass h => exact onTime_congr ho rfl rfl rfl hc
    | move h =>
      obtain ⟨hdue, hclock, hlater⟩ := move_due h hd.alive
      have hscript : d.form.session.script = script := hd.steady.script
      have hreach : Reachable d.form.session.script d.form.session.state := hd.steady.reachable
      rw [hscript] at hreach
      exact moved_onTime ho ⟨hscript, hreach⟩ (moved_of_move hd.alive h) hdue hclock hlater
  | @pass clock h hidle hwake =>
    rcases idle_cases hd.alive hidle with hact | ⟨wake, work, hact, _⟩
    · refine ⟨fun hun => ?_, ?_, fun work hw => ?_⟩
      · cases hact.symm.trans hun
      · simp [Form.due, Form.wake?, hact]
      · simp [Form.work?, hact] at hw
    · have hdue : d.form.due = wake := by simp [Form.due, Form.wake?, hact]
      have hdue' : Form.due { d.form with clock } = wake := by simp [Form.due, Form.wake?, hact]
      refine ⟨fun hun => ?_, ?_, fun work hw => ?_⟩
      · cases hact.symm.trans hun
      · rw [hdue']
        exact hwake wake (by rw [Form.wake?, hact])
      · rw [hdue', ← hdue]
        exact ho.hand work hw

theorem opened_onTime : (Desk.opened script settings world).OnTime host script settings world :=
  ⟨fun _ => ⟨rfl, rfl, rfl⟩, Nat.le_refl 0, fun work h => (by cases h)⟩

theorem timely_onTime {d : Desk κ W} (h : (Desk.opened script settings world).Timely host d) :
    d.OnTime host script settings world := by
  induction h with
  | refl => exact opened_onTime
  | step hb ht ih =>
    exact ticks_onTime (course_sound (opened_sound script settings world) hb.course) ih ht

theorem Desk.Timely.trans {a b c : Desk κ W} (hab : a.Timely host b) (hbc : b.Timely host c) :
    a.Timely host c := by
  induction hbc with
  | refl => exact hab
  | step _ ht ih => exact ih.step ht

theorem waitUntil_timely {deadline : Nat} (ready : Form κ W → Bool) : ∀ (bound : Nat)
    {d : Desk κ W}, d.Sound script → d.form.clock ≤ deadline →
      ∃ docket, d.Timely host ⟨(d.form.waitUntil host deadline ready bound).2, docket⟩
  | 0, d, _, _ => ⟨d.docket, .refl⟩
  | bound + 1, d, hd, hc => by
    rw [Form.waitUntil]
    cases hm : d.form.move? host with
    | some moved =>
      obtain ⟨_, hclock, _⟩ := move_due hm hd.alive
      have hstep : d.Step host ⟨moved, d.noted⟩ := .move hm
      have hfirst : d.Timely host ⟨moved, d.noted⟩ := .step .refl (.act hstep hclock)
      obtain ⟨docket, hrest⟩ := waitUntil_timely ready bound (step_sound hd hstep)
        (show moved.clock ≤ deadline by omega)
      exact ⟨docket, hfirst.trans hrest⟩
    | none =>
      simp only
      split
      · exact ⟨d.docket, .refl⟩
      cases hw : d.form.wake? with
      | none =>
        refine ⟨d.docket, .step .refl (.pass hc hm fun wake h => ?_)⟩
        rw [hw] at h
        cases h
      | some wake =>
        have hlater : d.form.clock ≤ wake := by
          rcases idle_cases hd.alive hm with hact | ⟨wake', work, hact, hlt⟩
          · simp [Form.wake?, hact] at hw
          · obtain rfl : wake' = wake := by simpa [Form.wake?, hact] using hw
            exact hlt.le
        simp only
        split
        · rename_i hle
          have hpass : d.Ticks host ⟨{ d.form with clock := wake }, d.docket⟩ := by
            refine .pass hlater hm fun wake' h => ?_
            rw [hw] at h
            cases h
            exact Nat.le_refl _
          have hstep : d.Step host ⟨{ d.form with clock := wake }, d.docket⟩ := .pass hlater
          have hsound := step_sound hd hstep
          obtain ⟨docket, hrest⟩ := waitUntil_timely ready bound hsound hle
          exact ⟨docket, (Desk.Timely.step .refl hpass).trans hrest⟩
        · rename_i hgt
          refine ⟨d.docket, .step .refl (.pass hc hm fun wake' h => ?_)⟩
          rw [hw] at h
          cases h
          omega

end

/-- **The time of a call.** A call takes the time that its callbacks sleep, one after another, and
for each output that it settles the longer of its callback's sleep and its pause; when the callback
of an output fails, the call ends with it, and the pause is given up. A declined call takes no
time. Between the begin of a call by the task of a form and its reply, the clock has moved by that
time. -/
theorem calls_take_awaited_time (host : Host κ W) (script : Script κ) (settings : Settings)
    (world : W) :
    (∀ requests s w bound request r, Session.Reached host script settings world requests s w →
      s.request host bound w request = some r →
        r.Timed host (s.callDeeds host bound w (request.event s.state))) ∧
    (∀ d f ticket result, (Desk.opened script settings world).Timely host d →
      d.form.work? = some ⟨ticket, [], .returns result⟩ → d.form.move? host = some f →
        ∃ before event history bound r,
          Desk.Began script settings world d.docket ticket before event history ∧
          before.session.call host bound before.world event = some r ∧
          r.Timed host (before.session.callDeeds host bound before.world event) ∧
          r.history = history ∧ r.result = result ∧
          f.clock = before.clock + elapsed r.history) := by
  constructor
  · intro requests s w bound request r h hr
    obtain ⟨hs, hreach⟩ := h.sound
    rw [request_eq] at hr
    exact call_timed hs hreach hr
  · intro d f ticket result h hw hm
    have ho := timely_onTime h
    have ha := (course_sound (opened_sound script settings world) h.course).alive
    obtain ⟨before, event, history, hbegan, ⟨hs, hreach⟩, hleads, hbefore⟩ := ho.hand _ hw
    obtain ⟨bound, hr⟩ := hleads.returns
    obtain ⟨hdue, hclock, _⟩ := move_due hm ha
    have hearly := ho.early
    refine ⟨before, event, history, bound, _, hbegan, hr, call_timed hs hreach hr, rfl, rfl, ?_⟩
    simp only
    omega

def slowly : Script Bool where
  steps := [.block .branch true
    [.output ⟨some (.computed true), .ofMillis 2000, some true⟩,
      .output ⟨some (.computed true), .ofMillis 2000, some false⟩] none]
  complete := none
  filled := rfl

def sleepy : Host Bool Unit where
  produce _ _ world := (⟨30, .ok "Thinking"⟩, world)
  holds _ _ world := (⟨20, .ok true⟩, world)
  accepts _ _ _ world := (⟨0, .ok true⟩, world)
  complete works _ world := (⟨500, if works then .ok () else .error "out of order"⟩, world)

-- the pauses are multiplied out with doubles
set_option maxRecDepth 2000 in
/-- The first callback is done before the pause is over; the second fails within its pause, which is
given up. -/
theorem slowly_timed :
    let f := (Form.waitUntil sleepy 4000 (fun _ => false) 28 (.spawn slowly .standard ())).2
    (∃ r, (Session.fresh slowly .standard).request sleepy 12 () .start = some r ∧
      r.Timed sleepy ((Session.fresh slowly .standard).callDeeds sleepy 12 () .drive) ∧
      elapsed r.history = 20 + (30 + 2000) + (30 + 500)) ∧
    ∃ f' before : Form Bool Unit, ∃ event bound r, f.move? sleepy = some f' ∧ f'.clock = 2580 ∧
      before.session.call sleepy bound before.world event = some r ∧
      f'.clock = before.clock + elapsed r.history := by
  intro f
  obtain ⟨hcalls, hforms⟩ := calls_take_awaited_time sleepy slowly .standard ()
  constructor
  · have hr : ((Session.fresh slowly .standard).request sleepy 12 () .start).map
        (fun r => elapsed r.history) = some 2580 := rfl
    obtain ⟨r, hr, helapsed⟩ := Option.map_eq_some_iff.mp hr
    exact ⟨r, hr, hcalls [] _ _ 12 .start r .fresh hr, helapsed⟩
  · have htimely : ∃ docket, (Desk.opened slowly .standard ()).Timely sleepy ⟨f, docket⟩ :=
      waitUntil_timely _ 28 (opened_sound slowly .standard ()) (Nat.zero_le _)
    obtain ⟨docket, htimely⟩ := htimely
    obtain ⟨before, event, _, bound, r, _, hcall, _, _, _, hclock⟩ :=
      hforms _ _ none (.error (.callback ⟨.hook, [0, 1], "out of order"⟩)) htimely rfl rfl
    exact ⟨_, before, event, bound, r, rfl, rfl, hcall, hclock⟩

end Dialogue
