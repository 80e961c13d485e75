import Dialogue.Proofs.Ledger
import Dialogue.Proofs.Passages

/-!
# Prospects

A form in the middle of a call that returns has a prospect: the session that the call ends with, and
what is still to occur. Every move of the task comes nearer to it, and shows at most one new view.
Clients do not change the prospect, and a task that sleeps goes on when it wakes; so a call that
returns for the session is brought to its end by the form, whatever happens in between.
-/

namespace Dialogue

variable {κ W : Type}

/-! ## Settings -/

section
variable {host : Host κ W}

theorem react_settings (s : Session κ) (world : W) (event : Event) :
    (s.react host world event).session.settings = s.settings := by
  cases ht : transition s.script s.state event with
  | error rejection => rw [Session.react_of_error host ht]
  | ok t => exact (Session.react_grows host ht world).settings

theorem finish_settings {bound : Nat} {stage : Stage κ W} {r : Returned κ W}
    (h : Session.finish host bound stage = some r) :
    r.session.settings = stage.session.settings := by
  replace h := finishes_of_finish h
  induction h with
  | returns => rfl
  | again _ _ ih => exact ih.trans (react_settings _ _ _)

end

/-! ## The prospect of a form -/

namespace Form

def stage (f : Form κ W) : Stage κ W :=
  ⟨f.ahead, f.session, f.world, f.next?.getD (.returns (.ok ()))⟩

/-- How far the task is from its rest. Whatever has still to occur counts three times, so that each
new view leaves room for a watcher to take notice of it. -/
def toGo (f : Form κ W) (bound : Nat) (r : Returned κ W) : Nat :=
  bound + 3 * r.history.length + if f.next?.isSome then 1 else 0

def version (f : Form κ W) : Nat := (views f.past).length

/-- The call in hand returns within the bound. Its ticket is none for the start. -/
structure Heads (host : Host κ W) (f : Form κ W) (ticket : Option Nat) (bound : Nat)
    (r : Returned κ W) : Prop where
  alive : f.Alive
  finish : Session.finish host bound f.stage = some r
  holds : f.next? ≠ none → f.work?.bind Work.ticket = ticket
  -- the reply is there once the task rests, and no earlier
  owed : ∀ t, ticket = some t → ((f.reply? t).isSome = true ↔ f.next? = none)
  fresh : ∀ t, f.tickets ≤ t → ticket ≠ some t ∧ f.reply? t = none

/-- What a move changes for a watcher: nothing, or the view is the next one of those to come. -/
def Shows (f : Form κ W) (bound : Nat) (r : Returned κ W) (f' : Form κ W) (bound' : Nat)
    (r' : Returned κ W) : Prop :=
  (f'.view = f.view ∧ f'.version = f.version ∧ views r'.history = views r.history ∧
      f'.toGo bound' r' + 1 ≤ f.toGo bound r) ∨
    (views r.history = f'.view :: views r'.history ∧ f'.version = f.version + 1 ∧
      f'.toGo bound' r' + 3 ≤ f.toGo bound r)

structure Nears (host : Host κ W) (f : Form κ W) (ticket : Option Nat) (bound : Nat)
    (r : Returned κ W) (f' : Form κ W) (bound' : Nat) (r' : Returned κ W) : Prop where
  heads : f'.Heads host ticket bound' r'
  session : r'.session = r.session
  world : r'.world = r.world
  queue : f'.queue = f.queue
  senders : f'.senders = f.senders
  tickets : f'.tickets = f.tickets
  others : ∀ t, ticket ≠ some t → f'.reply? t = f.reply? t
  shows : f.Shows bound r f' bound' r'

section
variable {host : Host κ W} {f f' : Form κ W} {ticket : Option Nat} {bound : Nat}
  {r : Returned κ W}

theorem stage_of_work {work : Work κ} (h : f.work? = some work) :
    f.stage = ⟨work.ahead, f.session, f.world, work.next⟩ ∧ f.next? = some work.next := by
  have hn : f.next? = some work.next := by
    unfold next?
    cases ha : f.activity with
    | unstarted => rw [work?, ha] at h; cases h
    | _ => rw [h]; rfl
  refine ⟨?_, hn⟩
  rw [stage, hn, ahead, h]
  rfl

theorem stage_of_unstarted (h : f.activity = .unstarted) :
    f.stage = ⟨[], f.session, f.world, .again .drive⟩ ∧ f.next? = some (.again .drive) := by
  simp [stage, ahead, work?, next?, h]

theorem nears_event {event : Event} {held : Option Nat} (hf : f.Heads host ticket bound r)
    (hheld : held = ticket) (hn : f.next? ≠ none)
    (hstage : f.stage = ⟨[], f.session, f.world, .again event⟩) :
    ∃ bound' r', f.Nears host ticket bound r
      (f.takeUp held (f.session.react host f.world event)) bound' r' := by
  subst hheld
  have hfinish := hf.finish
  rw [hstage] at hfinish
  cases bound with
  | zero => rw [finish_zero rfl] at hfinish; cases hfinish
  | succ bound =>
    rw [finish_again rfl] at hfinish
    obtain ⟨r', hr', rfl⟩ := Option.map_eq_some_iff.mp hfinish
    refine ⟨bound, r', ⟨⟨hf.alive.kept, rfl, fun h => (by cases h)⟩, hr', fun _ => rfl,
      fun t ht => ?_, hf.fresh⟩, rfl, rfl, rfl, rfl, rfl, fun _ _ => rfl, .inl ?_⟩
    · exact iff_of_false (fun h => hn ((hf.owed t ht).mp h)) fun h => (by cases h)
    have hsome : f.next?.isSome = true := Option.isSome_iff_ne_none.mpr hn
    have hsome' : (f.takeUp held (f.session.react host f.world event)).next?.isSome = true := rfl
    refine ⟨rfl, rfl, rfl, ?_⟩
    simp only [toGo, hsome, hsome', List.nil_append]
    omega

theorem nears_reveal {o : Occurrence κ} {ahead : List (Occurrence κ)} {next : Next}
    {activity : Activity κ} (hf : f.Heads host ticket bound r) (ha : f'.Alive)
    (h : f.work? = some ⟨ticket, o :: ahead, next⟩) (hf' : f' = { f.reveal o with activity })
    (hact : activity = .working ⟨ticket, ahead, next⟩ ∨
      ∃ wake, activity = .asleep wake ⟨ticket, ahead, next⟩) :
    ∃ r', f.Nears host ticket bound r f' bound r' := by
  subst hf'
  obtain ⟨hs, hw, hpast, _, hq, hsend, ht, hr⟩ := f.reveal_kept o
  have hwork : Form.work? { f.reveal o with activity } = some ⟨ticket, ahead, next⟩ := by
    rcases hact with rfl | ⟨wake, rfl⟩ <;> rfl
  obtain ⟨hstage, hnext⟩ := stage_of_work h
  obtain ⟨hstage', hnext'⟩ := stage_of_work hwork
  have hfinish := hf.finish
  -- the stage without its first entry is the stage after the move
  have hcons : f.stage = Stage.after ⟨ahead, f.session, f.world, next⟩ [o] := hstage
  rw [hcons, Stage.finish_after] at hfinish
  obtain ⟨r', hr', rfl⟩ := Option.map_eq_some_iff.mp hfinish
  have hreply (t : Nat) : reply? { f.reveal o with activity } t = f.reply? t := by
    rw [reply?, reply?, hr]
  refine ⟨r', ⟨ha, ?_, fun _ => by rw [hwork]; rfl, fun t ht' => ?_, fun t hle => ?_⟩, rfl, rfl, hq,
    hsend, ht, fun t _ => hreply t, ?_⟩
  · rw [hstage', hs, hw]
    exact hr'
  · rw [hreply, hf.owed t ht', hnext, hnext']
  · obtain ⟨hne, hnone⟩ := hf.fresh t (ht ▸ hle)
    exact ⟨hne, (hreply t).trans hnone⟩
  · have hless : toGo { f.reveal o with activity } bound r' + 3 =
        f.toGo bound (r'.after [o]) := by
      simp only [toGo, hnext, hnext', Returned.after, List.length_append, List.length_singleton,
        Option.isSome_some]
      omega
    have hversion (h : o.view? = none) : version { f.reveal o with activity } = f.version := by
      simp only [version, hpast, views, List.filterMap_cons, h]
    cases o with
    | published view =>
      exact .inr ⟨rfl, rfl, Nat.le_of_eq hless⟩
    | called call reply => exact .inl ⟨rfl, hversion rfl, rfl, by omega⟩
    | slept millis => exact .inl ⟨rfl, hversion rfl, rfl, by omega⟩
    | notified notice => exact .inl ⟨rfl, hversion rfl, rfl, by omega⟩

theorem nears_reply {result : CallResult} (hf : f.Heads host ticket bound r)
    (h : f.work? = some ⟨ticket, [], .returns result⟩) :
    ∃ r', f.Nears host ticket bound r (f.hand ticket result) bound r' := by
  obtain ⟨hstage, hnext⟩ := stage_of_work h
  have hfinish := hf.finish
  rw [hstage, finish_returns rfl] at hfinish
  cases hfinish
  have hreply (t : Nat) (hne : ticket ≠ some t) : (f.hand ticket result).reply? t = f.reply? t := by
    cases ticket with
    | none => rfl
    | some held =>
      have hbeq : (t == held) = false := beq_eq_false_iff_ne.mpr fun h => hne (h ▸ rfl)
      simp [reply?, hand, List.lookup_cons, hbeq]
  refine ⟨⟨[], f.session, f.world, .ok ()⟩, ⟨⟨hf.alive.kept, rfl, fun h => (by cases h)⟩,
    finish_returns rfl bound, fun h => absurd rfl h, ?_, fun t hle => ?_⟩, rfl, rfl, rfl, rfl, rfl,
    hreply, .inl ⟨rfl, rfl, rfl, ?_⟩⟩
  · rintro t rfl
    have hsome : ((f.hand (some t) result).reply? t).isSome = true := by simp [reply?, hand]
    exact iff_of_true hsome rfl
  · obtain ⟨hne, hnone⟩ := hf.fresh t hle
    exact ⟨hne, (hreply t hne).trans hnone⟩
  · have hnone : (f.hand ticket result).next? = none := rfl
    simp [toGo, hnext, hnone]

theorem nears_move (hf : f.Heads host ticket bound r) (hn : f.next? ≠ none)
    (hm : f.move? host = some f') : ∃ bound' r', f.Nears host ticket bound r f' bound' r' := by
  have hheld {work : Work κ} (h : f.work? = some work) : work.ticket = ticket := by
    rw [← hf.holds hn, h]
    rfl
  have hmoved : Desk.Moved host f [] ⟨f', Desk.noted ⟨f, []⟩⟩ := moved_of_move hf.alive hm
  have halive : f'.Alive := moved_alive hf.alive hmoved
  generalize hd : (⟨f', Desk.noted ⟨f, []⟩⟩ : Desk κ W) = d at hmoved
  cases hmoved with
  | start h =>
    cases congrArg Desk.form hd
    have hr : f.session.receive host f.world .drive = f.session.react host f.world .drive := by
      simp [Session.receive, hf.alive.fresh h]
    rw [hr]
    refine nears_event hf ?_ hn (stage_of_unstarted h).1
    rw [← hf.holds hn, work?, h]
    rfl
  | serve h hq =>
    have hnone : f.next? = none := by simp [next?, work?, h]
    exact absurd hnone hn
  | reveal h hact =>
    have hform := congrArg Desk.form hd
    cases hheld h
    obtain ⟨r', hr'⟩ := nears_reveal hf halive h hform hact
    exact ⟨bound, r', hr'⟩
  | again h =>
    cases congrArg Desk.form hd
    exact nears_event hf (hheld h) hn (stage_of_work h).1
  | reply h =>
    cases congrArg Desk.form hd
    cases hheld h
    obtain ⟨r', hr'⟩ := nears_reply hf h
    exact ⟨bound, r', hr'⟩

/-! ## The beginning and the end of a call -/

theorem spawn_heads {script : Script κ} {settings : Settings} {world world' : W} {later : Session κ}
    {result : CallResult} {taken : Nat} {history : List (Occurrence κ)}
    (hp : Stage.Passes host ⟨[], .fresh script settings, world, .again .drive⟩
      ⟨[], later, world', .returns result⟩ taken history) :
    (spawn script settings world).Heads host none taken ⟨history, later, world', result⟩ := by
  have hfinish := hp.returns 0
  rw [Nat.zero_add] at hfinish
  exact ⟨⟨rfl, rfl, fun _ => rfl⟩, hfinish, fun _ => rfl, fun _ h => (by cases h),
    fun _ _ => ⟨fun h => (by cases h), rfl⟩⟩

theorem heads_resting (hf : f.Heads host ticket bound r) (hn : f.next? = none) :
    f.activity = .resting ∧ r.session = f.session ∧ r.world = f.world ∧ r.history = [] := by
  have hact : f.activity = .resting := by
    cases ha : f.activity with
    | resting => rfl
    | gone =>
      have hthere := hf.alive.there
      rw [isGone, ha] at hthere
      cases hthere
    | _ => simp [next?, work?, ha] at hn
  have hstage : f.stage = ⟨[], f.session, f.world, .returns (.ok ())⟩ := by
    simp [stage, ahead, work?, next?, hact]
  have hfinish := hf.finish
  rw [hstage, finish_returns rfl] at hfinish
  cases hfinish
  exact ⟨hact, rfl, rfl, rfl⟩

/-- A task at rest takes the only submission off its queue, and the call of it is in hand. -/
theorem heads_serve {submission : Submission} {later : Session κ} {world' : W}
    {result : CallResult} {taken : Nat} {history : List (Occurrence κ)}
    (hf : f.Heads host ticket bound r) (hn : f.next? = none) (hq : f.queue = [submission])
    (hs : f.senders = []) (ht : submission.ticket < f.tickets)
    (hr : f.reply? submission.ticket = none) (hh : f.session.halted = false)
    (hp : Stage.Passes host
      ⟨[], f.session, f.world, .again (.submitted submission.text submission.turn)⟩
      ⟨[], later, world', .returns result⟩ (taken + 1) history)
    (hm : f.move? host = some f') :
    f'.Heads host (some submission.ticket) taken ⟨history, later, world', result⟩ ∧
      f'.queue = [] ∧ f'.senders = [] ∧ f'.view = f.view := by
  have hact := (heads_resting hf hn).1
  have hreceive : f.session.receive host f.world (.submitted submission.text submission.turn) =
      f.session.react host f.world (.submitted submission.text submission.turn) := by
    simp [Session.receive, hh]
  have hfinish := hp.returns 0
  rw [Nat.zero_add, finish_again rfl] at hfinish
  obtain ⟨r', hr', he⟩ := Option.map_eq_some_iff.mp hfinish
  cases he
  simp only [hf.alive.move_eq, hact, serve, hq, hs, hreceive, Option.some.injEq] at hm
  subst hm
  refine ⟨⟨⟨hf.alive.kept, rfl, fun h => (by cases h)⟩, hr', fun _ => rfl, fun t h => ?_,
    fun t hle => ⟨fun h => ?_, (hf.fresh t hle).2⟩⟩, rfl, rfl, rfl⟩
  · cases h
    refine iff_of_false (fun hsome => ?_) (fun h => (by cases h))
    have hnone : (f.reply? submission.ticket).isSome = true := hsome
    rw [hr] at hnone
    cases hnone
  · cases h
    exact absurd (show f.tickets ≤ submission.ticket from hle) (by omega)

/-! ## Clients -/

theorem heads_congr {g : Form κ W} (hf : f.Heads host ticket bound r)
    (hs : g.session = f.session) (hw : g.world = f.world) (ha : g.activity = f.activity)
    (hk : g.abandoned = f.abandoned) (hr : g.replies = f.replies) (ht : f.tickets ≤ g.tickets) :
    g.Heads host ticket bound r := by
  have hwork : g.work? = f.work? := by simp only [work?, ha]
  have hnext : g.next? = f.next? := by simp only [next?, ha, hwork]
  have hstage : g.stage = f.stage := by simp only [stage, ahead, hs, hw, hwork, hnext]
  have hreply (t : Nat) : g.reply? t = f.reply? t := by rw [reply?, reply?, hr]
  refine ⟨alive_congr hf.alive hs ha hk, by rw [hstage]; exact hf.finish, ?_, fun t => ?_,
    fun t hle => ?_⟩
  · rw [hwork, hnext]
    exact hf.holds
  · rw [hnext, hreply]
    exact hf.owed t
  · rw [hreply]
    exact hf.fresh t (by omega)

theorem send_empty (hq : f.queue = []) (hs : f.senders = []) (hc : 0 < f.capacity) (text : String)
    (turn : Nat) : f.send text turn =
      (f.tickets, { f with tickets := f.tickets + 1, queue := [⟨f.tickets, text, turn⟩] }) := by
  unfold capacity at hc
  simp [send, capacity, hq, hs, hc]

/-- A call in hand goes on at once, or when the task wakes. -/
theorem heads_ready (hf : f.Heads host ticket bound r) (hn : f.next? ≠ none) :
    (∃ f', f.move? host = some f') ∨ ∃ wake, f.wake? = some wake ∧ f.clock ≤ wake ∧
      ∃ f', move? host { f with clock := wake } = some f' := by
  obtain ⟨hk, ht, _⟩ := hf.alive
  cases ha : f.activity with
  | unstarted => exact .inl (Option.isSome_iff_exists.mp (by simp [move?, ht, hk, ha]))
  | resting => exact absurd (by simp [next?, work?, ha]) hn
  | working work => exact .inl (Option.isSome_iff_exists.mp (by simp [move?, ht, hk, ha]))
  | asleep wake work =>
    by_cases hle : wake ≤ f.clock
    · exact .inl (Option.isSome_iff_exists.mp (by simp [move?, ht, hk, ha, hle]))
    · exact .inr ⟨wake, by rw [wake?, ha], by omega,
        Option.isSome_iff_exists.mp (by simp [move?, isGone, hk])⟩
  | gone => rw [isGone, ha] at ht; cases ht

end

end Form

end Dialogue
