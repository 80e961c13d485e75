import Dialogue.Proofs.Clock
import Dialogue.Proofs.Views

/-!
# Waits for a status

Whoever waits for a status looks at the latest view now and then and misses what is published in
between. The answer is right all the same: a view that is halted or completed is the last one of its
form, and no halted view is one of a form that waits for an answer.
-/

namespace Dialogue

variable {κ W : Type}

/-! ## The last view of a session -/

structure View.Live (v : View) : Prop where
  going : v.halted = false
  unfinished : v.status ≠ .completed

structure Session.Over (s : Session κ) : Prop where
  ended : s.halted = true ∨ s.state.phase = .completed
  silent : s.state.phase ≠ .awaitingInput

/-- Views that lead to a session, which is over when the last of them says so. -/
inductive Session.Shows (s : Session κ) : List View → Prop
  | going {shown : List View} (h : ∀ v ∈ shown, v.Live) : Shows s shown
  | ending {earlier : List View} (hs : s.Over) (h : ∀ v ∈ earlier, v.Live) :
    Shows s (earlier ++ [s.view])

namespace Session

section
variable {host : Host κ W} {s : Session κ}

theorem Over.completed (ho : s.Over) (hh : s.halted = false) : s.state.phase = .completed := by
  apply ho.ended.resolve_left
  simp [hh]

theorem Shows.after {earlier shown : List View} (h : s.Shows shown)
    (he : ∀ v ∈ earlier, v.Live) : s.Shows (earlier ++ shown) := by
  cases h with
  | going h => exact .going (List.forall_mem_append.mpr ⟨he, h⟩)
  | ending hs h =>
    rw [← List.append_assoc]
    exact .ending hs (List.forall_mem_append.mpr ⟨he, h⟩)

theorem perform_views (host : Host κ W) (s : Session κ) (world : W) (effect : Effect κ) :
    ∀ v ∈ views (s.perform host world effect).history, v.halted = s.halted := by
  cases hn : s.effectNotice? effect with
  | none =>
    rw [(perform_asks host hn world).1.no_views]
    exact nofun
  | some notice =>
    rw [perform_announces host hn]
    intro v hv
    obtain rfl : v = (s.noting notice).view := List.mem_singleton.mp hv
    cases effect with
    | appendMessage speaker text => cases hn; rfl
    | storeAnswer name value => cases hn; rfl
    | publishStatus status => cases hn; rfl
    | _ => cases hn

/-- Only the failure of a callback changes whether a session is halted, and then it is told of
last. -/
theorem carry_views (host : Host κ W) : ∀ (effects : List (Effect κ)) (event : Option Event)
    (s : Session κ) (world : W), ∃ earlier, (∀ v ∈ earlier, v.halted = s.halted) ∧
      (views (carry host effects event s world).history = earlier ∨
        (carry host effects event s world).session.halted = true ∧
          views (carry host effects event s world).history =
            earlier ++ [(carry host effects event s world).session.view])
  | [], event, s, world => by
    obtain ⟨next, hc, _⟩ := carry_nil host event s world
    rw [hc]
    exact ⟨[], nofun, .inl rfl⟩
  | effect :: effects, event, s, world => by
    have hfirst := perform_views host s world effect
    cases h : (s.perform host world effect).outcome with
    | error failure =>
      rw [carry_cons_error host h]
      refine ⟨_, hfirst, .inr ⟨rfl, ?_⟩⟩
      rw [views_append]
      rfl
    | ok answer =>
      rw [carry_cons_ok host h]
      obtain ⟨earlier, he, hrest⟩ := carry_views host effects (answer.or event)
        (s.perform host world effect).session (s.perform host world effect).world
      rw [perform_halted] at he
      refine ⟨_ ++ earlier, List.forall_mem_append.mpr ⟨hfirst, he⟩, ?_⟩
      rw [Stage.after, views_append]
      rcases hrest with hv | ⟨hh, hv⟩
      · exact .inl (congrArg _ hv)
      · refine .inr ⟨hh, ?_⟩
        rw [hv, List.append_assoc]

theorem active_shows (host : Host κ W) {event : Event} {t : Transition κ} (hh : s.halted = false)
    (ht : transition s.script s.state event = .ok t) (ha : t.state.status = .active) (world : W) :
    (s.react host world event).session.Shows (views (s.react host world event).history) := by
  have hviews := (react_grows host ht world).views
  have hstate := (react_grows host ht world).state
  have hsilent : t.state.phase ≠ .awaitingInput := by
    intro hp
    simp [State.status, Phase.status, hp] at ha
  rw [react_of_ok host ht] at hviews hstate ⊢
  obtain ⟨earlier, he, hrest⟩ := carry_views host t.effects none { s with state := t.state } world
  -- all views of the stage have the status of the new state
  have hlive : ∀ v ∈ earlier, v ∈ views (carry host t.effects none
      { s with state := t.state } world).history → v.Live := by
    intro v hv hmem
    refine ⟨(he v hv).trans hh, ?_⟩
    rw [(hviews v hmem).1, ha]
    simp
  rcases hrest with hv | ⟨hhalted, hv⟩
  · rw [hv] at hlive ⊢
    exact .going fun v hmem => hlive v hmem hmem
  · rw [hv] at hlive ⊢
    exact .ending ⟨.inl hhalted, hstate ▸ hsilent⟩
      fun v hmem => hlive v hmem (List.mem_append_left _ hmem)

theorem react_shows (host : Host κ W) {event : Event} {t : Transition κ} (hh : s.halted = false)
    (ht : transition s.script s.state event = .ok t) (world : W) :
    (s.react host world event).session.Shows (views (s.react host world event).history) := by
  cases transition_moves ht with
  | finish hp hs =>
    let last : Session κ := { s with state := { s.state with phase := .completed } }
    obtain ⟨asked, notice, hr⟩ := finish_rests host (s := last) rfl world
    have hv : views (asked ++ (last.noting notice).told notice) =
        [] ++ [(last.noting notice).publish.view] := by
      rw [views_append, hr.asking.no_views]
      rfl
    have hstate : (last.noting notice).publish.state = last.state := noting_state last notice
    rw [react_of_ok host ht, hr.history, hr.session, hv]
    refine .ending ⟨.inr ?_, ?_⟩ nofun
    · rw [hstate]
    · rw [hstate]
      exact nofun
  | present hp hs =>
    rw [react_present host hp hs world]
    exact .going (List.forall_mem_singleton.mpr ⟨hh, nofun⟩)
  | _ => exact active_shows host hh ht rfl world

end

end Session

/-! ## The last view of a form -/

section
variable {host : Host κ W} {script : Script κ} {l l' : Ledger κ W}

def Ledger.Ends (l : Ledger κ W) : Prop :=
  l.session.Shows (views l.line)

theorem taken_ends {s : Session κ} {world : W} {line : List (Occurrence κ)} {event : Event}
    {t : Transition κ} {docket : Docket κ W} (hs : s.Shows (views line))
    (hh : s.halted = false) (hp : s.state.phase ≠ .completed)
    (ht : transition s.script s.state event = .ok t) :
    (Ledger.taken (s.react host world event) line docket).Ends := by
  have hshows := Session.react_shows host hh ht world
  unfold Ledger.Ends Ledger.taken
  rw [views_append]
  generalize views line = shown at hs ⊢
  cases hs with
  | going h => exact hshows.after h
  | ending ho h => exact absurd (ho.completed hh) hp

theorem change_ends (he : l.Ends) (h : Ledger.Change host l l') : l'.Ends := by
  cases h with
  | again hh ha hi ht =>
    refine taken_ends he hh (fun hp => ?_) ht
    rw [hp] at ha
    cases ha
  | refused => exact he
  | accepted hh hp ht hi =>
    rw [ht]
    refine taken_ends he hh ?_ (moves_transition (.submit hp hi))
    rw [hp]
    exact nofun
  | reply => exact he

/-- A session that is over stays as it is, and so does the line. -/
theorem change_over (ho : l.session.Over) (h : Ledger.Change host l l') :
    l'.session = l.session ∧ l'.line = l.line := by
  cases h with
  | again hh ha hi ht =>
    rw [ho.completed hh] at ha
    cases ha
  | refused => exact ⟨rfl, rfl⟩
  | accepted hh hp ht hi => exact absurd hp ho.silent
  | reply => exact ⟨rfl, rfl⟩

end

/-! ## What a form has shown -/

def Form.shown (f : Form κ W) : List View :=
  .blank :: views f.past.reverse

structure Desk.Watchable (script : Script κ) (d : Desk κ W) : Prop where
  sound : d.Sound script
  latest : d.form.shown.getLast? = some d.form.view
  ends : d.ledger.Ends

section
variable {host : Host κ W} {script : Script κ} {d d' : Desk κ W}

theorem shown_ahead (f : Form κ W) : f.shown ++ views f.ahead = .blank :: views f.line := by
  rw [Form.shown, Form.line, views_append]
  rfl

theorem shown_congr {f g : Form κ W} (hp : g.past = f.past) : g.shown = f.shown := by
  rw [Form.shown, hp, Form.shown]

theorem reveal_shown (f : Form κ W) (o : Occurrence κ) :
    (f.reveal o).shown = f.shown ∧ (f.reveal o).view = f.view ∨
      (f.reveal o).shown = f.shown ++ [(f.reveal o).view] := by
  have hpast : (f.reveal o).past = o :: f.past := (f.reveal_kept o).2.2.1
  have hshown : (f.reveal o).shown = f.shown ++ views [o] := by
    rw [Form.shown, hpast, List.reverse_cons, views_append]
    rfl
  cases o with
  | published v => exact .inr hshown
  | _ => exact .inl ⟨hshown.trans (List.append_nil _), rfl⟩

theorem step_shown (ha : d.form.Alive) (h : d.Step host d') :
    d'.form.shown = d.form.shown ∧ d'.form.view = d.form.view ∨
      d'.form.shown = d.form.shown ++ [d'.form.view] := by
  cases h with
  | send text turn =>
    obtain ⟨_, _, _, hp, _, _, hv⟩ := Form.send_kept _ text turn
    exact .inl ⟨shown_congr hp, hv⟩
  | leave h => exact .inl ⟨rfl, rfl⟩
  | follow feed => exact .inl ⟨rfl, rfl⟩
  | pass h => exact .inl ⟨rfl, rfl⟩
  | move h =>
    have hm : Desk.Moved host d.form d.docket ⟨_, d.noted⟩ := moved_of_move ha h
    generalize (⟨_, d.noted⟩ : Desk κ W) = moved at hm ⊢
    cases hm with
    | reveal hw hact => exact reveal_shown d.form _
    | _ => exact .inl ⟨rfl, rfl⟩

theorem step_watchable (hd : d.Watchable script) (h : d.Step host d') : d'.Watchable script := by
  refine ⟨step_sound hd.sound h, ?_, ?_⟩
  · rcases step_shown hd.sound.alive h with ⟨hs, hv⟩ | hs
    · rw [hs, hv]
      exact hd.latest
    · rw [hs, List.getLast?_concat]
  · rcases (step_ledger hd.sound.alive h).2 with hl | hl
    · rw [hl]
      exact hd.ends
    · exact change_ends hd.ends (Ledger.turn_change hd.sound.steady hl)

theorem opened_watchable (script : Script κ) (settings : Settings) (world : W) :
    (Desk.opened script settings world).Watchable script :=
  ⟨opened_sound script settings world, rfl, .going nofun⟩

theorem course_watchable (hd : d.Watchable script) (h : d.Course host d') :
    d'.Watchable script :=
  h.keeps step_watchable hd

/-- A view that is halted or completed is the last one, and it is that of the session. -/
theorem last_of_not_live (hd : d.Watchable script) (hv : ¬ d.form.view.Live) :
    d.form.session.Over ∧ views d.form.ahead = [] ∧ d.form.view = d.form.session.view ∧
      ∃ earlier, d.form.shown = earlier ++ [d.form.view] ∧ ∀ v ∈ earlier, v.Live := by
  have hmem : d.form.view ∈ d.form.shown := List.mem_of_getLast? hd.latest
  have hblank : View.blank.Live := ⟨rfl, nofun⟩
  have hall := shown_ahead d.form
  have hends : d.form.session.Shows (views d.form.line) := hd.ends
  generalize views d.form.line = line at hall hends
  cases hends with
  | going h =>
    have hlive : ∀ v ∈ d.form.shown ++ views d.form.ahead, v.Live := by
      rw [hall]
      exact List.forall_mem_cons.mpr ⟨hblank, h⟩
    exact absurd (hlive _ (List.mem_append_left _ hmem)) hv
  | @ending earlier ho h =>
    have hlive : ∀ v ∈ View.blank :: earlier, v.Live := List.forall_mem_cons.mpr ⟨hblank, h⟩
    rw [← List.cons_append] at hall
    rcases List.eq_nil_or_concat (views d.form.ahead) with hnil | ⟨ahead, last, hlast⟩
    · rw [hnil, List.append_nil] at hall
      have hlatest := hd.latest
      rw [hall, List.getLast?_concat] at hlatest
      have hview := Option.some.inj hlatest
      rw [hview] at hall
      exact ⟨ho, hnil, hview.symm, _, hall, hlive⟩
    · -- otherwise the view would be one of those before the last one
      rw [hlast, List.concat_eq_append, ← List.append_assoc] at hall
      have hearlier := List.append_inj_left' hall rfl
      rw [← hearlier] at hlive
      exact absurd (hlive _ (List.mem_append_left _ hmem)) hv

theorem waiting_going (hd : d.Watchable script) (hs : d.form.view.status = .waiting) :
    d.form.view.halted = false := by
  by_contra hh
  have hv : ¬ d.form.view.Live := fun h => hh h.going
  obtain ⟨ho, _, hview, _⟩ := last_of_not_live hd hv
  rw [hview] at hs
  apply ho.silent
  unfold Session.view State.status at hs
  dsimp only at hs
  generalize d.form.session.state.phase = phase at hs ⊢
  cases phase with
  | awaitingInput => rfl
  | _ => cases hs

end

/-! ## Waiting -/

namespace Desk

/-- A wait looks at a form until the latest view has the status or is halted. Between two looks the
form goes on, and what it publishes then is seen only as far as it is the latest. -/
inductive WaitsFor (host : Host κ W) (status : Status) :
    Desk κ W → Except CallError View → Desk κ W → Prop
  | ends {d : Desk κ W} (h : d.form.reached status = true) : WaitsFor host status d
    (if d.form.view.status = status then .ok d.form.view else .error .halted) d
  | later {d d' e : Desk κ W} {result : Except CallError View}
    (h : d.form.reached status = false) (hc : d.Course host d') :
    WaitsFor host status d' result e → WaitsFor host status d result e

inductive Sequel (host : Host κ W) (d : Desk κ W) : Desk κ W → Prop
  | refl : Sequel host d d
  | step {b c : Desk κ W} : Sequel host d b → b.Step host c → Sequel host d c
  | abandon {b : Desk κ W} : Sequel host d b → Sequel host d ⟨b.form.abandon, b.docket⟩

/-- Nothing more is published: the session is over and all of it has been shown, or the task is to
stop. -/
inductive Silent (script : Script κ) (d : Desk κ W) : Prop
  | finished (hd : d.Watchable script) (ho : d.form.session.Over) (ha : views d.form.ahead = [])
  | left (hk : d.form.abandoned = true)

end Desk

section
variable {host : Host κ W} {script : Script κ} {d d' : Desk κ W}

theorem Desk.WaitsFor.course {status : Status} {result : Except CallError View}
    (h : d.WaitsFor host status result d') : d.Course host d' := by
  induction h with
  | ends h => exact .refl
  | later h hc _ ih => exact hc.trans ih

theorem step_over (hd : d.Watchable script) (ho : d.form.session.Over)
    (ha : views d.form.ahead = []) (h : d.Step host d') :
    d'.form.session.Over ∧ views d'.form.ahead = [] ∧ d'.form.shown = d.form.shown ∧
      d'.form.view = d.form.view := by
  obtain ⟨hsession, hline⟩ : d'.form.session = d.form.session ∧ d'.form.line = d.form.line := by
    rcases (step_ledger hd.sound.alive h).2 with hl | hl
    · exact ⟨congrArg Ledger.session hl, congrArg Ledger.line hl⟩
    · exact change_over (l := d.ledger) ho (Ledger.turn_change hd.sound.steady hl)
  have hall : d'.form.shown ++ views d'.form.ahead = d.form.shown := by
    rw [shown_ahead, hline, ← shown_ahead, ha, List.append_nil]
  rcases step_shown hd.sound.alive h with ⟨hs, hv⟩ | hs
  · rw [hs] at hall
    exact ⟨hsession ▸ ho, List.append_right_eq_self.mp hall, hs, hv⟩
  · rw [hs, List.append_assoc] at hall
    have hnil := List.append_right_eq_self.mp hall
    cases hnil

theorem step_left (hk : d.form.abandoned = true) (h : d.Step host d') :
    d'.form.abandoned = true ∧ d'.form.shown = d.form.shown ∧ d'.form.view = d.form.view := by
  cases h with
  | send text turn =>
    obtain ⟨_, _, _, hp, ha, _, hv⟩ := Form.send_kept _ text turn
    exact ⟨ha.trans hk, shown_congr hp, hv⟩
  | leave h => exact ⟨hk, rfl, rfl⟩
  | follow feed => exact ⟨hk, rfl, rfl⟩
  | pass h => exact ⟨hk, rfl, rfl⟩
  | move h =>
    unfold Form.move? at h
    split at h
    · cases h
    · cases h
      exact ⟨hk, rfl, rfl⟩

theorem sequel_silent (hd : d.Silent script) (h : d.Sequel host d') :
    d'.Silent script ∧ d'.form.shown = d.form.shown ∧ d'.form.view = d.form.view := by
  induction h with
  | refl => exact ⟨hd, rfl, rfl⟩
  | @step b c _ hstep ih =>
    obtain ⟨hb, hs, hv⟩ := ih
    cases hb with
    | finished hw ho ha =>
      obtain ⟨ho', ha', hs', hv'⟩ := step_over hw ho ha hstep
      exact ⟨.finished (step_watchable hw hstep) ho' ha', hs'.trans hs, hv'.trans hv⟩
    | left hk =>
      obtain ⟨hk', hs', hv'⟩ := step_left hk hstep
      exact ⟨.left hk', hs'.trans hs, hv'.trans hv⟩
  | abandon _ ih => exact ⟨.left rfl, ih.2⟩

theorem Desk.WaitsFor.looked {status : Status} {result : Except CallError View}
    (h : d.WaitsFor host status result d') : d'.form.reached status = true ∧
      result = if d'.form.view.status = status then .ok d'.form.view else .error .halted := by
  induction h with
  | ends h => exact ⟨h, rfl⟩
  | later _ _ _ ih => exact ih

/-- What a wait that failed has to say for all the time after it, and for a status that is reached
once only, for all the time before it too. -/
theorem halted_final (host : Host κ W) (hd : d.Watchable script)
    (hh : d.form.view.halted = true) {status : Status} (hs : d.form.view.status ≠ status) :
    d.form.session.halted = true ∧
      ∀ c, d.Sequel host c → c.form.shown = d.form.shown ∧ c.form.view = d.form.view ∧
        (status = .completed → ∀ view ∈ c.form.shown, view.status ≠ .completed) := by
  have hv : ¬ d.form.view.Live := fun h => by
    rw [h.going] at hh
    cases hh
  obtain ⟨ho, ha, hview, earlier, hshown, hlive⟩ := last_of_not_live hd hv
  refine ⟨?_, fun c hc => ?_⟩
  · rw [hview] at hh
    exact hh
  · obtain ⟨_, hs', hv'⟩ := sequel_silent (.finished hd ho ha) hc
    refine ⟨hs', hv', ?_⟩
    rintro rfl
    rw [hs', hshown]
    exact List.forall_mem_append.mpr ⟨fun v hmem => (hlive v hmem).unfinished,
      List.forall_mem_singleton.mpr hs⟩

/-! ## Waiting on a clock -/

theorem waitUntil_ready (host : Host κ W) (deadline : Nat) (ready : Form κ W → Bool) :
    ∀ (bound : Nat) (f : Form κ W), (f.waitUntil host deadline ready bound).1 = true →
      ready (f.waitUntil host deadline ready bound).2 = true
  | 0, f, h => by cases h
  | bound + 1, f, h => by
    rw [Form.waitUntil] at h ⊢
    cases hm : f.move? host with
    | some moved =>
      simp only [hm] at h ⊢
      exact waitUntil_ready host deadline ready bound moved h
    | none =>
      simp only [hm] at h ⊢
      by_cases hr : ready f = true
      · rw [if_pos hr]
        exact hr
      · rw [if_neg hr] at h ⊢
        cases hw : f.wake? with
        | none =>
          rw [hw] at h
          cases h
        | some wake =>
          simp only [hw] at h ⊢
          by_cases hle : wake ≤ deadline
          · rw [if_pos hle] at h ⊢
            exact waitUntil_ready host deadline ready bound { f with clock := wake } h
          · rw [if_neg hle] at h
            cases h

/-- On a clock that moves only while the task sleeps, a wait looks at once, and then whenever the
task has nothing to do. -/
theorem awaitStatus_waitsFor (hd : d.Sound script) {bound patience : Nat} {status : Status}
    {result : Except CallError View} {f : Form κ W}
    (h : d.form.awaitStatus host bound patience status = (some result, f)) :
    ∃ docket, d.WaitsFor host status result ⟨f, docket⟩ := by
  unfold Form.awaitStatus Form.await at h
  by_cases hr : d.form.reached status = true
  · rw [if_pos hr] at h
    cases h
    exact ⟨d.docket, .ends hr⟩
  · rw [if_neg hr] at h
    let deadline := d.form.clock + patience
    obtain ⟨docket, htimely⟩ : ∃ docket, d.Timely host
        ⟨(d.form.waitUntil host deadline (Form.reached status) bound).2, docket⟩ :=
      waitUntil_timely (Form.reached status) bound hd (Nat.le_add_right d.form.clock patience)
    have hready := waitUntil_ready host deadline (Form.reached status) bound d.form
    generalize d.form.waitUntil host deadline (Form.reached status) bound = w at h htimely hready
    obtain ⟨seen, later⟩ := w
    cases seen with
    | false => cases h
    | true =>
      cases h
      exact ⟨docket, .later (Bool.eq_false_iff.mpr hr) htimely.course (.ends (hready rfl))⟩

/-! ## What a wait comes to -/

/-- **Waiting is sound, and its failure is final.** A wait that succeeds has a view of the form with
the status, and not a halted one when it was for an answer to be awaited. A wait that fails has seen
a halted form, which publishes nothing more whatever follows. -/
theorem wait_settled {settings : Settings} {world : W} {a b : Desk κ W} {status : Status}
    {result : Except CallError View} (ha : (Desk.opened script settings world).Course host a)
    (hw : a.WaitsFor host status result b) :
    (∀ view, result = .ok view → view = b.form.view ∧ view ∈ b.form.shown ∧
      view.status = status ∧ (status = .waiting → view.halted = false)) ∧
    ∀ e, result = .error e → e = .halted ∧ b.form.session.halted = true ∧
      b.form.view.halted = true ∧ b.form.view.status ≠ status ∧ ∀ c, b.Sequel host c →
        c.form.shown = b.form.shown ∧ c.form.view = b.form.view ∧
        (status = .completed → ∀ view ∈ c.form.shown, view.status ≠ .completed) := by
  have hb := course_watchable (opened_watchable script settings world) (ha.trans hw.course)
  obtain ⟨hreached, hresult⟩ := hw.looked
  by_cases hs : b.form.view.status = status
  · rw [if_pos hs] at hresult
    refine ⟨fun view hv => ?_, fun e he => absurd (hresult.symm.trans he) nofun⟩
    obtain rfl : b.form.view = view := Except.ok.inj (hresult.symm.trans hv)
    refine ⟨rfl, List.mem_of_getLast? hb.latest, hs, ?_⟩
    rintro rfl
    exact waiting_going hb hs
  · rw [if_neg hs] at hresult
    refine ⟨fun view hv => absurd (hresult.symm.trans hv) nofun, fun e he => ?_⟩
    obtain rfl : CallError.halted = e := Except.error.inj (hresult.symm.trans he)
    have hh : b.form.view.halted = true := by simpa [Form.reached, hs] using hreached
    obtain ⟨hsession, hfinal⟩ := halted_final host hb hh hs
    exact ⟨rfl, hsession, hh, hs, hfinal⟩

end

/-- The condition of the loop fails, so an answer is never waited for. -/
theorem survey_wait_fails : ∃ b : Desk Unit Nat,
    (Desk.opened survey .instant 0).WaitsFor (failingAt 0) .waiting (.error .halted) b ∧
      b.form.session.halted = true ∧ b.form.view.status = .active ∧
      ∀ c, b.Sequel (failingAt 0) c → c.form.shown = b.form.shown := by
  let f := (Form.spawn survey .instant 0).awaitStatus (failingAt 0) 8 0 .waiting
  have hf : f = (some (.error .halted), f.2) := rfl
  obtain ⟨docket, hw⟩ := awaitStatus_waitsFor (opened_sound survey .instant 0) hf
  obtain ⟨_, hhalted, _, _, hfinal⟩ := (wait_settled .refl hw).2 .halted rfl
  exact ⟨_, hw, hhalted, rfl, fun c hc => (hfinal c hc).1⟩

end Dialogue
