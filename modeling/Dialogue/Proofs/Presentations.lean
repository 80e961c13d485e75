import Dialogue.Proofs.Submissions

/-!
# Presentations

A submission answers the very presentation that its sender saw. Every presentation has a prompt
number of its own and is the latest thing published for as long as the conversation waits; so a
submission that carries the number of a view is accepted only while that view is the latest one.
-/

namespace Dialogue

variable {κ W : Type}

/-! ## The verdict of the rules -/

section
variable (host : Host κ W)

def Entry.verdict (e : Entry κ W) (i : Input κ) : Consulted κ W (Option String) :=
  checkRules host e.submission.text e.before.session.answers i.rules e.before.world

def Entry.due (e : Entry κ W) (i : Input κ) : List (String × String) :=
  match (e.verdict host i).result with
  | .ok none => [(i.name, e.submission.text)]
  | _ => []

structure Entry.Asked (e : Entry κ W) (i : Input κ) : Prop where
  step : e.before.session.script.stepAt? e.before.session.state.position = some (.input i)
  checks : checks e.history = checks (e.verdict host i).history

structure Entry.Passing (e : Entry κ W) (i : Input κ) (s : Session κ) (next? : Option Next) :
    Prop where
  stored : stored e.history = []
  due : e.due host i = [(i.name, e.submission.text)]
  next : next? = some (.again .validationPassed)
  script : s.script = e.before.session.script
  state : s.state = { e.before.session.state with phase := .validating e.submission.text }

def Entry.Decided (e : Entry κ W) (i : Input κ) : Prop :=
  stored e.history = e.due host i

def Docket.Judged : Docket κ W → Session κ → Option Next → Prop
  | [], _, _ => True
  | e :: docket, s, next? =>
    (e.applied = true → ∃ i, e.Asked host i ∧ (e.Passing host i s next? ∨
      e.Decided host i ∧ next? ≠ some (.again .validationPassed))) ∧
    ∀ e ∈ docket, e.applied = true → ∃ i, e.Asked host i ∧ e.Decided host i

end

section
variable {host : Host κ W}

theorem Docket.Judged.decided {docket : Docket κ W} {s : Session κ} {next? : Option Next}
    (h : docket.Judged host s next?) (hn : next? ≠ some (.again .validationPassed)) :
    ∀ e ∈ docket, e.applied = true → ∃ i, e.Asked host i ∧ e.Decided host i := by
  cases docket with
  | nil => exact fun e he => absurd he List.not_mem_nil
  | cons e docket =>
    obtain ⟨hhead, htail⟩ := h
    intro e' he' hap
    rcases List.mem_cons.mp he' with rfl | he'
    · obtain ⟨i, hi, hp | ⟨hd, _⟩⟩ := hhead hap
      · exact absurd hp.next hn
      · exact ⟨i, hi, hd⟩
    · exact htail e' he' hap

theorem again_judged {s : Session κ} {world : W} {event : Event} {docket : Docket κ W}
    {t : Transition κ} (hj : docket.Judged host s (some (.again event))) (hi : event.Internal)
    (ht : transition s.script s.state event = .ok t) :
    (docket.extend (s.react host world event).history).Judged host
      (s.react host world event).session (some (s.react host world event).next) := by
  cases docket with
  | nil => trivial
  | cons e docket =>
    obtain ⟨hhead, htail⟩ := hj
    obtain ⟨hu, hc⟩ := Session.react_internal host ht hi world
    have hnext := Session.react_not_passed host ht hi world
    refine ⟨fun hap => ?_, htail⟩
    rw [extend_applied hu] at hap
    obtain ⟨i, ⟨hstep, hchecks⟩, hcase⟩ := hhead hap
    have hasked : Entry.Asked host
        { e with history := e.history ++ (s.react host world event).history } i :=
      ⟨hstep, by rw [checks_append, hc, List.append_nil]; exact hchecks⟩
    refine ⟨i, hasked, .inr ⟨?_, fun hn => hnext (Option.some.inj hn)⟩⟩
    rw [Entry.Decided, stored_append]
    rcases hcase with hp | ⟨hd, hne⟩
    · have hev : event = .validationPassed := by
        have h := hp.next
        cases h
        rfl
      subst hev
      have hvalidating : s.state.phase = .validating e.submission.text := by rw [hp.state]
      have hat : s.script.stepAt? s.state.position = some (.input i) := by
        rw [hp.script, hp.state]
        exact hstep
      rw [hp.stored, Session.react_accept host hvalidating hat world]
      exact hp.due.symm
    · have hev : event ≠ .validationPassed := fun h => hne (by rw [h])
      rw [Session.react_stored host ht hev world, List.append_nil]
      exact hd

theorem accepted_judged {before : Form κ W} {docket : Docket κ W} {submission : Submission}
    {i : Input κ} (hj : docket.Judged host before.session none)
    (hp : before.session.state.phase = .awaitingInput)
    (ht : submission.turn = before.session.state.prompts)
    (hi : before.session.script.stepAt? before.session.state.position = some (.input i)) :
    let stage := before.session.react host before.world
      (.submitted submission.text submission.turn)
    Docket.Judged host (Docket.extend (⟨submission, before, [], none⟩ :: docket) stage.history)
      stage.session (some stage.next) := by
  have hm : Moves before.session.script before.session.state
    (.submitted submission.text before.session.state.prompts) _ := .submit hp hi
  have hg := Session.react_grows host (moves_transition hm) before.world
  obtain ⟨first, last, hh, ⟨_, hfs, hfc⟩, ⟨_, hls, hlc⟩, hob⟩ :=
    Session.react_submit host hp hi submission.text before.world
  rw [ht]
  dsimp only
  generalize before.session.react host before.world
    (.submitted submission.text before.session.state.prompts) = stage at hg hh hob ⊢
  refine ⟨fun _ => ⟨i, ⟨hi, ?_⟩, ?_⟩, hj.decided nofun⟩
  · rw [List.nil_append, hh, checks_append, checks_append, hfc, hlc, List.append_nil]
    rfl
  · have hstored : stored ([] ++ stage.history) = [] := by
      rw [List.nil_append, hh, stored_append, stored_append, hfs, hls,
        (checkRules_asking host _ _ _ _).no_answers]
      rfl
    have hdue : Entry.due host ⟨submission, before, [] ++ stage.history, none⟩ i =
        match (checkRules host submission.text before.session.answers i.rules
            before.world).result with
        | .ok none => [(i.name, submission.text)]
        | _ => [] := rfl
    cases hr : (checkRules host submission.text before.session.answers i.rules
        before.world).result with
    | error e =>
      rw [hr] at hob hdue
      obtain ⟨_, failure, hn⟩ := hob
      refine .inr ⟨hstored.trans hdue.symm, ?_⟩
      rw [hn]
      exact nofun
    | ok verdict =>
      cases verdict with
      | none =>
        rw [hr] at hob hdue
        exact .inl ⟨hstored, hdue, congrArg some hob, hg.script, hg.state⟩
      | some errorText =>
        rw [hr] at hob hdue
        have hn : stage.next = .again (.validationFailed errorText) := hob
        refine .inr ⟨hstored.trans hdue.symm, ?_⟩
        rw [hn]
        exact nofun

theorem change_judged {l l' : Ledger κ W} (hj : l.docket.Judged host l.session l.next?)
    (h : Ledger.Change host l l') : l'.docket.Judged host l'.session l'.next? := by
  cases h with
  | again hh ha hi ht => exact again_judged hj hi ht
  | refused he => exact ⟨nofun, hj.decided nofun⟩
  | accepted hh hp ht hi => exact accepted_judged hj hp ht hi
  | @reply s world line result docket hr =>
    cases docket with
    | nil => trivial
    | cons e docket =>
      obtain ⟨hhead, htail⟩ := hj
      refine ⟨fun hap => ?_, htail⟩
      obtain ⟨i, ⟨hstep, hchecks⟩, hp | ⟨hd, _⟩⟩ := hhead hap
      · cases hp.next
      · exact ⟨i, ⟨hstep, hchecks⟩, .inr ⟨hd, nofun⟩⟩

end

/-! ## Where submissions are taken -/

def Entry.ledger (e : Entry κ W) : Ledger κ W :=
  ⟨e.before.session, e.before.world, e.before.past.reverse, none, []⟩

def Form.Current (f : Form κ W) : Prop :=
  ∀ v earlier, f.past = .published v :: earlier → f.view = v

structure Desk.Presented (host : Host κ W) (script : Script κ) (d : Desk κ W) : Prop where
  judged : d.ledger.docket.Judged host d.form.session d.form.next?
  current : d.form.Current
  taken : ∀ e ∈ d.docket, e.ledger.Steady script ∧ e.ledger.Faithful ∧ e.before.Current

section
variable {host : Host κ W} {script : Script κ}

theorem current_congr {f g : Form κ W} (h : f.Current) (hp : g.past = f.past)
    (hv : g.view = f.view) : g.Current := by
  intro v earlier hpast
  rw [hv]
  exact h v earlier (hp.symm.trans hpast)

theorem reveal_current (f : Form κ W) (o : Occurrence κ) (activity : Activity κ) :
    Form.Current { f.reveal o with activity } := by
  intro v earlier hp
  cases o with
  | published view => cases hp; rfl
  | _ => cases hp

theorem moved_current {f : Form κ W} {docket : Docket κ W} {d : Desk κ W} (hc : f.Current)
    (h : Desk.Moved host f docket d) : d.form.Current := by
  cases h with
  | reveal h ha => exact reveal_current f _ _
  | _ => exact current_congr hc rfl rfl

/-- What is known of the entries depends on what they were taken with, not on what followed. -/
theorem moved_entries {P : Submission → Form κ W → Prop} {f : Form κ W} {docket : Docket κ W}
    {d : Desk κ W} (h : Desk.Moved host f docket d)
    (hd : ∀ e ∈ docket, P e.submission e.before)
    (hs : ∀ submission queue, f.activity = .resting → f.queue = submission :: queue →
      P submission f) : ∀ e ∈ d.docket, P e.submission e.before := by
  cases h with
  | start h => exact hd
  | @serve submission queue h hq =>
    intro e he
    rcases List.mem_cons.mp he with rfl | he
    · exact hs submission queue h hq
    · exact hd e he
  | reveal h ha =>
    intro e he
    obtain ⟨e', he', rfl | rfl⟩ := mem_extend he
    · exact hd e he'
    · exact hd e' he'
  | again h => exact hd
  | @reply ticket result h =>
    intro e he
    obtain ⟨e', he', rfl | rfl⟩ := mem_answer he
    · exact hd e he'
    · exact hd e' he'

theorem step_presented {d d' : Desk κ W} (hd : d.Sound script) (hp : d.Presented host script)
    (h : d.Step host d') : d'.Presented host script := by
  have hjudged : d'.ledger.docket.Judged host d'.form.session d'.form.next? := by
    rcases (step_ledger hd.alive h).2 with hl | hl
    · have hj : d.ledger.docket.Judged host d.ledger.session d.ledger.next? := hp.judged
      rw [← hl] at hj
      exact hj
    · exact change_judged hp.judged (Ledger.turn_change hd.steady hl)
  cases h with
  | @send f docket text turn =>
    obtain ⟨_, _, _, hpast, _, _, hview⟩ := f.send_kept text turn
    exact ⟨hjudged, current_congr hp.current hpast hview, hp.taken⟩
  | leave h => exact ⟨hjudged, current_congr hp.current rfl rfl, hp.taken⟩
  | follow feed => exact ⟨hjudged, current_congr hp.current rfl rfl, hp.taken⟩
  | pass h => exact ⟨hjudged, current_congr hp.current rfl rfl, hp.taken⟩
  | @move d f h =>
    have hm : Desk.Moved host d.form d.docket ⟨f, d.noted⟩ := moved_of_move hd.alive h
    refine ⟨hjudged, moved_current hp.current hm, ?_⟩
    have hbefore := moved_entries (P := fun _ before =>
      Ledger.Steady script ⟨before.session, before.world, before.past.reverse, none, []⟩ ∧
        Ledger.Faithful ⟨before.session, before.world, before.past.reverse, none, []⟩ ∧
          before.Current) hm hp.taken
    refine hbefore fun submission queue hrest _ => ?_
    have hs := hd.steady
    have hf := hd.faithful
    rw [show d = ⟨d.form, d.docket⟩ from rfl, ledger_of_resting hrest] at hs hf
    exact ⟨⟨hs.script, hs.reachable, hs.poised⟩,
      ⟨hf.transcript, hf.answers, hf.prompts, hf.shown⟩, hp.current⟩

theorem opened_presented (script : Script κ) (settings : Settings) (world : W) :
    (Desk.opened script settings world).Presented host script := by
  refine ⟨trivial, fun v earlier h => ?_, fun e he => absurd he List.not_mem_nil⟩
  cases h

theorem course_presented {d d' : Desk κ W} (hd : d.Sound script) (hp : d.Presented host script)
    (h : d.Course host d') : d'.Presented host script := by
  have hkept : d'.Sound script ∧ d'.Presented host script :=
    h.keeps (P := fun d => d.Sound script ∧ d.Presented host script)
      (fun hb hs => ⟨step_sound hb.1 hs, step_presented hb.1 hb.2 hs⟩) ⟨hd, hp⟩
  exact hkept.2

/-! ## After a view has been published -/

structure Desk.Since (past : List (Occurrence κ)) (ticket : Nat) (d : Desk κ W) : Prop where
  form : past <:+ d.form.past
  taken : ∀ e ∈ d.docket, ticket ≤ e.submission.ticket → past <:+ e.before.past

theorem moved_past {f : Form κ W} {docket : Docket κ W} {d : Desk κ W}
    (h : Desk.Moved host f docket d) : f.past <:+ d.form.past := by
  cases h with
  | reveal h ha =>
    obtain ⟨_, _, hp, _⟩ := f.reveal_kept _
    exact hp ▸ List.suffix_cons _ _
  | _ => exact List.suffix_rfl

theorem step_since {past : List (Occurrence κ)} {ticket : Nat} {d d' : Desk κ W}
    (hd : d.Sound script) (hs : d.Since past ticket) (h : d.Step host d') :
    d'.Since past ticket := by
  cases h with
  | @send f docket text turn =>
    obtain ⟨_, _, _, hpast, _⟩ := f.send_kept text turn
    exact ⟨hpast ▸ hs.form, hs.taken⟩
  | leave h => exact ⟨hs.form, hs.taken⟩
  | follow feed => exact ⟨hs.form, hs.taken⟩
  | pass h => exact ⟨hs.form, hs.taken⟩
  | @move d f h =>
    have hm : Desk.Moved host d.form d.docket ⟨f, d.noted⟩ := moved_of_move hd.alive h
    refine ⟨hs.form.trans (moved_past hm), ?_⟩
    exact moved_entries (P := fun submission before => ticket ≤ submission.ticket →
      past <:+ before.past) hm hs.taken fun _ _ _ _ _ => hs.form

theorem course_since {past : List (Occurrence κ)} {ticket : Nat} {d d' : Desk κ W}
    (hd : d.Sound script) (hs : d.Since past ticket) (h : d.Course host d') :
    d'.Since past ticket := by
  have hkept : d'.Sound script ∧ d'.Since past ticket :=
    h.keeps (P := fun d => d.Sound script ∧ d.Since past ticket)
      (fun hb hstep => ⟨step_sound hb.1 hstep, step_since hb.1 hb.2 hstep⟩) ⟨hd, hs⟩
  exact hkept.2

/-! ## The presentation that is answered -/

/-- An applied submission was taken in the presentation with its number, which is the latest thing
that had been published. -/
theorem applied_shown {d : Desk κ W} (hd : d.Sound script) (hp : d.Presented host script)
    {e : Entry κ W} (he : e ∈ d.docket) (hap : e.applied = true) :
    e.submission.turn = e.before.session.state.prompts ∧
      e.before.session.state.phase = .awaitingInput ∧ 0 < e.before.session.state.prompts ∧
        ∃ earlier, e.before.past = .published e.before.session.view :: earlier ∧
          ∀ u ∈ views earlier, u.prompt < e.before.session.state.prompts := by
  obtain ⟨history, hm⟩ := mem_docket he
  have hr := hd.kept.right _ hm (applied_of_extended hap)
  obtain ⟨hpos, earlier, hl, hless⟩ := (hp.taken e he).2.1.shown hr.going hr.waiting
  refine ⟨hr.turn, hr.waiting, hpos, earlier.reverse, ?_, ?_⟩
  · have h : e.before.past.reverse = earlier ++ [.published e.before.session.view] := hl
    rw [← List.reverse_reverse e.before.past, h, List.reverse_append]
    rfl
  · intro u hu
    rw [mem_views, List.mem_reverse, ← mem_views] at hu
    exact hless u hu

theorem Docket.Judged.asked {docket : Docket κ W} {s : Session κ} {next? : Option Next}
    (h : docket.Judged host s next?) {e : Entry κ W} (he : e ∈ docket) (hap : e.applied = true) :
    ∃ i, e.Asked host i ∧ stored e.history <+: e.due host i := by
  cases docket with
  | nil => cases he
  | cons e' docket =>
    obtain ⟨hhead, htail⟩ := h
    rcases List.mem_cons.mp he with rfl | he
    · obtain ⟨i, hi, hp | ⟨hd, _⟩⟩ := hhead hap
      · exact ⟨i, hi, hp.stored ▸ List.nil_prefix⟩
      · exact ⟨i, hi, hd ▸ List.prefix_rfl⟩
    · obtain ⟨i, hi, hd⟩ := htail e he hap
      exact ⟨i, hi, hd ▸ List.prefix_rfl⟩

theorem replied_decided {d : Desk κ W} (hd : d.Sound script) (hp : d.Presented host script)
    {e : Entry κ W} (he : e ∈ d.docket) (hap : e.applied = true) {result : CallResult}
    (hr : e.reply = some result) : ∃ i, e.Asked host i ∧ e.Decided host i := by
  have hj := hp.judged
  obtain ⟨_, hm⟩ := mem_docket_replied hd.kept he hr
  by_cases hn : d.form.next? = some (.again .validationPassed)
  · have hans := hd.kept.answered
    have hnext : d.ledger.next? = some (.again .validationPassed) := hn
    rw [hnext] at hans
    cases hdk : d.ledger.docket with
    | nil => rw [hdk] at hm; cases hm
    | cons e' docket =>
      rw [hdk] at hans hj hm
      rcases List.mem_cons.mp hm with rfl | hm
      · have hnone : e.reply = none := hans.1
        rw [hr] at hnone
        cases hnone
      · exact hj.2 e hm hap
  · exact hj.decided hn e hm hap

theorem applied_judged {d : Desk κ W} (hd : d.Sound script) (hp : d.Presented host script)
    {e : Entry κ W} (he : e ∈ d.docket) (hap : e.applied = true) :
    ∃ i, e.before.session.script.stepAt? e.before.session.state.position = some (.input i) ∧
      checks e.history <+: checks (e.verdict host i).history ∧
      stored e.history <+: e.due host i ∧
      (e.reply.isSome = true → checks e.history = checks (e.verdict host i).history ∧
        stored e.history = e.due host i) := by
  cases hr : e.reply with
  | some result =>
    obtain ⟨i, ⟨hstep, hchecks⟩, hstored⟩ := replied_decided hd hp he hap hr
    exact ⟨i, hstep, hchecks ▸ List.prefix_rfl, hstored ▸ List.prefix_rfl,
      fun _ => ⟨hchecks, hstored⟩⟩
  | none =>
    obtain ⟨history, hm⟩ := mem_docket he
    obtain ⟨i, ⟨hstep, hchecks⟩, hstored⟩ := hp.judged.asked hm (applied_of_extended hap)
    have hc : checks e.history ++ checks history = checks (e.verdict host i).history :=
      (checks_append _ _).symm.trans hchecks
    have hs : stored e.history ++ stored history <+: e.due host i :=
      stored_append e.history history ▸ hstored
    exact ⟨i, hstep, hc ▸ List.prefix_append _ _, (List.prefix_append _ _).trans hs, nofun⟩

structure Entry.Addresses (host : Host κ W) (script : Script κ) (e : Entry κ W) (v : View)
    (i : Input κ) : Prop where
  -- the session that takes the submission is the one shown, and still the latest one seen
  shown : e.before.session.view = v ∧ e.before.view = v
  -- nothing has been published since, and nothing with its number before
  latest : ∃ earlier, e.before.past = .published v :: earlier ∧
    ∀ u ∈ views earlier, u.prompt < v.prompt
  step : script.stepAt? v.position = some (.input i)
  verdict : e.verdict host i =
    checkRules host e.submission.text v.answers i.rules e.before.world
  checks : checks e.history <+: checks (e.verdict host i).history
  stored : stored e.history <+: e.due host i
  replied : e.reply.isSome = true → Dialogue.checks e.history =
    Dialogue.checks (e.verdict host i).history ∧ Dialogue.stored e.history = e.due host i

theorem send_since {a : Desk κ W} (ha : a.InOrder) (text : String) (turn : Nat) :
    Desk.Since a.form.past a.form.tickets ⟨(a.form.send text turn).2, a.docket⟩ := by
  obtain ⟨_, _, _, hpast, _⟩ := a.form.send_kept text turn
  refine ⟨hpast ▸ List.suffix_rfl, fun e he hle => ?_⟩
  have hsent : e.submission ∈ a.sent := by
    refine List.mem_append_left _ (List.mem_append_left _ (List.mem_map_of_mem ?_))
    exact List.mem_reverse.mpr he
  exact absurd (ha.below _ hsent) (Nat.not_lt.mpr hle)

theorem shown_of_seen {d : Desk κ W} (hd : d.Sound script) (hp : d.Presented host script)
    {e : Entry κ W} (he : e ∈ d.docket) (hap : e.applied = true) {v : View}
    (hv : v.prompt = 0 ∨ v ∈ views e.before.past) (hturn : e.submission.turn = v.prompt) :
    e.before.session.view = v := by
  obtain ⟨hprompts, _, hpos, earlier, hpast, hless⟩ := applied_shown hd hp he hap
  -- the other views with this number are published later: they show the answered prompt
  rcases hv with hv | hv
  · omega
  · rw [mem_views, hpast] at hv
    rcases List.mem_cons.mp hv with hv | hv
    · cases hv
      rfl
    · have hlt := hless v ((mem_views earlier).mpr hv)
      omega

theorem addresses_of_shown {d : Desk κ W} (hd : d.Sound script) (hp : d.Presented host script)
    {e : Entry κ W} (he : e ∈ d.docket) (hap : e.applied = true) {v : View}
    (hv : e.before.session.view = v) : ∃ i, e.Addresses host script v i := by
  subst hv
  obtain ⟨_, _, _, earlier, hpast, hless⟩ := applied_shown hd hp he hap
  obtain ⟨hsteady, _, hcurrent⟩ := hp.taken e he
  obtain ⟨i, hstep, hchecks, hstored, hreplied⟩ := applied_judged hd hp he hap
  have hscript : e.before.session.script = script := hsteady.script
  rw [hscript] at hstep
  exact ⟨i, ⟨rfl, hcurrent _ _ hpast⟩, ⟨earlier, hpast, hless⟩, hstep, rfl, hchecks, hstored,
    hreplied⟩

end

/-- **Only the prompt that was seen.** A submission with the number of a published view is applied
only if the view shows a prompt, and then in that presentation of it. The answers are those that
have been told to be stored. -/
theorem submission_addresses_view {host : Host κ W} {script : Script κ} {settings : Settings}
    {world : W} {a b : Desk κ W} {v : View} {text : String} {e : Entry κ W}
    (ha : (Desk.opened script settings world).Course host a)
    (hv : v = (Desk.opened script settings world).form.view ∨ v ∈ views a.form.past)
    (hb : Desk.Course host ⟨(a.form.send text v.prompt).2, a.docket⟩ b) (he : e ∈ b.docket)
    (hs : e.submission = ⟨a.form.tickets, text, v.prompt⟩) :
    (v.status ≠ .waiting → e.texts = []) ∧
      (e.applied = true → v.status = .waiting ∧ ∃ i, e.Addresses host script v i) ∧
      b.form.session.answers = Answers.empty.pushAll (stored b.form.line) := by
  have hopen := opened_sound script settings world
  have hsound := course_sound hopen ha
  have hpresented := course_presented hopen (opened_presented script settings world) ha
  have hsend : a.Step host ⟨(a.form.send text v.prompt).2, a.docket⟩ := .send text v.prompt
  have hsent := step_sound hsound hsend
  have hd := course_sound hsent hb
  have hp := course_presented hsent (step_presented hsound hpresented hsend) hb
  have hpast := (course_since hsent (send_since hsound.inOrder text v.prompt) hb).taken e he
    (Nat.le_of_eq (congrArg Submission.ticket hs).symm)
  have hseen : v.prompt = 0 ∨ v ∈ views e.before.past := by
    rcases hv with rfl | hv
    · exact .inl rfl
    · rw [mem_views] at hv ⊢
      exact .inr (hpast.subset hv)
  have hshown : e.applied = true → e.before.session.view = v := fun hap =>
    shown_of_seen hd hp he hap hseen (by rw [hs])
  have hwaiting : e.applied = true → v.status = .waiting := by
    intro hap
    have hw := (applied_shown hd hp he hap).2.1
    rw [← hshown hap]
    simp [Session.view, State.status, hw, Phase.status]
  refine ⟨fun hne => Entry.not_applied_iff.mp fun hap => hne (hwaiting hap), fun hap => ?_,
    hd.faithful.answers⟩
  exact ⟨hwaiting hap, addresses_of_shown hd hp he hap (hshown hap)⟩

theorem addresses_pet : ∃ (a b : Desk Unit Unit) (e : Entry Unit Unit) (i : Input Unit),
    (Desk.opened survey .instant ()).Course obliging a ∧
      Desk.Course obliging ⟨(a.form.send "cat" a.form.view.prompt).2, a.docket⟩ b ∧
      e ∈ b.docket ∧ e.applied = true ∧ stored e.history = [("pet", "cat")] ∧
      e.Addresses obliging survey a.form.view i := by
  have h : ((Desk.moves obliging 8 (Desk.opened survey .instant ())).bind fun a =>
      (Desk.moves obliging 18 ⟨(a.form.send "cat" a.form.view.prompt).2, a.docket⟩).map fun b =>
        (decide (a.form.view ∈ views a.form.past), b.docket.map fun e =>
          decide (e.submission = ⟨a.form.tickets, "cat", a.form.view.prompt⟩ ∧ e.applied = true ∧
            stored e.history = [("pet", "cat")]))) = some (true, [true]) := by decide +kernel
  obtain ⟨a, ha, h⟩ := Option.bind_eq_some_iff.mp h
  obtain ⟨b, hb, h⟩ := Option.map_eq_some_iff.mp h
  obtain ⟨hv, hd⟩ := Prod.mk.inj h
  obtain ⟨e, hd, he⟩ := List.map_eq_singleton_iff.mp hd
  obtain ⟨hs, hap, hstored⟩ := of_decide_eq_true he
  have hca : (Desk.opened survey .instant ()).Course obliging a := Desk.Course.moves .refl ha
  have hcb : Desk.Course obliging ⟨(a.form.send "cat" a.form.view.prompt).2, a.docket⟩ b :=
    Desk.Course.moves .refl hb
  have hm : e ∈ b.docket := hd ▸ List.mem_singleton_self e
  obtain ⟨_, i, hi⟩ :=
    (submission_addresses_view hca (.inr (of_decide_eq_true hv)) hcb hm hs).2.1 hap
  exact ⟨a, b, e, i, hca, hcb, hm, hap, hstored, hi⟩

end Dialogue
