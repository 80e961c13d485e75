import Dialogue.Proofs.Ledger

/-!
# Submissions

A submission is applied when its text becomes a message of the user. Each is applied at most once,
and of those for one prompt at most one: an accepted submission ends the wait for its prompt, and
the next wait is for another one.
-/

namespace Dialogue

variable {κ W : Type}

/-! ## Entries -/

namespace Entry

def texts (e : Entry κ W) : List String :=
  userTexts e.history

def applied (e : Entry κ W) : Bool :=
  !e.texts.isEmpty

theorem applied_iff {e : Entry κ W} : e.applied = true ↔ e.texts ≠ [] := by
  simp [applied]

theorem not_applied_iff {e : Entry κ W} : ¬ e.applied = true ↔ e.texts = [] := by
  simp [applied]

structure Right (e : Entry κ W) : Prop where
  texts : e.texts = [e.submission.text]
  going : e.before.session.halted = false
  waiting : e.before.session.state.phase = .awaitingInput
  turn : e.submission.turn = e.before.session.state.prompts

def Settled (e : Entry κ W) : Prop :=
  ∃ result, e.reply = some result ∧ (e.applied = true ↔ CallResult.Taken result) ∧
    (CallResult.Taken result ∨ CallResult.Refused result)

def Open (e : Entry κ W) : Next → Prop
  | .again _ => e.applied = true
  | .returns result => e.applied = true ↔ CallResult.Taken result

end Entry

namespace Docket

/-- Only the latest submission can be without a reply, while there is work to do. -/
def Answered : Docket κ W → Option Next → Prop
  | docket, none => ∀ e ∈ docket, e.Settled
  | [], some _ => True
  | e :: docket, some next => e.reply = none ∧ e.Open next ∧ ∀ e ∈ docket, e.Settled

def Ascending (docket : Docket κ W) : Prop :=
  docket.Pairwise fun later earlier => later.applied = true → earlier.applied = true →
    earlier.submission.turn < later.submission.turn

end Docket

/-! ## The docket of a ledger -/

structure Ledger.Kept (l : Ledger κ W) : Prop where
  right : ∀ e ∈ l.docket, e.applied = true → e.Right
  ascending : l.docket.Ascending
  below : ∀ e ∈ l.docket, e.applied = true → e.submission.turn ≤ l.session.state.prompts ∧
    (l.session.state.phase = .awaitingInput → e.submission.turn < l.session.state.prompts)
  answered : l.docket.Answered l.next?
  line : ∃ opening, userTexts opening = [] ∧ l.line = opening ++ l.docket.histories

section
variable {host : Host κ W}

theorem histories_answer (docket : Docket κ W) (result : CallResult) :
    (docket.answer result).histories = docket.histories := by
  cases docket with
  | nil => rfl
  | cons e docket => rw [Docket.answer, Docket.histories_cons, Docket.histories_cons]

theorem extend_applied {e : Entry κ W} {history : List (Occurrence κ)}
    (h : userTexts history = []) :
    Entry.applied { e with history := e.history ++ history } = e.applied := by
  simp [Entry.applied, Entry.texts, h]

theorem extend_right {e : Entry κ W} {history : List (Occurrence κ)} (h : userTexts history = [])
    (hr : e.Right) : Entry.Right { e with history := e.history ++ history } := by
  refine ⟨?_, hr.going, hr.waiting, hr.turn⟩
  have ht := hr.texts
  simpa [Entry.texts, h] using ht

theorem mem_modifyHead {docket : Docket κ W} {update : Entry κ W → Entry κ W} {e : Entry κ W}
    (he : e ∈ docket.modifyHead update) : ∃ e' ∈ docket, e = e' ∨ e = update e' := by
  cases docket with
  | nil => cases he
  | cons e' docket =>
    rcases List.mem_cons.mp he with rfl | he
    · exact ⟨e', List.mem_cons_self, .inr rfl⟩
    · exact ⟨e, List.mem_cons_of_mem _ he, .inl rfl⟩

theorem mem_extend {docket : Docket κ W} {history : List (Occurrence κ)} {e : Entry κ W}
    (he : e ∈ docket.extend history) : ∃ e' ∈ docket, e = e' ∨
      e = { e' with history := e'.history ++ history } :=
  mem_modifyHead (docket.extend_eq history ▸ he)

theorem mem_answer {docket : Docket κ W} {result : CallResult} {e : Entry κ W}
    (he : e ∈ docket.answer result) : ∃ e' ∈ docket, e = e' ∨
      e = { e' with reply := some result } :=
  mem_modifyHead (docket.answer_eq result ▸ he)

theorem extend_ascending {docket : Docket κ W} {history : List (Occurrence κ)}
    (h : userTexts history = []) (ha : docket.Ascending) : (docket.extend history).Ascending := by
  cases docket with
  | nil => exact ha
  | cons e docket =>
    obtain ⟨hhead, htail⟩ := List.pairwise_cons.mp ha
    refine List.pairwise_cons.mpr ⟨fun e' he' hap => ?_, htail⟩
    rw [extend_applied h] at hap
    exact hhead e' he' hap

theorem react_open {s : Session κ} {event : Event} {t : Transition κ}
    (ht : transition s.script s.state event = .ok t) (world : W) {e : Entry κ W}
    (he : e.applied = true) : e.Open (s.react host world event).next := by
  rcases Session.react_next host ht world with ⟨_, failure, hn⟩ | ⟨_, ⟨later, hn, _⟩ | ⟨hn, _⟩⟩
  · rw [hn]
    exact ⟨fun _ => .inr ⟨failure, rfl⟩, fun _ => he⟩
  · rw [hn]
    exact he
  · rw [hn]
    exact ⟨fun _ => .inl rfl, fun _ => he⟩

theorem Docket.Answered.extend {docket : Docket κ W} {s : Session κ} {event : Event}
    {t : Transition κ} (h : docket.Answered (some (.again event)))
    (ht : transition s.script s.state event = .ok t) (world : W)
    (hu : userTexts (s.react host world event).history = []) :
    (docket.extend (s.react host world event).history).Answered
      (some (s.react host world event).next) := by
  cases docket with
  | nil => trivial
  | cons e docket =>
    obtain ⟨hnone, hopen, hrest⟩ := h
    refine ⟨hnone, react_open ht world ?_, hrest⟩
    rw [extend_applied hu]
    exact hopen

theorem again_kept {s : Session κ} {world : W} {line : List (Occurrence κ)} {event : Event}
    {docket : Docket κ W} {t : Transition κ}
    (hk : Ledger.Kept ⟨s, world, line, some (.again event), docket⟩) (hi : event.Internal)
    (ht : transition s.script s.state event = .ok t) :
    (Ledger.taken (s.react host world event) line docket).Kept := by
  obtain ⟨hu, _⟩ := Session.react_internal host ht hi world
  have hstate : (s.react host world event).session.state = t.state :=
    (Session.react_grows host ht world).state
  have hprompts := moves_prompts (transition_moves ht)
  refine ⟨?_, extend_ascending hu hk.ascending, ?_, hk.answered.extend ht world hu, ?_⟩
  · intro e he hap
    obtain ⟨e', he', rfl | rfl⟩ := mem_extend he
    · exact hk.right e he' hap
    · rw [extend_applied hu] at hap
      exact extend_right hu (hk.right e' he' hap)
  · intro e he hap
    obtain ⟨e', he', ht', hap'⟩ : ∃ e' ∈ docket, e'.submission = e.submission ∧
        e'.applied = true := by
      obtain ⟨e', he', rfl | rfl⟩ := mem_extend he
      · exact ⟨e, he', rfl, hap⟩
      · exact ⟨e', he', rfl, by rwa [extend_applied hu] at hap⟩
    have hle := (hk.below e' he' hap').1
    dsimp only at hle
    rw [Ledger.taken, hstate, ← ht']
    rcases hprompts with ⟨_, h⟩ | ⟨hne, h⟩
    · exact ⟨by omega, fun _ => by omega⟩
    · exact ⟨by omega, fun hp => absurd hp hne⟩
  · obtain ⟨opening, ho, hl⟩ := hk.line
    dsimp only at hl
    cases docket with
    | nil =>
      refine ⟨line ++ (s.react host world event).history, ?_, (List.append_nil _).symm⟩
      rw [hl, userTexts_append, userTexts_append, ho, hu]
      rfl
    | cons e docket =>
      refine ⟨opening, ho, ?_⟩
      rw [Ledger.taken, hl, Docket.histories_extend (List.cons_ne_nil e docket),
        List.append_assoc]

theorem refused_kept {before : Form κ W} {docket : Docket κ W} {submission : Submission}
    {e : CallError}
    (hk : Ledger.Kept ⟨before.session, before.world, before.past.reverse, none, docket⟩)
    (he : e.Refusal) :
    Ledger.Kept ⟨before.session, before.world, before.past.reverse, some (.returns (.error e)),
      ⟨submission, before, [], none⟩ :: docket⟩ := by
  have hidle : ¬ (⟨submission, before, [], none⟩ : Entry κ W).applied = true := nofun
  refine ⟨?_, ?_, ?_, ⟨rfl, ?_, hk.answered⟩, ?_⟩
  · intro e' he' hap
    rcases List.mem_cons.mp he' with rfl | he'
    · exact absurd hap hidle
    · exact hk.right e' he' hap
  · exact List.pairwise_cons.mpr ⟨fun e' _ hap => absurd hap hidle, hk.ascending⟩
  · intro e' he' hap
    rcases List.mem_cons.mp he' with rfl | he'
    · exact absurd hap hidle
    · exact hk.below e' he' hap
  · exact ⟨fun h => absurd h hidle, fun h => absurd h (CallResult.Refused.not_taken ⟨e, rfl, he⟩)⟩
  · obtain ⟨opening, ho, hl⟩ := hk.line
    refine ⟨opening, ho, ?_⟩
    rw [Docket.histories_cons, List.append_nil]
    exact hl

theorem accepted_kept {before : Form κ W} {docket : Docket κ W} {submission : Submission}
    {i : Input κ}
    (hk : Ledger.Kept ⟨before.session, before.world, before.past.reverse, none, docket⟩)
    (hh : before.session.halted = false) (hp : before.session.state.phase = .awaitingInput)
    (ht : submission.turn = before.session.state.prompts)
    (hi : before.session.script.stepAt? before.session.state.position = some (.input i)) :
    (Ledger.taken
      (before.session.react host before.world (.submitted submission.text submission.turn))
      before.past.reverse (⟨submission, before, [], none⟩ :: docket)).Kept := by
  obtain ⟨t, haccept, hvalidating⟩ : ∃ t, transition before.session.script before.session.state
      (.submitted submission.text submission.turn) = .ok t ∧
        t.state = { before.session.state with phase := .validating submission.text } :=
    ⟨_, by rw [ht]; exact moves_transition (.submit hp hi), rfl⟩
  have hstate := (Session.react_grows host haccept before.world).state
  have htexts : userTexts (before.session.react host before.world
      (.submitted submission.text submission.turn)).history = [submission.text] := by
    rw [ht]
    obtain ⟨first, last, hh, ⟨hf, _⟩, ⟨hl, _⟩, _⟩ :=
      Session.react_submit host hp hi submission.text before.world
    rw [hh, userTexts_append, userTexts_append, hf, hl,
      (checkRules_asking host _ _ _ _).no_texts]
    rfl
  generalize hstage : before.session.react host before.world
    (.submitted submission.text submission.turn) = stage at htexts hstate ⊢
  have hap : Entry.applied ⟨submission, before, [] ++ stage.history, none⟩ = true :=
    Entry.applied_iff.mpr (by rw [Entry.texts, List.nil_append, htexts]; simp)
  rw [Ledger.taken, Docket.extend]
  refine ⟨?_, ?_, ?_, ⟨rfl, ?_, hk.answered⟩, ?_⟩
  · intro e he hape
    rcases List.mem_cons.mp he with rfl | he
    · exact ⟨htexts, hh, hp, ht⟩
    · exact hk.right e he hape
  · refine List.pairwise_cons.mpr ⟨fun e he _ hape => ?_, hk.ascending⟩
    -- the prompt that is waited for is above all turns that have been answered
    rw [ht]
    exact (hk.below e he hape).2 hp
  · intro e he hape
    rw [hstate, hvalidating]
    refine ⟨?_, fun hw => by cases hw⟩
    rcases List.mem_cons.mp he with rfl | he
    · exact Nat.le_of_eq ht
    · exact (hk.below e he hape).1
  · rw [← hstage]
    exact react_open haccept before.world (hstage ▸ hap)
  · obtain ⟨opening, ho, hl⟩ := hk.line
    dsimp only at hl
    refine ⟨opening, ho, ?_⟩
    rw [Docket.histories_cons, hl, List.append_assoc]
    rfl

theorem reply_kept {s : Session κ} {world : W} {line : List (Occurrence κ)} {docket : Docket κ W}
    {result : CallResult} (hk : Ledger.Kept ⟨s, world, line, some (.returns result), docket⟩)
    (hr : CallResult.Taken result ∨ CallResult.Refused result) :
    Ledger.Kept ⟨s, world, line, none, docket.answer result⟩ := by
  refine ⟨?_, ?_, ?_, ?_, ?_⟩
  · intro e he hap
    obtain ⟨e', he', rfl | rfl⟩ := mem_answer he
    · exact hk.right e he' hap
    · obtain ⟨htexts, hgoing, hwaiting, hturn⟩ := hk.right e' he' hap
      exact ⟨htexts, hgoing, hwaiting, hturn⟩
  · cases docket with
    | nil => exact hk.ascending
    | cons e docket => exact List.pairwise_cons.mpr (List.pairwise_cons.mp hk.ascending)
  · intro e he hap
    obtain ⟨e', he', rfl | rfl⟩ := mem_answer he
    · exact hk.below e he' hap
    · exact hk.below e' he' hap
  · cases docket with
    | nil => exact fun e he => absurd he List.not_mem_nil
    | cons e docket =>
      obtain ⟨_, hopen, hrest⟩ := hk.answered
      intro e' he'
      rcases List.mem_cons.mp he' with rfl | he'
      · exact ⟨result, rfl, hopen, hr⟩
      · exact hrest e' he'
  · obtain ⟨opening, ho, hl⟩ := hk.line
    exact ⟨opening, ho, hl.trans (by rw [histories_answer])⟩

theorem change_kept {l l' : Ledger κ W} (hk : l.Kept) (h : Ledger.Change host l l') : l'.Kept := by
  cases h with
  | again hh ha hi ht => exact again_kept hk hi ht
  | refused he => exact refused_kept hk he
  | accepted hh hp ht hi => exact accepted_kept hk hh hp ht hi
  | reply hr => exact reply_kept hk hr

theorem opened_kept (script : Script κ) (settings : Settings) (world : W) :
    (Desk.opened script settings world).ledger.Kept := by
  have hd : (Desk.opened script settings world).ledger.docket = [] := rfl
  refine ⟨?_, ?_, ?_, trivial, [], rfl, rfl⟩
  · rw [hd]
    exact fun e he => absurd he List.not_mem_nil
  · rw [hd]
    exact List.Pairwise.nil
  · rw [hd]
    exact fun e he => absurd he List.not_mem_nil

end

/-! ## The order of sending -/

def Desk.sent (d : Desk κ W) : List Submission :=
  d.docket.reverse.map Entry.submission ++ d.form.queue ++ d.form.senders

structure Desk.InOrder (d : Desk κ W) : Prop where
  ascending : (d.sent.map Submission.ticket).Pairwise (· < ·)
  below : ∀ s ∈ d.sent, s.ticket < d.form.tickets

section
variable {host : Host κ W} {f : Form κ W} {docket : Docket κ W}

theorem submissions_extend (docket : Docket κ W) (history : List (Occurrence κ)) :
    (docket.extend history).map Entry.submission = docket.map Entry.submission := by
  cases docket <;> rfl

theorem submissions_answer (docket : Docket κ W) (result : CallResult) :
    (docket.answer result).map Entry.submission = docket.map Entry.submission := by
  cases docket <;> rfl

theorem sent_congr {d : Desk κ W}
    (hd : d.docket.map Entry.submission = docket.map Entry.submission)
    (hq : d.form.queue = f.queue) (hs : d.form.senders = f.senders) :
    d.sent = Desk.sent ⟨f, docket⟩ := by
  simp only [Desk.sent, List.map_reverse, hd, hq, hs]

theorem moved_sent {d : Desk κ W} (h : Desk.Moved host f docket d) :
    d.sent = Desk.sent ⟨f, docket⟩ ∧ d.form.tickets = f.tickets := by
  cases h with
  | start h => exact ⟨sent_congr rfl rfl rfl, rfl⟩
  | @serve submission queue h hq =>
    refine ⟨?_, rfl⟩
    simp only [Desk.sent, Form.takeUp, hq, List.reverse_cons, List.map_append, List.map_cons,
      List.map_nil, List.append_assoc, List.cons_append, List.nil_append, List.take_append_drop]
  | @reveal ticket o ahead next activity h ha =>
    obtain ⟨_, _, _, _, hq, hs, ht, _⟩ := f.reveal_kept o
    exact ⟨sent_congr (submissions_extend docket [o]) hq hs, ht⟩
  | again h => exact ⟨sent_congr rfl rfl rfl, rfl⟩
  | @reply ticket result h => exact ⟨sent_congr (submissions_answer docket result) rfl rfl, rfl⟩

theorem send_sent (f : Form κ W) (docket : Docket κ W) (text : String) (turn : Nat) :
    Desk.sent ⟨(f.send text turn).2, docket⟩ =
        Desk.sent ⟨f, docket⟩ ++ [⟨f.tickets, text, turn⟩] ∧
      (f.send text turn).2.tickets = f.tickets + 1 := by
  unfold Form.send
  dsimp only
  split
  · rename_i h
    have hs : f.senders = [] := by
      simp only [Bool.and_eq_true, List.isEmpty_iff] at h
      exact h.1
    simp [Desk.sent, hs]
  · simp [Desk.sent]

theorem step_inOrder {d d' : Desk κ W} (ha : d.form.Alive) (ho : d.InOrder)
    (h : d.Step host d') : d'.InOrder := by
  cases h with
  | @send f docket text turn =>
    obtain ⟨hs, ht⟩ := send_sent f docket text turn
    refine ⟨?_, ?_⟩
    · rw [hs, List.map_append, List.pairwise_append]
      refine ⟨ho.ascending, List.pairwise_singleton _ _, fun t htm u hu => ?_⟩
      obtain ⟨s, hsm, rfl⟩ := List.mem_map.mp htm
      rw [List.mem_singleton.mp hu]
      exact ho.below s hsm
    · intro s hsm
      rw [ht]
      rw [hs] at hsm
      rcases List.mem_append.mp hsm with hsm | hsm
      · exact Nat.lt_succ_of_lt (ho.below s hsm)
      · rw [List.mem_singleton.mp hsm]
        exact Nat.lt_succ_self _
  | @leave f docket senders h =>
    have hsub : (Desk.sent ⟨{ f with senders }, docket⟩).Sublist (Desk.sent ⟨f, docket⟩) :=
      List.Sublist.append_left h _
    exact ⟨ho.ascending.sublist (hsub.map _), fun s hsm => ho.below s (hsub.mem hsm)⟩
  | follow feed => exact ⟨ho.ascending, ho.below⟩
  | pass h => exact ⟨ho.ascending, ho.below⟩
  | move h =>
    have hm : Desk.Moved host d.form d.docket ⟨_, d.noted⟩ := moved_of_move ha h
    obtain ⟨hs, ht⟩ := moved_sent hm
    refine ⟨?_, ?_⟩
    · rw [hs]
      exact ho.ascending
    · rw [hs, ht]
      exact ho.below

end

/-! ## Replies -/

structure Desk.Attended (d : Desk κ W) : Prop where
  unstarted : d.form.activity = .unstarted → d.docket = []
  ticket : ∀ work, d.form.work? = some work →
    work.ticket = d.docket.head?.map (·.submission.ticket)
  replies : d.form.replies = d.docket.filterMap fun e => e.reply.map (e.submission.ticket, ·)

section
variable {host : Host κ W} {f : Form κ W} {docket : Docket κ W}

theorem attended_congr {g : Form κ W} (h : Desk.Attended ⟨f, docket⟩)
    (ha : g.activity = f.activity) (hr : g.replies = f.replies) : Desk.Attended ⟨g, docket⟩ := by
  refine ⟨fun hu => h.unstarted (ha.symm.trans hu), fun work hw => h.ticket work ?_, ?_⟩
  · rw [Form.work?, ha] at hw
    exact hw
  · exact hr.trans h.replies

theorem extend_replies (docket : Docket κ W) (history : List (Occurrence κ)) :
    ((docket.extend history).filterMap fun e => e.reply.map (e.submission.ticket, ·)) =
      docket.filterMap fun e => e.reply.map (e.submission.ticket, ·) := by
  cases docket <;> rfl

theorem moved_attended {d : Desk κ W} (hk : (Desk.ledger ⟨f, docket⟩).Kept)
    (ha : Desk.Attended ⟨f, docket⟩) (h : Desk.Moved host f docket d) : d.Attended := by
  cases h with
  | start h =>
    have hd : docket = [] := ha.unstarted h
    subst hd
    exact ⟨nofun, fun work hw => by cases hw; rfl, ha.replies⟩
  | serve h hq => exact ⟨nofun, fun work hw => by cases hw; rfl, ha.replies⟩
  | @reveal ticket o ahead next activity h hact =>
    have ht : ticket = docket.head?.map (·.submission.ticket) := ha.ticket _ h
    obtain ⟨_, _, _, _, _, _, _, hr⟩ := f.reveal_kept o
    refine ⟨?_, fun work hw => ?_, ?_⟩
    · rcases hact with rfl | ⟨wake, rfl⟩ <;> exact nofun
    · have htw : work.ticket = ticket := by
        rcases hact with rfl | ⟨wake, rfl⟩ <;> cases hw <;> rfl
      rw [htw, ht]
      cases docket <;> rfl
    · rw [extend_replies]
      exact hr.trans ha.replies
  | @again ticket event h =>
    have ht : ticket = docket.head?.map (·.submission.ticket) := ha.ticket _ h
    exact ⟨nofun, fun work hw => by cases hw; exact ht, ha.replies⟩
  | @reply ticket result h =>
    have ht : ticket = docket.head?.map (·.submission.ticket) := ha.ticket _ h
    have hr : f.replies = docket.filterMap fun e => e.reply.map (e.submission.ticket, ·) :=
      ha.replies
    refine ⟨nofun, nofun, ?_⟩
    cases docket with
    | nil =>
      subst ht
      exact hr
    | cons e docket =>
      have hnone : e.reply = none := by
        have hans := hk.answered
        rw [ledger_of_work h, Docket.extend_nil] at hans
        exact hans.1
      subst ht
      simp only [List.filterMap_cons, hnone, Option.map_none] at hr
      simp only [Form.hand, Docket.answer, List.head?_cons, Option.map_some, List.filterMap_cons,
        hr]

theorem step_attended {d d' : Desk κ W} (ha : d.form.Alive) (hk : d.ledger.Kept)
    (hd : d.Attended) (h : d.Step host d') : d'.Attended := by
  cases h with
  | @send f docket text turn =>
    obtain ⟨_, _, hact, _, _, hr, _⟩ := f.send_kept text turn
    exact attended_congr hd hact hr
  | leave h => exact attended_congr hd rfl rfl
  | follow feed => exact attended_congr hd rfl rfl
  | pass h => exact attended_congr hd rfl rfl
  | move h =>
    have hm : Desk.Moved host d.form d.docket ⟨_, d.noted⟩ := moved_of_move ha h
    exact moved_attended hk hd hm

end

/-! ## All of a course -/

structure Desk.Sound (script : Script κ) (d : Desk κ W) : Prop where
  alive : d.form.Alive
  steady : d.ledger.Steady script
  faithful : d.ledger.Faithful
  kept : d.ledger.Kept
  inOrder : d.InOrder
  attended : d.Attended

theorem opened_sound (script : Script κ) (settings : Settings) (world : W) :
    (Desk.opened script settings world).Sound script :=
  ⟨opened_alive script settings world, Ledger.opened_steady script settings world,
    Ledger.opened_faithful script settings world, opened_kept script settings world,
    ⟨List.Pairwise.nil, nofun⟩, ⟨fun _ => rfl, nofun, rfl⟩⟩

theorem step_sound {host : Host κ W} {script : Script κ} {d d' : Desk κ W} (hd : d.Sound script)
    (h : d.Step host d') : d'.Sound script := by
  obtain ⟨ha, hl⟩ := step_ledger hd.alive h
  have ho := step_inOrder hd.alive hd.inOrder h
  have hat := step_attended hd.alive hd.kept hd.attended h
  rcases hl with hl | hl
  · exact ⟨ha, hl ▸ hd.steady, hl ▸ hd.faithful, hl ▸ hd.kept, ho, hat⟩
  · have hc := Ledger.turn_change hd.steady hl
    exact ⟨ha, Ledger.change_steady hd.steady hc, Ledger.change_faithful hd.faithful hc,
      change_kept hd.kept hc, ho, hat⟩

theorem course_sound {host : Host κ W} {script : Script κ} {d d' : Desk κ W} (hd : d.Sound script)
    (h : d.Course host d') : d'.Sound script :=
  h.keeps step_sound hd

/-! ## At most once -/

structure Desk.Accounted (d : Desk κ W) : Prop where
  turns : (d.docket.filter Entry.applied).Pairwise fun later earlier =>
    earlier.submission.turn < later.submission.turn
  texts : ∀ e ∈ d.docket, e.applied = true → e.texts = [e.submission.text]
  replied : ∀ e ∈ d.docket, ∀ result, e.reply = some result →
    (e.applied = true ↔ result = .ok () ∨ ∃ failure, result = .error (.callback failure))
  -- so far the user has said the texts of the applied submissions and nothing else
  said : (messages d.form.past.reverse).filterMap Message.userText? =
    (d.docket.reverse.filter Entry.applied).map (·.submission.text)
  -- the session is where its stage leads: it holds also the messages that are still to be told
  transcript : d.form.session.transcript = messages (d.form.past.reverse ++ d.form.ahead)
  -- submissions are taken in the order of sending
  order : (d.sent.map Submission.ticket).Pairwise (· < ·)
  replies : d.form.replies = d.docket.filterMap fun e => e.reply.map (e.submission.ticket, ·)
  results : ∀ e ∈ d.docket, ∀ result, e.reply = some result →
    result = .ok () ∨ (∃ failure, result = .error (.callback failure)) ∨
      result = .error .halted ∨
      (∃ submitted current, result =
        .error (.rejected (.staleSubmission submitted current))) ∨
      result = .error (.rejected (.notAwaitingInput .completed))

section
variable {d : Desk κ W} {script : Script κ}

theorem applied_of_extended {e : Entry κ W} {history : List (Occurrence κ)}
    (h : e.applied = true) : Entry.applied { e with history := e.history ++ history } = true := by
  rw [Entry.applied_iff] at h ⊢
  intro hnil
  rw [Entry.texts, userTexts_append, List.append_eq_nil_iff] at hnil
  exact h hnil.1

/-- An entry of the docket is one of the ledger, as far as it has been shown. -/
theorem mem_docket {e : Entry κ W} (he : e ∈ d.docket) : ∃ history,
    { e with history := e.history ++ history } ∈ d.ledger.docket := by
  rw [Desk.ledger]
  cases hd : d.docket with
  | nil => rw [hd] at he; cases he
  | cons e' docket =>
    rw [hd] at he
    rcases List.mem_cons.mp he with rfl | he
    · exact ⟨d.form.ahead, List.mem_cons_self⟩
    · exact ⟨[], List.mem_cons_of_mem _ (by rwa [List.append_nil])⟩

theorem ahead_of_rest {f : Form κ W} (h : f.next? = none) : f.ahead = [] := by
  unfold Form.next? at h
  rw [Form.ahead]
  cases ha : f.activity with
  | unstarted => rw [ha] at h; cases h
  | _ =>
    rw [ha] at h
    cases hw : f.work? with
    | none => rfl
    | some work => rw [hw] at h; cases h

theorem mem_docket_replied (hk : d.ledger.Kept) {e : Entry κ W} (he : e ∈ d.docket)
    {result : CallResult} (hr : e.reply = some result) : e.Settled ∧ e ∈ d.ledger.docket := by
  have hans := hk.answered
  rw [Desk.ledger] at hans ⊢
  cases hn : d.form.next? with
  | none =>
    rw [hn, ahead_of_rest hn, Docket.extend_nil] at hans
    rw [ahead_of_rest hn, Docket.extend_nil]
    exact ⟨hans e he, he⟩
  | some next =>
    cases hd : d.docket with
    | nil => rw [hd] at he; cases he
    | cons e' docket =>
      rw [hn, hd] at hans
      rw [hd] at he
      obtain ⟨hnone, _, hrest⟩ := hans
      rcases List.mem_cons.mp he with rfl | he
      · rw [hr] at hnone
        cases hnone
      · exact ⟨hrest e he, List.mem_cons_of_mem _ he⟩

theorem sound_ascending (hd : d.Sound script) : d.docket.Ascending := by
  have ha := hd.kept.ascending
  rw [Desk.ledger] at ha
  cases hdk : d.docket with
  | nil => exact List.Pairwise.nil
  | cons e docket =>
    rw [hdk] at ha
    obtain ⟨hhead, htail⟩ := List.pairwise_cons.mp ha
    exact List.pairwise_cons.mpr
      ⟨fun e' he' hap => hhead e' he' (applied_of_extended hap), htail⟩

theorem sound_texts (hd : d.Sound script) {e : Entry κ W} (he : e ∈ d.docket)
    (hap : e.applied = true) : e.texts = [e.submission.text] := by
  obtain ⟨history, hm⟩ := mem_docket he
  have ht := (hd.kept.right _ hm (applied_of_extended hap)).texts
  rw [Entry.texts, userTexts_append] at ht
  rcases List.append_eq_singleton_iff.mp ht with ⟨h, _⟩ | ⟨h, _⟩
  · exact absurd h (Entry.applied_iff.mp hap)
  · exact h

theorem sound_past (hd : d.Sound script) :
    userTexts d.form.past.reverse = userTexts d.docket.histories := by
  obtain ⟨opening, ho, hl⟩ := hd.kept.line
  rw [Desk.ledger, Form.line] at hl
  dsimp only at hl
  cases hdk : d.docket with
  | nil =>
    rw [hdk, Docket.extend] at hl
    have hu := congrArg userTexts hl
    rw [userTexts_append, userTexts_append, ho] at hu
    exact (List.append_eq_nil_iff.mp hu).1
  | cons e docket =>
    rw [hdk, Docket.histories_extend (List.cons_ne_nil e docket), ← List.append_assoc] at hl
    rw [List.append_cancel_right hl, userTexts_append, ho]
    rfl

theorem texts_histories : ∀ (docket : Docket κ W),
    (∀ e ∈ docket, e.applied = true → e.texts = [e.submission.text]) →
      userTexts docket.histories =
        (docket.reverse.filter Entry.applied).map (·.submission.text)
  | [], _ => rfl
  | e :: docket, h => by
    have ih := texts_histories docket fun e' he' => h e' (List.mem_cons_of_mem e he')
    rw [Docket.histories_cons, userTexts_append, ih, List.reverse_cons, List.filter_append,
      List.map_append]
    cases hap : e.applied with
    | true =>
      have ht : userTexts e.history = [e.submission.text] := h e List.mem_cons_self hap
      simp [hap, ht]
    | false =>
      have ht : userTexts e.history = [] := Entry.not_applied_iff.mp (by simp [hap])
      simp [hap, ht]

theorem Entry.Settled.result {e : Entry κ W} (h : e.Settled) {result : CallResult}
    (hr : e.reply = some result) : (e.applied = true ↔ CallResult.Taken result) ∧
      (CallResult.Taken result ∨ CallResult.Refused result) := by
  obtain ⟨result', hr', hs⟩ := h
  rw [hr] at hr'
  cases hr'
  exact hs

theorem sound_accounted (hd : d.Sound script) : d.Accounted where
  turns := List.pairwise_filter.mpr (sound_ascending hd)
  texts _ he hap := sound_texts hd he hap
  replied _ he _ hr := ((mem_docket_replied hd.kept he hr).1.result hr).1
  said := by
    rw [← userTexts_eq, sound_past hd]
    exact texts_histories d.docket fun e he => sound_texts hd he
  transcript := hd.faithful.transcript
  order := hd.inOrder.ascending
  replies := hd.attended.replies
  results _ he _ hr := by
    rcases ((mem_docket_replied hd.kept he hr).1.result hr).2 with (h | h) | ⟨e, rfl, h⟩
    · exact .inl h
    · exact .inr (.inl h)
    · cases h with
      | halted => exact .inr (.inr (.inl rfl))
      | stale submitted current => exact .inr (.inr (.inr (.inl ⟨submitted, current, rfl⟩)))
      | completed => exact .inr (.inr (.inr (.inr rfl)))

end

/-- **At most once.** However clients and task interleave, each submission is applied at most once,
of those with one turn at most one, and its reply tells whether it was. -/
theorem submissions_applied_once {host : Host κ W} {script : Script κ} {settings : Settings}
    {world : W} {d : Desk κ W} (h : (Desk.opened script settings world).Course host d) :
    d.Accounted :=
  sound_accounted (course_sound (opened_sound script settings world) h)

def obliging : Host Unit Unit where
  produce _ _ world := (⟨0, .ok ""⟩, world)
  holds _ _ world := (⟨0, .ok true⟩, world)
  accepts _ _ _ world := (⟨0, .ok true⟩, world)
  complete _ _ world := (⟨0, .ok ()⟩, world)

/-- Two submissions for the first prompt of `survey`, both sent before it is presented: the first
one is applied, the second one is not. -/
theorem race_accounted : ∃ d, (Desk.opened survey .instant ()).Course obliging d ∧ d.Accounted ∧
    d.docket.map (fun e => (e.submission.text, e.applied, e.reply.map Except.isOk)) =
      [("dog", false, some false), ("cat", true, some true)] := by
  let f := Form.spawn survey .instant ()
  let race : Desk Unit Unit := ⟨((f.send "cat" 1).2.send "dog" 1).2, []⟩
  have h : (Desk.moves obliging 28 race).map
      (fun d => d.docket.map fun e => (e.submission.text, e.applied, e.reply.map Except.isOk)) =
        some [("dog", false, some false), ("cat", true, some true)] := by decide +kernel
  obtain ⟨d, hm, hd⟩ := Option.map_eq_some_iff.mp h
  have hc : (Desk.opened survey .instant ()).Course obliging d :=
    Desk.Course.moves (.step (.step .refl (.send "cat" 1)) (.send "dog" 1)) hm
  exact ⟨d, hc, submissions_applied_once hc, hd⟩

end Dialogue
