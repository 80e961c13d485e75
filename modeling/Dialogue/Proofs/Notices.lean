import Dialogue.Proofs.Views

/-!
# Notices

Who only gets the notices can retell the conversation: the messages are its transcript, the stored
answers make up its answers, and the statuses take their course. A failure is told of last.

The statuses of the notices are those of the views but in one case: when the script's own callback
fails at the end, the view shows a completed conversation and no notice says so.
-/

namespace Dialogue

variable {κ W : Type}

/-! ## Readings -/

def Occurrence.notice? : Occurrence κ → Option Notice
  | .notified notice => some notice
  | _ => none

def Occurrence.status? : Occurrence κ → Option Status
  | .notified (.statusChanged status) => some status
  | _ => none

def notices (history : List (Occurrence κ)) : List Notice :=
  history.filterMap Occurrence.notice?

def statuses (history : List (Occurrence κ)) : List Status :=
  history.filterMap Occurrence.status?

section
variable (a b : List (Occurrence κ))

@[simp] theorem notices_append : notices (a ++ b) = notices a ++ notices b :=
  List.filterMap_append

@[simp] theorem statuses_append : statuses (a ++ b) = statuses a ++ statuses b :=
  List.filterMap_append

end

def Status.rounds : Nat → List Status
  | 0 => []
  | n + 1 => rounds n ++ [.waiting, .active]

def Calm (told : List Notice) : Prop :=
  ∀ message, .failed message ∉ told

structure Session.RetoldBy (s : Session κ) (marks : List (Mark κ)) : Prop where
  messages : messages (occurrences marks) = s.transcript
  answers : Answers.ofPushes (stored (occurrences marks)) = s.answers
  statuses : ∃ n, statuses (occurrences marks) <+: Status.rounds n ++ [.completed]
  failures : ∀ earlier message later,
    notices (occurrences marks) = earlier ++ .failed message :: later → later = []

/-! ## Messages and answers -/

def Session.Recorded (marks : List (Mark κ)) (s : Session κ) : Prop :=
  messages (occurrences marks) = s.transcript ∧
    Answers.ofPushes (stored (occurrences marks)) = s.answers

section
variable {marks : List (Mark κ)} {s : Session κ}

theorem recorded_silent (h : s.Recorded marks) {m : Mark κ}
    (hm : messages (occurrences [m]) = []) (ha : stored (occurrences [m]) = []) :
    s.Recorded (marks ++ [m]) := by
  obtain ⟨hmessages, hanswers⟩ := h
  constructor
  · simpa [hm] using hmessages
  · simpa [ha] using hanswers

theorem recorded_noting (h : s.Recorded marks) (notice : Notice) :
    (s.noting notice).Recorded (marks ++ [.occurred (.notified notice)]) := by
  obtain ⟨hmessages, hanswers⟩ := h
  cases notice with
  | message message =>
    constructor
    · rw [occurrences_append, messages_append, hmessages]
      rfl
    · rw [occurrences_append, stored_append]
      exact (congrArg Answers.ofPushes (List.append_nil _)).trans hanswers
  | answerStored name value =>
    constructor
    · rw [occurrences_append, messages_append]
      exact (List.append_nil _).trans hmessages
    · rw [occurrences_append, stored_append]
      exact (Answers.ofPushes_snoc _ name value).trans (congrArg (·.push name value) hanswers)
  | statusChanged status => exact recorded_silent ⟨hmessages, hanswers⟩ rfl rfl
  | failed message => exact recorded_silent ⟨hmessages, hanswers⟩ rfl rfl

theorem recorded_keeps : Keeps (κ := κ) Session.Recorded
    fun before m => m.session.Recorded (before ++ [m.mark]) where
  asks := by
    intro marks s o h ho
    have hs : s.Recorded (marks ++ [.occurred o]) := by
      cases o with
      | called call reply => exact recorded_silent h rfl rfl
      | slept millis => exact recorded_silent h rfl rfl
      | _ => cases ho
    exact ⟨hs, hs⟩
  tells := by
    intro marks s notice h told view
    have hn := recorded_noting h notice
    have hp : (s.noting notice).publish.Recorded (marks ++ [told] ++ [view]) :=
      recorded_silent hn rfl rfl
    refine ⟨hn, hp, ?_⟩
    rw [List.append_assoc] at hp
    exact hp

end

/-! ## Statuses -/

/-- The statuses told of so far, by the phase. When the script's own callback fails at the end, that
the conversation is completed is not told of. -/
def Session.Announced (s : Session κ) (told : List Status) : Prop :=
  match s.state.phase with
  | .awaitingInput => told ++ [.active] = Status.rounds s.state.prompts
  | .completed => told = Status.rounds s.state.prompts ++ if s.halted then [] else [.completed]
  | _ => told = Status.rounds s.state.prompts

section
variable {s : Session κ} {told : List Status}

theorem announced_active_iff (ha : s.state.status = .active) :
    s.Announced told ↔ told = Status.rounds s.state.prompts := by
  unfold Session.Announced
  cases hp : s.state.phase with
  | awaitingInput => simp [State.status, hp, Phase.status] at ha
  | completed => simp [State.status, hp, Phase.status] at ha
  | _ => rfl

theorem Session.Announced.course (h : s.Announced told) :
    ∃ n, told <+: Status.rounds n ++ [.completed] := by
  refine ⟨s.state.prompts, ?_⟩
  unfold Session.Announced at h
  cases hp : s.state.phase with
  | awaitingInput =>
    simp only [hp] at h
    rw [← h, List.append_assoc]
    exact List.prefix_append _ _
  | completed =>
    simp only [hp] at h
    rw [h]
    cases s.halted <;> simp
  | _ =>
    simp only [hp] at h
    rw [h]
    exact List.prefix_append _ _

theorem perform_statuses (host : Host κ W) {effect : Effect κ}
    (he : ∀ status, effect ≠ .publishStatus status) (s : Session κ) (world : W) :
    statuses (s.perform host world effect).history = [] :=
  Session.perform_silent host ⟨fun _ _ => rfl, fun _ => rfl⟩ (fun _ => rfl) (fun _ _ _ _ => rfl)
    (fun _ _ _ => rfl) (fun status h => absurd h (he status)) world

theorem carry_statuses (host : Host κ W) {effects : List (Effect κ)}
    (he : ∀ effect ∈ effects, ∀ status, effect ≠ .publishStatus status) (event : Option Event)
    (s : Session κ) (world : W) :
    statuses (Session.carry host effects event s world).history = [] :=
  Session.carry_silent host (fun _ _ => rfl)
    (fun effect hm s world => perform_statuses host (he effect hm) s world) event s world

theorem moves_silent {script : Script κ} {before : State} {event : Event} {t : Transition κ}
    (h : Moves script before event t) (hi : event.Internal) (ha : t.state.status = .active) :
    ∀ effect ∈ t.effects, ∀ status, effect ≠ .publishStatus status := by
  rintro effect he status rfl
  cases h with
  | finish => cases ha
  | present => cases ha
  | submit => exact hi _ _ rfl
  | produce => simp at he
  | ask => simp at he
  | say => simp at he
  | enter => simp at he
  | refuse => simp at he
  | settle =>
    obtain ⟨callback, he⟩ := mem_exitHooks he
    cases he
  | leave =>
    obtain ⟨callback, step, he⟩ := mem_closing he
    cases he
  | accept =>
    rcases List.mem_cons.mp he with he | he
    · cases he
    · obtain ⟨callback, step, he⟩ := mem_closing he
      cases he

variable (host : Host κ W) {event : Event} {t : Transition κ}

theorem finish_announced {moments : List (Moment κ)} {stage : Stage κ W}
    {asked : List (Occurrence κ)} {notice : Notice} (h : ComesToRest s moments stage asked notice)
    (hh : s.halted = false) (hp : s.state.phase = .completed)
    (ha : told = Status.rounds s.state.prompts) :
    stage.session.Announced (told ++ statuses stage.history) := by
  have hasked : statuses asked = [] := h.asking.silent ⟨fun _ _ => rfl, fun _ => rfl⟩
  rw [h.session, h.history, statuses_append, hasked, List.nil_append]
  rcases h.next with ⟨rfl, _⟩ | ⟨_, failure, rfl, _⟩
  · have hstatus : s.state.status = .completed := by rw [State.status, hp]; rfl
    simp [Session.Announced, Session.noting, Session.publish, Session.told, statuses,
      Occurrence.status?, hp, hh, ha, hstatus]
  · simp [Session.Announced, Session.noting, Session.publish, Session.told, Session.halt, statuses,
      Occurrence.status?, hp, ha]

theorem active_announced (ht : transition s.script s.state event = .ok t) (hi : event.Internal)
    (ha : t.state.status = .active) (hp : t.state.prompts = s.state.prompts)
    (h : s.Announced told) (world : W) :
    (s.react host world event).session.Announced
      (told ++ statuses (s.react host world event).history) := by
  have hstate : (s.react host world event).session.state = t.state :=
    (Session.react_grows host ht world).state
  have hsilent : statuses (s.react host world event).history = [] := by
    rw [Session.react_of_ok host ht]
    exact carry_statuses host (moves_silent (transition_moves ht) hi ha) none _ world
  rw [announced_active_iff (moves_active (transition_moves ht) hi)] at h
  rw [hsilent, List.append_nil, announced_active_iff (by rw [hstate]; exact ha), hstate, hp]
  exact h

theorem react_announced (ht : transition s.script s.state event = .ok t) (hh : s.halted = false)
    (h : s.Announced told) (world : W) : (s.react host world event).session.Announced
      (told ++ statuses (s.react host world event).history) := by
  have hactive (hi : event.Internal) : s.state.status = .active :=
    moves_active (transition_moves ht) hi
  cases transition_moves ht with
  | finish =>
    obtain ⟨asked, notice, hr⟩ := finish_rests host
      (s := { s with state := { s.state with phase := .completed } }) rfl world
    rw [Session.react_of_ok host ht]
    exact finish_announced hr hh rfl
      ((announced_active_iff (hactive (by simp [Event.Internal]))).mp h)
  | present =>
    rw [announced_active_iff (hactive (by simp [Event.Internal]))] at h
    rw [Session.react_of_ok host ht, carry_publish host (by simp), h]
    simp [Session.Announced, Session.publish, Session.told, statuses, Occurrence.status?,
      Status.rounds]
  | @submit i text hp _ =>
    have hrest : ∀ effect ∈ [Effect.appendMessage .user text, .validate i.rules text],
        ∀ status, effect ≠ .publishStatus status := by simp
    have hstate : (s.react host world (.submitted text s.state.prompts)).session.state =
        { s.state with phase := .validating text } := (Session.react_grows host ht world).state
    rw [announced_active_iff (by rw [hstate]; rfl), hstate, Session.react_of_ok host ht,
      Session.carry_cons_ok host rfl, Stage.after, statuses_append, carry_statuses host hrest,
      List.append_nil]
    simp only [Session.Announced, hp] at h
    exact h
  | _ => exact active_announced host ht (by simp [Event.Internal]) rfl rfl h world

end

/-! ## Failures -/

def Session.FailsLast (s : Session κ) (told : List Notice) : Prop :=
  (s.halted = false ∧ Calm told) ∨
    s.halted = true ∧ ∃ earlier message, told = earlier ++ [.failed message] ∧ Calm earlier

theorem Calm.append {a b : List Notice} (ha : Calm a) (hb : Calm b) : Calm (a ++ b) := by
  intro message hm
  rcases List.mem_append.mp hm with hm | hm
  · exact ha message hm
  · exact hb message hm

theorem Session.FailsLast.after {s : Session κ} {a b : List Notice} (h : s.FailsLast b)
    (ha : Calm a) : s.FailsLast (a ++ b) := by
  rcases h with ⟨hh, hb⟩ | ⟨hh, earlier, message, rfl, hb⟩
  · exact .inl ⟨hh, ha.append hb⟩
  · exact .inr ⟨hh, a ++ earlier, message, (List.append_assoc _ _ _).symm, ha.append hb⟩

theorem Session.FailsLast.last {s : Session κ} {told earlier later : List Notice} {message : String}
    (h : s.FailsLast told) (hp : earlier ++ .failed message :: later <+: told) : later = [] := by
  rcases h with ⟨_, hc⟩ | ⟨_, before, text, rfl, hc⟩
  · exact absurd (hp.subset (by simp)) (hc message)
  · rcases List.prefix_concat_iff.mp hp with he | hp
    · rcases List.eq_nil_or_concat later with hl | ⟨rest, last, rfl⟩
      · exact hl
      · have hsplit : (earlier ++ .failed message :: rest) ++ [last] =
            before ++ [.failed text] := by
          simpa using he
        have hbefore := List.append_inj_left' hsplit rfl
        exact absurd (by rw [← hbefore]; simp) (hc message)
    · exact absurd (hp.subset (by simp)) (hc message)

theorem perform_calm (host : Host κ W) (s : Session κ) (world : W) (effect : Effect κ) :
    Calm (notices (s.perform host world effect).history) := by
  cases hn : s.effectNotice? effect with
  | none =>
    have hnone : notices (s.perform host world effect).history = [] :=
      (Session.perform_asks host hn world).1.silent ⟨fun _ _ => rfl, fun _ => rfl⟩
    rw [hnone]
    exact fun _ => List.not_mem_nil
  | some notice =>
    rw [Session.perform_announces host hn]
    intro message hm
    have hm : Notice.failed message = notice := List.mem_singleton.mp hm
    subst hm
    cases effect <;> cases hn

theorem carry_failsLast (host : Host κ W) : ∀ (effects : List (Effect κ)) (event : Option Event)
    {s : Session κ} (world : W), s.halted = false →
      (Session.carry host effects event s world).session.FailsLast
        (notices (Session.carry host effects event s world).history)
  | [], event, s, world, hh => by
    obtain ⟨next, hc, _⟩ := Session.carry_nil host event s world
    rw [hc]
    exact .inl ⟨hh, fun _ => List.not_mem_nil⟩
  | effect :: effects, event, s, world, hh => by
    have hcalm := perform_calm host s world effect
    cases ho : (s.perform host world effect).outcome with
    | error failure =>
      rw [Session.carry_cons_error host ho, notices_append]
      exact .inr ⟨rfl, _, failure.message, rfl, hcalm⟩
    | ok answer =>
      have hh' : (s.perform host world effect).session.halted = false := by
        rw [Session.perform_halted]
        exact hh
      rw [Session.carry_cons_ok host ho, Stage.after, notices_append]
      exact (carry_failsLast host effects _ _ hh').after hcalm

/-! ## Conversations -/

namespace Conversation

structure Heard (c : Conversation κ W) : Prop where
  recorded : c.session.Recorded c.marks
  announced : c.session.Announced (statuses (occurrences c.marks))
  failsLast : c.session.FailsLast (notices (occurrences c.marks))

variable {host : Host κ W} {script : Script κ} {c c' : Conversation κ W}

theorem opened_heard (script : Script κ) (settings : Settings) (world : W)
    (requests : List Request) : (opened script settings world requests).Heard :=
  ⟨⟨rfl, rfl⟩, rfl, .inl ⟨rfl, fun _ => List.not_mem_nil⟩⟩

theorem Heard.retold (h : c.Heard) {marks : List (Mark κ)} (hm : marks <+: c.marks)
    {s : Session κ} (hs : s.Recorded marks) : s.RetoldBy marks where
  messages := hs.1
  answers := hs.2
  statuses := by
    obtain ⟨n, hn⟩ := h.announced.course
    exact ⟨n, ((hm.filterMap _).filterMap _).trans hn⟩
  failures earlier message later he := by
    have hp : notices (occurrences marks) <+: notices (occurrences c.marks) :=
      (hm.filterMap _).filterMap _
    rw [he] at hp
    exact h.failsLast.last hp

theorem Heard.throughout (h : c.Heard) {marks : List (Mark κ)} {moments : List (Moment κ)}
    (hm : c.marks = marks ++ moments.map Moment.mark)
    (hr : Throughout (fun before m => m.session.Recorded (before ++ [m.mark])) marks moments) :
    Throughout (fun before m => m.session.RetoldBy (before ++ [m.mark])) marks moments := by
  rintro before m later rfl
  refine h.retold ?_ (hr before m later rfl)
  rw [hm]
  exact ⟨later.map Moment.mark, by simp⟩

theorem returned_recorded {stage : Stage κ W} {marks : List (Mark κ)}
    (h : stage.session.Recorded (marks ++ stage.history.map .occurred)) :
    Throughout (fun before m => m.session.Recorded (before ++ [m.mark]))
        (marks ++ stage.history.map .occurred) stage.returnMoments ∧
      stage.session.Recorded (marks ++ stage.marks) := by
  unfold Stage.returnMoments Stage.marks
  cases stage.next with
  | again event => exact ⟨.nil, by simpa using h⟩
  | returns result =>
    have hr : stage.session.Recorded (marks ++ stage.history.map .occurred ++ [.returned result]) :=
      recorded_silent h rfl rfl
    exact ⟨.cons hr .nil, by rw [← List.append_assoc]; exact hr⟩

theorem taken_heard (h : c.Heard) {event : Event} {requests : List Request} {t : Transition κ}
    (hh : c.session.halted = false)
    (ht : transition c.session.script c.session.state event = .ok t) :
    (staged (c.session.react host c.world event) requests c.marks
      ((c.session.state, event) :: c.chronicle)).Heard ∧
      Throughout (fun before m => m.session.Recorded (before ++ [m.mark])) c.marks
        (Session.effectMoments host t.effects { c.session with state := t.state } c.world ++
          (c.session.react host c.world event).returnMoments) := by
  obtain ⟨hm, hr⟩ := recorded_keeps.effects host t.effects none c.world
    (s := { c.session with state := t.state }) h.recorded
  have ha := react_announced host ht hh h.announced c.world
  have hf := carry_failsLast host t.effects none c.world
    (s := { c.session with state := t.state }) hh
  rw [← Session.react_of_ok host ht] at hr hf
  obtain ⟨hm', hr'⟩ := returned_recorded hr
  refine ⟨⟨hr', ?_, ?_⟩, hm.append ?_⟩
  · simpa [staged] using ha
  · have hcalm : Calm (notices (occurrences c.marks)) := by
      rcases h.failsLast with ⟨_, hc⟩ | ⟨hh', _⟩
      · exact hc
      · rw [hh] at hh'
        cases hh'
    simpa [staged] using hf.after hcalm
  · rw [effectMoments_marks host _ none, ← Session.react_of_ok host ht]
    exact hm'

theorem scene_heard {moments : List (Moment κ)} (h : c.Heard) (hc : c.Scene host moments c') :
    c'.Heard ∧ Throughout (fun before m => m.session.RetoldBy (before ++ [m.mark])) c.marks
      moments := by
  have hm := hc.marks
  suffices c'.Heard ∧
      Throughout (fun before m => m.session.Recorded (before ++ [m.mark])) c.marks moments from
    ⟨this.1, this.1.throughout hm this.2⟩
  cases hc with
  | idle => exact ⟨h, .nil⟩
  | @declined event requests e he hd =>
    have hr : c.session.Recorded (c.marks ++ [.returned (.error e)]) :=
      recorded_silent h.recorded rfl rfl
    refine ⟨⟨hr, ?_, ?_⟩, .cons hr .nil⟩
    · simpa using h.announced
    · simpa using h.failsLast
  | taken he hh ht => exact taken_heard h hh ht

theorem after_heard (host : Host κ W) (script : Script κ) (settings : Settings) (world : W)
    (requests : List Request) (n : Nat) :
    ((opened script settings world requests).after host n).Heard ∧
      Throughout (fun before m => m.session.RetoldBy (before ++ [m.mark])) []
        ((opened script settings world requests).moments host n) :=
  after_throughout host (opened_heard script settings world requests)
    (fun _ _ _ => scene_heard) n

end Conversation

/-- **Notices.** At every moment of a conversation the messages are those told of, the answers are
those stored, the statuses told of have taken their course from waiting to active and on to the end,
and nothing is told of after a failure. -/
theorem notices_retell (host : Host κ W) (script : Script κ) (settings : Settings) (world : W)
    (requests : List Request) (n : Nat) :
    let c := Conversation.opened script settings world requests
    (c.after host n).marks = (c.moments host n).map Moment.mark ∧
      Throughout (fun before m => m.session.RetoldBy (before ++ [m.mark])) [] (c.moments host n) ∧
      (c.after host n).session.RetoldBy (c.after host n).marks := by
  intro c
  obtain ⟨h, hm⟩ := Conversation.after_heard host script settings world requests n
  exact ⟨Conversation.moments_marks host c n, hm, h.retold List.prefix_rfl h.recorded⟩

/-! ## The status told of last -/

def toldStatus (marks : List (Mark κ)) : Status :=
  (statuses (occurrences marks)).getLast?.getD .active

theorem last_rounds (n : Nat) : (Status.rounds n).getLast?.getD .active = .active := by
  cases n with
  | zero => rfl
  | succ n => simp [Status.rounds]

theorem Session.Announced.last {s : Session κ} {told : List Status} (h : s.Announced told) :
    told.getLast?.getD .active =
      if s.halted = true ∧ s.state.phase = .completed then .active else s.state.status := by
  unfold Session.Announced at h
  unfold State.status
  cases hp : s.state.phase with
  | awaitingInput =>
    simp only [hp] at h
    cases hn : s.state.prompts with
    | zero => simp [hn, Status.rounds] at h
    | succ n =>
      have hsplit : told ++ [.active] = (Status.rounds n ++ [.waiting]) ++ [.active] := by
        simpa [hn, Status.rounds] using h
      rw [List.append_inj_left' hsplit rfl]
      simp [Phase.status]
  | completed =>
    simp only [hp] at h
    cases hh : s.halted <;> simp [h, hh, last_rounds, Phase.status]
  | _ =>
    simp only [hp] at h
    simp [h, last_rounds, Phase.status]

/-- **Statuses at rest.** Whenever a request has returned, the status told of last is that of the
view, unless the script's own callback has failed at the end: then the view is that of a completed
conversation, and an active one has been told of last. -/
theorem statuses_at_rest {host : Host κ W} {script : Script κ} {settings : Settings} {world : W}
    {requests : List Request} {n : Nat} {c : Conversation κ W}
    (hc : (Conversation.opened script settings world requests).after host n = c)
    (hr : c.pending = none) :
    (toldStatus c.marks = c.session.published.status ↔
      ¬ (c.session.halted = true ∧ c.session.state.phase = .completed)) ∧
      (c.session.halted = true ∧ c.session.state.phase = .completed →
        toldStatus c.marks = .active ∧ c.session.published.status = .completed) := by
  obtain ⟨hw, -⟩ := Conversation.after_watched host script settings world requests n
  obtain ⟨hh, -⟩ := Conversation.after_heard host script settings world requests n
  rw [hc] at hw hh
  have hview : c.session.published.status = c.session.state.status := by
    rw [hw.rests hr]
    rfl
  have htold : toldStatus c.marks =
      if c.session.halted = true ∧ c.session.state.phase = .completed then .active
        else c.session.state.status := hh.announced.last
  rw [hview, htold]
  by_cases h : c.session.halted = true ∧ c.session.state.phase = .completed
  · have hs : c.session.state.status = .completed := by
      rw [State.status, h.2]
      rfl
    simp [h, hs]
  · simp [h]

def silent : Script Unit := ⟨[], some (), rfl⟩

/-- The callback for the end fails in an empty script. -/
theorem completion_untold :
    let c := (Conversation.opened silent .instant 0 [.start]).after (failingAt 0) 1
    c.pending = none ∧ toldStatus c.marks ≠ c.session.published.status :=
  ⟨rfl, by decide⟩

theorem waiting_told :
    let c := (Conversation.opened survey .instant 0 [.start]).after (failingAt 9) 3
    c.pending = none ∧ c.session.published.status = .waiting ∧
      toldStatus c.marks = c.session.published.status := by
  intro c
  have hr : c.pending = none := rfl
  have hlive : ¬ (c.session.halted = true ∧ c.session.state.phase = .completed) := by decide
  exact ⟨hr, rfl, (statuses_at_rest rfl hr).1.mpr hlive⟩

end Dialogue
