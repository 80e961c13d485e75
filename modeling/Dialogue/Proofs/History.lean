import Dialogue.Proofs.Consulting
import Dialogue.Proofs.Store
import Dialogue.Session.Basic

/-!
# Histories

What can be read off a history: the messages, the answers stored, the views, and the questions put
to rules. A session grows by a history when its transcript and its answers are what they were,
followed by what the history tells; performing effects makes it grow by what occurs.
-/

namespace Dialogue

variable {κ W α β : Type}

/-! ## Readings -/

def Message.userText? (m : Message) : Option String :=
  if m.speaker = .user then some m.text else none

namespace Occurrence

def message? : Occurrence κ → Option Message
  | .notified (.message message) => some message
  | _ => none

def userText? (o : Occurrence κ) : Option String :=
  o.message?.bind Message.userText?

def answer? : Occurrence κ → Option (String × String)
  | .notified (.answerStored name value) => some (name, value)
  | _ => none

def view? : Occurrence κ → Option View
  | .published view => some view
  | _ => none

def check? : Occurrence κ → Option (Call κ)
  | .called call _ => if call.role = .validation then some call else none
  | _ => none

def isAsking : Occurrence κ → Bool
  | .called _ _ => true
  | .slept _ => true
  | _ => false

end Occurrence

def messages (history : List (Occurrence κ)) : List Message :=
  history.filterMap Occurrence.message?

def userTexts (history : List (Occurrence κ)) : List String :=
  history.filterMap Occurrence.userText?

def stored (history : List (Occurrence κ)) : List (String × String) :=
  history.filterMap Occurrence.answer?

def views (history : List (Occurrence κ)) : List View :=
  history.filterMap Occurrence.view?

def checks (history : List (Occurrence κ)) : List (Call κ) :=
  history.filterMap Occurrence.check?

section
variable (a b : List (Occurrence κ))

@[simp] theorem messages_append : messages (a ++ b) = messages a ++ messages b :=
  List.filterMap_append

@[simp] theorem userTexts_append : userTexts (a ++ b) = userTexts a ++ userTexts b :=
  List.filterMap_append

@[simp] theorem stored_append : stored (a ++ b) = stored a ++ stored b :=
  List.filterMap_append

@[simp] theorem views_append : views (a ++ b) = views a ++ views b :=
  List.filterMap_append

@[simp] theorem checks_append : checks (a ++ b) = checks a ++ checks b :=
  List.filterMap_append

theorem userTexts_eq : userTexts a = (messages a).filterMap Message.userText? :=
  List.filterMap_filterMap.symm

theorem mem_views {v : View} : v ∈ views a ↔ .published v ∈ a := by
  unfold views
  rw [List.mem_filterMap]
  constructor
  · rintro ⟨o, ho, hv⟩
    cases o with
    | published view => cases hv; exact ho
    | _ => cases hv
  · intro h
    exact ⟨_, h, rfl⟩

end

/-! ## Consulting the host -/

def Asking (history : List (Occurrence κ)) : Prop :=
  ∀ o ∈ history, o.isAsking = true

/-- A reading of what observers get; what the host is asked is left out. -/
structure Outward (read : Occurrence κ → Option β) : Prop where
  called : ∀ call value, read (.called call value) = none
  slept : ∀ millis, read (.slept millis) = none

theorem Outward.asking {read : Occurrence κ → Option β} (hr : Outward read) {o : Occurrence κ}
    (h : o.isAsking = true) : read o = none := by
  cases o with
  | called call value => exact hr.called call value
  | slept millis => exact hr.slept millis
  | _ => cases h

section
variable {history : List (Occurrence κ)}

theorem Asking.silent (h : Asking history) {read : Occurrence κ → Option β} (hr : Outward read) :
    history.filterMap read = [] :=
  List.filterMap_eq_nil_iff.mpr fun o ho => hr.asking (h o ho)

theorem Asking.no_messages (h : Asking history) : messages history = [] :=
  h.silent ⟨fun _ _ => rfl, fun _ => rfl⟩

theorem Asking.no_texts (h : Asking history) : userTexts history = [] :=
  h.silent ⟨fun _ _ => rfl, fun _ => rfl⟩

theorem Asking.no_answers (h : Asking history) : stored history = [] :=
  h.silent ⟨fun _ _ => rfl, fun _ => rfl⟩

theorem Asking.no_views (h : Asking history) : views history = [] :=
  h.silent ⟨fun _ _ => rfl, fun _ => rfl⟩

end

theorem consultFor_asking (call : Call κ) (record : α → Value) (reply : Reply α) (millis : Nat)
    (world : W) : Asking (consultFor call record reply millis world).history := by
  simp [consultFor, Asking, Occurrence.isAsking]

theorem asking_closed :
    Consulted.Closed (fun _ _ => True) fun α (c : Consulted κ W α) => Asking c.history :=
  closed_forall (fun _ _ _ => rfl) fun _ => rfl

section
variable (host : Host κ W)

theorem consult_asking (call : Call κ) (record : α → Value) (answer : Reply α × W) :
    Asking (consult call record answer).history :=
  asking_closed.called _ _ _ trivial

theorem checkRules_asking (text : String) (answers : Answers) (rules : List (Rule κ)) (world : W) :
    Asking (checkRules host text answers rules world).history :=
  asking_closed.rules host text answers (fun _ _ _ _ => trivial) (fun _ _ _ _ => trivial) world

theorem settleOutput_asking (pause : Nat) (complete : Option κ) (answers : Answers) (world : W) :
    Asking (settleOutput host pause complete answers world).history := by
  cases complete with
  | none => simp [settleOutput, Asking, Occurrence.isAsking]
  | some callback => exact consultFor_asking _ _ _ _ _

end

/-! ## Telling observers -/

namespace Session

def noting (s : Session κ) : Notice → Session κ
  | .message message => { s with transcript := s.transcript ++ [message] }
  | .statusChanged _ => s
  | .answerStored name value => { s with answers := s.answers.push name value }
  | .failed _ => s.halt

@[simp] theorem noting_state (s : Session κ) (notice : Notice) :
    (s.noting notice).state = s.state := by
  cases notice <;> rfl

def effectNotice? (s : Session κ) : Effect κ → Option Notice
  | .appendMessage speaker text => some (.message (s.transcript.next speaker text))
  | .storeAnswer name value => some (.answerStored name value)
  | .publishStatus status => some (.statusChanged status)
  | _ => none

section
variable (host : Host κ W) {s : Session κ} {effect : Effect κ}

theorem perform_announces {notice : Notice} (h : s.effectNotice? effect = some notice) (world : W) :
    s.perform host world effect = announce (s.noting notice) world notice := by
  cases effect with
  | appendMessage speaker text => cases h; rfl
  | storeAnswer name value => cases h; rfl
  | publishStatus status => cases h; rfl
  | _ => cases h

theorem perform_asks (h : s.effectNotice? effect = none) (world : W) :
    Asking (s.perform host world effect).history ∧
      (s.perform host world effect).session = s := by
  cases effect with
  | resolveText wording =>
    cases wording with
    | none => exact ⟨nofun, rfl⟩
    | some wording => exact ⟨asking_closed.wording host _ (fun _ _ => trivial) _, rfl⟩
  | settleOutput wait complete => exact ⟨settleOutput_asking host _ _ _ _, rfl⟩
  | evaluateCondition condition => exact ⟨consult_asking _ _ _, rfl⟩
  | validate rules text => exact ⟨checkRules_asking host _ _ _ _, rfl⟩
  | runHook callback step => exact ⟨consult_asking _ _ _, rfl⟩
  | runFormHook =>
    unfold perform
    cases s.script.complete with
    | none => exact ⟨nofun, rfl⟩
    | some callback => exact ⟨consult_asking _ _ _, rfl⟩
  | _ => cases h

/-- A reading of notices has nothing of an effect, unless there is something in the one notice that
the effect comes with. -/
theorem perform_silent {read : Occurrence κ → Option β} (hr : Outward read)
    (hview : ∀ view, read (.published view) = none)
    (hmessage : ∀ speaker text, effect = .appendMessage speaker text →
      ∀ number, read (.notified (.message ⟨number, speaker, text⟩)) = none)
    (hanswer : ∀ name value, effect = .storeAnswer name value →
      read (.notified (.answerStored name value)) = none)
    (hstatus : ∀ status, effect = .publishStatus status →
      read (.notified (.statusChanged status)) = none) (world : W) :
    (s.perform host world effect).history.filterMap read = [] := by
  cases hn : s.effectNotice? effect with
  | none => exact (perform_asks host hn world).1.silent hr
  | some notice =>
    have hnotice : read (.notified notice) = none := by
      cases effect with
      | appendMessage speaker text => cases hn; exact hmessage _ _ rfl _
      | storeAnswer name value => cases hn; exact hanswer _ _ rfl
      | publishStatus status => cases hn; exact hstatus _ rfl
      | _ => cases hn
    rw [perform_announces host hn]
    show ((s.noting notice).told notice).filterMap read = []
    rw [told, List.filterMap_cons_none hnotice, List.filterMap_cons_none (hview _)]
    rfl

end

end Session

/-! ## Growing -/

/-- All changes of a session that a history tells of, while the machine stays in its state. -/
structure Session.Grows (s : Session κ) (history : List (Occurrence κ)) (later : Session κ) :
    Prop where
  script : later.script = s.script
  settings : later.settings = s.settings
  state : later.state = s.state
  transcript : later.transcript = s.transcript ++ messages history
  answers : later.answers = s.answers.pushAll (stored history)
  views : ∀ v ∈ views history, v.status = s.state.status ∧ v.position = s.state.position ∧
    v.prompt = s.state.prompts

namespace Session

theorem grows_of_asking {s : Session κ} {history : List (Occurrence κ)} (h : Asking history) :
    s.Grows history s := by
  refine ⟨rfl, rfl, rfl, ?_, ?_, ?_⟩
  · rw [h.no_messages, List.append_nil]
  · rw [h.no_answers]
    rfl
  · rw [h.no_views]
    exact nofun

theorem Grows.trans {s t u : Session κ} {a b : List (Occurrence κ)} (h : s.Grows a t)
    (h' : t.Grows b u) : s.Grows (a ++ b) u := by
  refine ⟨h'.script.trans h.script, h'.settings.trans h.settings, h'.state.trans h.state,
    ?_, ?_, ?_⟩
  · rw [h'.transcript, h.transcript, messages_append, List.append_assoc]
  · rw [h'.answers, h.answers, stored_append, Answers.pushAll, Answers.pushAll, Answers.pushAll,
      List.foldl_append]
  · intro v hv
    rw [views_append] at hv
    rcases List.mem_append.mp hv with hv | hv
    · exact h.views v hv
    · rw [← h.state]
      exact h'.views v hv

theorem told_grows (s : Session κ) (notice : Notice) :
    s.Grows ((s.noting notice).told notice) (s.noting notice).publish := by
  have hviews : ∀ v ∈ views ((s.noting notice).told notice), v.status = s.state.status ∧
      v.position = s.state.position ∧ v.prompt = s.state.prompts := by
    intro v hv
    cases (List.mem_singleton.mp hv : v = _)
    cases notice <;> exact ⟨rfl, rfl, rfl⟩
  cases notice with
  | message message => exact ⟨rfl, rfl, rfl, rfl, rfl, hviews⟩
  | statusChanged status => exact ⟨rfl, rfl, rfl, (List.append_nil _).symm, rfl, hviews⟩
  | answerStored name value => exact ⟨rfl, rfl, rfl, (List.append_nil _).symm, rfl, hviews⟩
  | failed message => exact ⟨rfl, rfl, rfl, (List.append_nil _).symm, rfl, hviews⟩

theorem perform_grows (host : Host κ W) (s : Session κ) (world : W) (effect : Effect κ) :
    s.Grows (s.perform host world effect).history (s.perform host world effect).session := by
  cases hn : s.effectNotice? effect with
  | none =>
    obtain ⟨ha, hs⟩ := perform_asks host hn world
    rw [hs]
    exact grows_of_asking ha
  | some notice =>
    rw [perform_announces host hn]
    exact s.told_grows notice

end Session

end Dialogue
