import Dialogue.Proofs.Moments

/-!
# Views

What a watcher sees is never misleading. Between two requests the view shown is that of the session.
While a request is under way it may lag behind in its position, but it has all that has been said
and answered, and the conversation is active to it whenever a callback is entered.
-/

namespace Dialogue

variable {κ W : Type}

/-! ## The view shown last -/

def View.blank : View := ⟨.active, .start, 0, [], .empty, false⟩

def Mark.shows (view : View) : Mark κ → View
  | .occurred (.published later) => later
  | _ => view

def shown (marks : List (Mark κ)) : View :=
  marks.foldl Mark.shows .blank

theorem shown_append (a b : List (Mark κ)) : shown (a ++ b) = b.foldl Mark.shows (shown a) :=
  List.foldl_append

/-- All of the view but the position is that of the session, which is active to a watcher. -/
structure Session.Lags (s : Session κ) : Prop where
  status : s.published.status = .active
  prompt : s.published.prompt = s.state.prompts
  transcript : s.published.transcript = s.transcript
  answers : s.published.answers = s.answers
  halted : s.published.halted = s.halted

structure Moment.Shown (before : List (Mark κ)) (m : Moment κ) : Prop where
  published : shown (before ++ [m.mark]) = m.session.published
  called : ∀ call reply, m.mark = .occurred (.called call reply) → m.session.Lags
  returned : ∀ result, m.mark = .returned result → m.session.published = m.session.view

namespace Session

variable {s : Session κ}

theorem lags_of_view (h : s.published = s.view) (ha : s.state.status = .active) : s.Lags := by
  constructor <;> rw [h]
  · exact ha
  · rfl
  · rfl
  · rfl
  · rfl

theorem lags_publish (ha : s.state.status = .active) : s.publish.Lags :=
  lags_of_view rfl ha

end Session

open Session

/-! ## Effects -/

def Session.Watched (marks : List (Mark κ)) (s : Session κ) : Prop :=
  shown marks = s.published

section
variable {marks : List (Mark κ)} {s : Session κ}

theorem asks_shown (hw : s.Watched marks) (hl : s.Lags) {o : Occurrence κ}
    (ho : o.isAsking = true) :
    Moment.Shown marks ⟨.occurred o, s⟩ ∧ s.Watched (marks ++ [.occurred o]) := by
  have hsame : shown (marks ++ [.occurred o]) = s.published := by
    rw [shown_append, hw]
    cases o with
    | published view => cases ho
    | _ => rfl
  exact ⟨⟨hsame, fun _ _ _ => hl, nofun⟩, hsame⟩

theorem tells_shown (hw : s.Watched marks) (notice : Notice) :
    let told := Mark.occurred (.notified notice)
    let view := Mark.occurred (.published (s.noting notice).view)
    Moment.Shown marks ⟨told, { s.noting notice with published := s.published }⟩ ∧
      Moment.Shown (marks ++ [told]) ⟨view, (s.noting notice).publish⟩ ∧
        (s.noting notice).publish.Watched (marks ++ [told, view]) := by
  have hnext : (s.noting notice).publish.Watched (marks ++ [.occurred (.notified notice),
      .occurred (.published (s.noting notice).view)]) := by
    rw [Watched, shown_append]
    rfl
  refine ⟨⟨?_, nofun, nofun⟩, ⟨?_, nofun, nofun⟩, hnext⟩
  · rw [shown_append, hw]
    rfl
  · rw [List.append_assoc]
    exact hnext

end

theorem lagging_keeps : Keeps (κ := κ)
    (fun marks s => s.Watched marks ∧ s.Lags ∧ s.state.status = .active) Moment.Shown where
  asks := by
    rintro marks s o ⟨hw, hl, ha⟩ ho
    obtain ⟨hp, hw⟩ := asks_shown hw hl ho
    exact ⟨hp, hw, hl, ha⟩
  tells := by
    rintro marks s notice ⟨hw, _, ha⟩
    obtain ⟨hn, hp, hw⟩ := tells_shown hw notice
    rw [← noting_state s notice] at ha
    exact ⟨hn, hp, hw, lags_publish ha, ha⟩

/-- Where a stage leaves the view: it lags as long as the request goes on. -/
def Stage.Viewed (stage : Stage κ W) : Prop :=
  match stage.next with
  | .again _ => stage.session.Lags
  | .returns _ => stage.session.published = stage.session.view

structure Stage.Seen (stage : Stage κ W) (marks : List (Mark κ)) (moments : List (Moment κ)) :
    Prop where
  shown : Throughout Moment.Shown marks moments
  watched : stage.session.Watched (marks ++ stage.history.map .occurred)
  viewed : stage.Viewed

section
variable {host : Host κ W} {marks : List (Mark κ)}

theorem carry_failed_view : ∀ {effects : List (Effect κ)} {event : Option Event} {s : Session κ}
    {world : W} {e : CallError}, (carry host effects event s world).next = .returns (.error e) →
      (carry host effects event s world).session.published =
        (carry host effects event s world).session.view
  | [], event, s, world, e, h => by
    obtain ⟨next, hc, hne⟩ := carry_nil host event s world
    rw [hc] at h
    exact absurd h (hne e)
  | effect :: effects, event, s, world, e, h => by
    cases ho : (s.perform host world effect).outcome with
    | error failure =>
      rw [carry_cons_error host ho]
      rfl
    | ok answer =>
      rw [carry_cons_ok host ho] at h ⊢
      exact carry_failed_view h

theorem active_viewed {s : Session κ} {event : Event} {t : Transition κ}
    (ht : transition s.script s.state event = .ok t) (ha : t.state.status = .active) (world : W)
    (hl : (s.react host world event).session.Lags) : (s.react host world event).Viewed := by
  unfold Stage.Viewed
  rcases react_next host ht world with ⟨_, failure, hn⟩ | ⟨_, ⟨later, hn, _⟩ | ⟨_, hp | hp⟩⟩
  · rw [hn]
    rw [react_of_ok host ht] at hn ⊢
    exact carry_failed_view hn
  · rw [hn]
    exact hl
  · simp [State.status, Phase.status, hp] at ha
  · simp [State.status, Phase.status, hp] at ha

theorem rest_seen {s : Session κ} {moments : List (Moment κ)} {stage : Stage κ W}
    {asked : List (Occurrence κ)} {notice : Notice} (h : ComesToRest s moments stage asked notice)
    (hw : s.Watched marks) (hl : asked = [] ∨ s.Lags) : stage.Seen marks moments := by
  obtain ⟨hm, hw⟩ : Throughout Moment.Shown marks (asked.map (s.moment s)) ∧
      s.Watched (marks ++ asked.map .occurred) := by
    rcases hl with rfl | hl
    · exact ⟨.nil, by simpa using hw⟩
    · exact throughout_asking (J := s.Watched) (fun hw ho => asks_shown hw hl ho) h.asking hw
  obtain ⟨hn, hv, hw⟩ := tells_shown hw notice
  refine ⟨?_, ?_, ?_⟩
  · rw [h.moments]
    refine hm.append ?_
    rw [List.map_map]
    exact throughout_telling hn hv
  · rw [h.history, h.session, List.map_append, ← List.append_assoc]
    exact hw
  · unfold Stage.Viewed
    rw [h.session]
    rcases h.next with ⟨_, hnext⟩ | ⟨_, failure, _, hnext⟩
    · rw [hnext]
      rfl
    · rw [hnext]
      rfl

section
variable {s : Session κ} {event : Event} {t : Transition κ}

/-- The view may have another status before a submission, but it is active before all else. -/
theorem submit_seen (ht : transition s.script s.state event = .ok t) (hw : s.Watched marks)
    (ha : t.state.status = .active) {effects : List (Effect κ)}
    (he : t.effects = .publishStatus .active :: effects) (world : W) :
    (s.react host world event).Seen marks
      (effectMoments host t.effects { s with state := t.state } world) := by
  have hw' : Session.Watched marks { s with state := t.state } := hw
  obtain ⟨hn, hv, hw⟩ := tells_shown hw' (.statusChanged .active)
  obtain ⟨hm, hw, hl, _⟩ := lagging_keeps.effects host effects none world
    ⟨hw, lags_publish ha, ha⟩
  have hreact := react_of_ok host ht world
  rw [he, carry_cons_ok host rfl] at hreact
  rw [he, effectMoments_cons_ok rfl]
  refine ⟨.append (throughout_telling hn hv) ?_, ?_, ?_⟩
  · rw [List.map_map]
    exact hm
  · rw [hreact, Stage.after, List.map_append, ← List.append_assoc]
    exact hw
  · refine active_viewed ht ha world ?_
    rw [hreact]
    exact hl

theorem active_seen (ht : transition s.script s.state event = .ok t) (hw : s.Watched marks)
    (hl : s.Lags) (ha : t.state.status = .active) (hp : t.state.prompts = s.state.prompts)
    (world : W) : (s.react host world event).Seen marks
      (effectMoments host t.effects { s with state := t.state } world) := by
  have hl' : Session.Lags { s with state := t.state } :=
    ⟨hl.status, hl.prompt.trans hp.symm, hl.transcript, hl.answers, hl.halted⟩
  have hw' : Session.Watched marks { s with state := t.state } := hw
  obtain ⟨hm, hw, hl, _⟩ := lagging_keeps.effects host t.effects none world ⟨hw', hl', ha⟩
  rw [← react_of_ok host ht] at hw hl
  exact ⟨hm, hw, active_viewed ht ha world hl⟩

theorem react_seen (ht : transition s.script s.state event = .ok t) (hw : s.Watched marks)
    (hv : s.published = s.view ∨ s.Lags) (world : W) :
    (s.react host world event).Seen marks
      (effectMoments host t.effects { s with state := t.state } world) := by
  have hlag (hi : event.Internal) : s.Lags :=
    hv.elim (lags_of_view · (moves_active (transition_moves ht) hi)) id
  cases transition_moves ht with
  | finish =>
    have hl := hlag (by simp [Event.Internal])
    have hl' : Session.Lags { s with state := { s.state with phase := .completed } } :=
      ⟨hl.status, hl.prompt, hl.transcript, hl.answers, hl.halted⟩
    obtain ⟨asked, notice, hr⟩ := finish_rests host
      (s := { s with state := { s.state with phase := .completed } }) rfl world
    rw [react_of_ok host ht]
    exact rest_seen hr hw (.inr hl')
  | present =>
    have hr := publish_rests host
      (s := { s with state := ⟨s.state.position, .awaitingInput, s.state.prompts + 1⟩ })
      (by simp) world
    rw [react_of_ok host ht]
    exact rest_seen hr hw (.inl rfl)
  | submit => exact submit_seen ht hw rfl rfl world
  | _ => exact active_seen ht hw (hlag (by simp [Event.Internal])) rfl rfl world

end

end

/-! ## Conversations -/

theorem returned_shown {marks : List (Mark κ)} {s : Session κ} (hw : s.Watched marks)
    (result : CallResult) (hv : s.published = s.view) :
    Moment.Shown marks ⟨.returned result, s⟩ ∧ s.Watched (marks ++ [.returned result]) := by
  have hsame : s.Watched (marks ++ [.returned result]) := by
    rw [Session.Watched, shown_append, hw]
    rfl
  exact ⟨⟨hsame, nofun, fun _ _ => hv⟩, hsame⟩

theorem Stage.Seen.ends {stage : Stage κ W} {marks : List (Mark κ)} {moments : List (Moment κ)}
    (h : stage.Seen marks moments) :
    Throughout Moment.Shown (marks ++ stage.history.map .occurred) stage.returnMoments ∧
      stage.session.Watched (marks ++ stage.marks) := by
  have hw := h.watched
  have hv := h.viewed
  unfold Stage.Viewed at hv
  unfold Stage.returnMoments Stage.marks
  cases hn : stage.next with
  | again event => exact ⟨.nil, by simpa using hw⟩
  | returns result =>
    rw [hn] at hv
    obtain ⟨hm, hw⟩ := returned_shown hw result hv
    exact ⟨.cons hm .nil, by rw [← List.append_assoc]; exact hw⟩

namespace Conversation

structure Watched (c : Conversation κ W) : Prop where
  shown : c.session.Watched c.marks
  lags : c.pending ≠ none → c.session.Lags
  rests : c.pending = none → c.session.published = c.session.view

variable {host : Host κ W} {script : Script κ} {c c' : Conversation κ W}

theorem opened_watched (script : Script κ) (settings : Settings) (world : W)
    (requests : List Request) : (opened script settings world requests).Watched :=
  ⟨rfl, fun h => absurd rfl h, fun _ => rfl⟩

theorem scene_watched {moments : List (Moment κ)} (hg : c.Going script) (h : c.Watched)
    (hc : c.Scene host moments c') : c'.Watched ∧ Throughout Moment.Shown c.marks moments := by
  cases hc with
  | idle => exact ⟨h, .nil⟩
  | @declined event requests e he hd =>
    have hv := h.rests (hg.idle_of_declined he hd)
    obtain ⟨hm, hw⟩ := returned_shown h.shown (.error e) hv
    exact ⟨⟨hw, fun h => absurd rfl h, fun _ => hv⟩, .cons hm .nil⟩
  | @taken event requests t he hh ht =>
    have hv : c.session.published = c.session.view ∨ c.session.Lags := by
      cases hp : c.pending with
      | none => exact .inl (h.rests hp)
      | some event => exact .inr (h.lags (by simp [hp]))
    have hs : (c.session.react host c.world event).Seen c.marks _ :=
      react_seen ht h.shown hv c.world
    obtain ⟨hm, hw⟩ := hs.ends
    have hview := hs.viewed
    unfold Stage.Viewed at hview
    refine ⟨⟨hw, fun hp => ?_, fun hp => ?_⟩, hs.shown.append ?_⟩
    · cases hn : (c.session.react host c.world event).next with
      | again later => rw [hn] at hview; exact hview
      | returns result => exact absurd (by simp [staged, Stage.pending?, hn]) hp
    · cases hn : (c.session.react host c.world event).next with
      | again later => simp [staged, Stage.pending?, hn] at hp
      | returns result => rw [hn] at hview; exact hview
    · rw [effectMoments_marks host _ none, ← react_of_ok host ht]
      exact hm

theorem after_watched (host : Host κ W) (script : Script κ) (settings : Settings) (world : W)
    (requests : List Request) (n : Nat) :
    ((opened script settings world requests).after host n).Watched ∧
      Throughout Moment.Shown [] ((opened script settings world requests).moments host n) := by
  have hopened := And.intro (opened_going script settings world requests)
    (opened_watched script settings world requests)
  have hturn (c c' : Conversation κ W) (moments : List (Moment κ))
      (h : c.Going script ∧ c.Watched) (hc : c.Scene host moments c') :
      (c'.Going script ∧ c'.Watched) ∧ Throughout Moment.Shown c.marks moments := by
    obtain ⟨hw, hm⟩ := scene_watched h.1 h.2 hc
    exact ⟨⟨scene_going h.1 hc, hw⟩, hm⟩
  obtain ⟨⟨-, hw⟩, hm⟩ := after_throughout host hopened (fun c m c' => hturn c c' m) n
  exact ⟨hw, hm⟩

end Conversation

/-- **Views.** Whatever the client asks for, and whatever comes of the callbacks: when a callback is
entered, the view shown last has all that has been said and answered, the prompt and whether the
conversation is halted, and is active; when a request returns, the view shown last is that of the
session. -/
theorem views_never_mislead (host : Host κ W) (script : Script κ) (settings : Settings) (world : W)
    (requests : List Request) (n : Nat) :
    let c := Conversation.opened script settings world requests
    (c.after host n).marks = (c.moments host n).map Moment.mark ∧
      Throughout Moment.Shown [] (c.moments host n) := by
  intro c
  exact ⟨Conversation.moments_marks host c n,
    (Conversation.after_watched host script settings world requests n).2⟩

end Dialogue
