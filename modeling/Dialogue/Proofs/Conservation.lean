import Dialogue.Proofs.Conversation

/-!
# Conservation

What is said and stored in a conversation is what its events say and accept, whatever becomes of
their other effects: messages and answers come first, and only after them can a callback fail. So
state, transcript and store are accounts of one chronicle, and they agree.
-/

namespace Dialogue

variable {κ W : Type}

/-! ## What a stage adds -/

theorem moves_unspoken {script : Script κ} {s : State} {event : Event} {t : Transition κ}
    (h : Moves script s event t) (hs : event.spoken? = none) :
    ∀ effect ∈ t.effects, ∀ speaker text, effect ≠ .appendMessage speaker text := by
  intro effect he
  cases moves_has h effect he with
  | say => cases hs
  | hear => cases hs
  | refuse => cases hs
  | _ => exact nofun

namespace Session

section
variable (host : Host κ W)

theorem perform_messages {effect : Effect κ}
    (h : ∀ speaker text, effect ≠ .appendMessage speaker text) (s : Session κ) (world : W) :
    messages (s.perform host world effect).history = [] :=
  perform_silent host ⟨fun _ _ => rfl, fun _ => rfl⟩ (fun _ => rfl)
    (fun speaker text he _ => absurd he (h speaker text)) (fun _ _ _ => rfl) (fun _ _ => rfl) world

theorem carry_unspoken {effects : List (Effect κ)}
    (h : ∀ effect ∈ effects, ∀ speaker text, effect ≠ .appendMessage speaker text)
    (event : Option Event) (s : Session κ) (world : W) :
    (carry host effects event s world).session.transcript = s.transcript := by
  have hsilent : messages (carry host effects event s world).history = [] :=
    carry_silent host (fun _ _ => rfl) (fun e he => perform_messages host (h e he)) event s world
  rw [(carry_grows host effects event s world).transcript, hsilent, List.append_nil]

section
variable {s : Session κ} {event : Event} {t : Transition κ}

/-- A message is said before anything that can fail. -/
theorem react_transcript (h : transition s.script s.state event = .ok t) (world : W) :
    (s.react host world event).session.transcript = s.transcript.add? event.spoken? := by
  have hm := transition_moves h
  rw [react_of_ok host h]
  cases hs : event.spoken? with
  | none => exact carry_unspoken host (moves_unspoken hm hs) none _ world
  | some said =>
    cases hm with
    | say =>
      cases hs
      rw [carry_cons_ok host rfl]
      exact carry_unspoken host (by simp) _ _ _
    | submit =>
      cases hs
      rw [carry_cons_ok host rfl, carry_cons_ok host rfl]
      exact carry_unspoken host (by simp) _ _ _
    | refuse =>
      cases hs
      rw [carry_cons_ok host rfl]
      exact carry_unspoken host (by simp) _ _ _
    | _ => cases hs

theorem react_answers (h : transition s.script s.state event = .ok t)
    (hv : event ≠ .validationPassed) (world : W) :
    (s.react host world event).session.answers = s.answers := by
  rw [(react_grows host h world).answers, react_stored host h hv]
  rfl

theorem react_answers_accept {i : Input κ} {text : String} (hp : s.state.phase = .validating text)
    (hs : s.script.stepAt? s.state.position = some (.input i)) (world : W) :
    (s.react host world .validationPassed).session.answers = s.answers.push i.name text := by
  have ht := moves_transition (Moves.accept hp hs)
  rw [(react_grows host ht world).answers, react_accept host hp hs]
  rfl

end

end

end Session

/-! ## The accounts of a conversation -/

namespace Conversation

structure Kept (script : Script κ) (c : Conversation κ W) : Prop where
  same : c.session.script = script
  chronicle : Chronicle.To script c.chronicle c.session.state
  transcript : c.session.transcript = c.chronicle.transcript
  answers : c.session.answers = Answers.ofPushes (c.chronicle.accepted script)

section
variable {host : Host κ W} {script : Script κ} {c c' : Conversation κ W}

theorem opened_kept (script : Script κ) (settings : Settings) (world : W)
    (requests : List Request) : (opened script settings world requests).Kept script :=
  ⟨rfl, .nil, rfl, rfl⟩

theorem taken_transcript (h : c.Kept script) {event : Event} {t : Transition κ}
    (ht : transition script c.session.state event = .ok t) :
    (c.session.react host c.world event).session.transcript =
      Chronicle.transcript ((c.session.state, event) :: c.chronicle) := by
  rw [Session.react_transcript host (h.same ▸ ht), h.transcript, Chronicle.transcript_cons]

theorem taken_answers (h : c.Kept script) {event : Event} {t : Transition κ}
    (ht : transition script c.session.state event = .ok t) :
    (c.session.react host c.world event).session.answers =
      Answers.ofPushes (Chronicle.accepted script ((c.session.state, event) :: c.chronicle)) := by
  have hs := h.same
  by_cases hv : event = .validationPassed
  · subst hv
    cases transition_moves ht with
    | @accept i text hp hi =>
      rw [Session.react_answers_accept host hp (hs ▸ hi), h.chronicle.accepted_passed hp hi,
        Answers.ofPushes_snoc, h.answers]
  · rw [Session.react_answers host (hs ▸ ht) hv, Chronicle.accepted_cons hv, h.answers]

theorem turn_kept (h : c.Kept script) (ht : c.Turn host c') : c'.Kept script := by
  cases ht with
  | idle => exact h
  | declined => exact ⟨h.same, h.chronicle, h.transcript, h.answers⟩
  | @taken event requests t _ _ ht =>
    have hgrows := Session.react_grows host ht c.world
    have hstate : (c.session.react host c.world event).session.state = t.state := hgrows.state
    have ht' : transition script c.session.state event = .ok t := h.same ▸ ht
    refine ⟨hgrows.script.trans h.same, ?_, taken_transcript h ht', taken_answers h ht'⟩
    exact hstate ▸ h.chronicle.cons ht'

theorem after_kept (h : c.Kept script) (n : Nat) : (c.after host n).Kept script :=
  after_induction h (fun _ _ => turn_kept) n

end

/-! ## The ledger -/

/-- What was accepted is what the user has said, in part and in the same order. -/
theorem accepted_sublist (script : Script κ) (chronicle : Chronicle) :
    ((chronicle.accepted script).map Prod.snd).Sublist
      (chronicle.transcript.filterMap Message.userText?) := by
  fun_induction Chronicle.accepted script chronicle with
  | case1 before s text turn c i hi ih =>
    simpa [Chronicle.transcript, Event.spoken?, Transcript.add?, Transcript.add,
      Transcript.next, Message.userText?] using ih.append_right [text]
  | case2 before s text turn c hi ih =>
    have hp : Chronicle.transcript c <+: Chronicle.transcript ((s, .submitted text turn) :: c) :=
      Chronicle.transcript_prefix _ _ c
    exact ih.trans (hp.sublist.filterMap _)
  | case3 e c hne ih => exact ih.trans ((Chronicle.transcript_prefix e.1 e.2 c).sublist.filterMap _)
  | case4 => exact List.Sublist.refl _

/-- The ledger of a conversation: prompts are answered or open, what the user has said is stored,
refused or still with its rules, and what the bot has said is the text of an output or why an
answer was refused. -/
structure Balanced (script : Script κ) (c : Conversation κ W) : Prop where
  run : Chronicle.To script c.chronicle c.session.state
  prompts : c.session.state.prompts =
    c.session.transcript.count .user + if c.session.state.phase = .awaitingInput then 1 else 0
  users : c.session.transcript.count .user =
    c.session.answers.total + c.chronicle.refusals +
      if c.session.state.phase.isValidating then 1 else 0
  bots : c.session.transcript.count .bot = c.chronicle.outputs + c.chronicle.refusals
  answers : ∀ name, c.session.answers.get? name =
    if c.chronicle.acceptedAs script name = [] then none
    else some (c.chronicle.acceptedAs script name)
  accepted : ((c.chronicle.accepted script).map Prod.snd).Sublist
    (c.session.transcript.filterMap Message.userText?)
  numbers : c.session.transcript.map Message.number = List.range' 1 c.session.transcript.length

theorem Kept.balanced {script : Script κ} {c : Conversation κ W} (h : c.Kept script) :
    c.Balanced script := by
  have hprompts := h.chronicle.prompts
  have hsubmissions := h.chronicle.submissions
  have hacceptances := h.chronicle.acceptances
  have husers : c.session.transcript.count .user = c.chronicle.submissions := by
    rw [h.transcript, Chronicle.users_transcript]
  have htotal : c.session.answers.total = c.chronicle.acceptances := by
    rw [h.answers, Answers.total_ofPushes, hacceptances]
  refine ⟨h.chronicle, ?_, ?_, ?_, fun name => ?_, ?_, ?_⟩
  · rw [husers, hprompts]
  · rw [husers, htotal, hsubmissions]
  · rw [h.transcript, Chronicle.bots_transcript]
  · rw [h.answers]
    exact Answers.get?_ofPushes _ name
  · rw [h.transcript]
    exact accepted_sublist script c.chronicle
  · rw [h.transcript]
    exact Chronicle.numbers_transcript c.chronicle

end Conversation

/-- **Conservation.** Whenever a request has returned, with whatever result, the session is that of
a conversation which has made these requests, and the ledger is balanced. -/
theorem returned_balanced {host : Host κ W} {script : Script κ} {settings : Settings}
    {world w : W} {requests : List Request} {s : Session κ}
    (h : Session.Reached host script settings world requests s w) :
    ∃ n c, (Conversation.opened script settings world requests).after host n = c ∧
      c.session = s ∧ c.world = w ∧ c.event? = none ∧ c.Balanced script := by
  obtain ⟨n, marks, chronicle, hn⟩ := h.conversation []
  rw [List.append_nil] at hn
  have hkept : (Conversation.mk s w none [] marks chronicle).Kept script := by
    rw [← hn]
    exact Conversation.after_kept (Conversation.opened_kept script settings world requests) n
  exact ⟨n, _, hn, rfl, rfl, rfl, hkept.balanced⟩

/-- The callback for the end of the second input fails, when its answer has been stored. -/
theorem balanced_after_failure : ∃ s w, Session.Reached (failingAt 3) survey .instant 0
    [.start, .submit "cat", .submit "ball"] s w ∧ s.halted = true ∧
      s.answers.get? "toy" = some ["ball"] ∧
      ∃ n c, (Conversation.opened survey .instant 0 [.start, .submit "cat", .submit "ball"]).after
          (failingAt 3) n = c ∧
        c.session = s ∧ c.world = w ∧ c.event? = none ∧ c.Balanced survey := by
  have h : ((Session.fresh survey .instant).request (failingAt 3) 2 0 .start).bind (fun r₁ =>
      (r₁.session.request (failingAt 3) 4 r₁.world (.submit "cat")).bind fun r₂ =>
        (r₂.session.request (failingAt 3) 1 r₂.world (.submit "ball")).map fun r =>
          (r.session.halted, r.session.answers.get? "toy")) = some (true, some ["ball"]) := rfl
  obtain ⟨r₁, h₁, h⟩ := Option.bind_eq_some_iff.mp h
  obtain ⟨r₂, h₂, h⟩ := Option.bind_eq_some_iff.mp h
  obtain ⟨r, hr, h⟩ := Option.map_eq_some_iff.mp h
  obtain ⟨hh, ha⟩ := Prod.mk.inj h
  have hreached : Session.Reached (failingAt 3) survey .instant 0
      [.start, .submit "cat", .submit "ball"] r.session r.world :=
    .called (.called (.called .fresh h₁) h₂) hr
  exact ⟨r.session, r.world, hreached, hh, ha, returned_balanced hreached⟩

end Dialogue
