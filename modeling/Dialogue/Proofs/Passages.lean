import Dialogue.Proofs.Calls

/-!
# Passages of a call

A call passes from one of its stages to a later one with some events taken and some history between
the two. Passages are joined end to end, and the last one ends at the stage at which the call
returns. Where no callback fails, a step of the script is one passage: an output is said, and an
answer is refused and asked for again or stored.
-/

namespace Dialogue

variable {κ W : Type}

def Returned.after (r : Returned κ W) (history : List (Occurrence κ)) : Returned κ W :=
  { r with history := history ++ r.history }

namespace Stage

/-- After so many events, and with this history, what is left of the call is what is left at the
later stage. -/
def Passes (host : Host κ W) (stage later : Stage κ W) (taken : Nat)
    (history : List (Occurrence κ)) : Prop :=
  ∀ bound, Session.finish host (bound + taken) stage =
    (Session.finish host bound later).map (·.after history)

section
variable {host : Host κ W} {a b c : Stage κ W} {m n : Nat} {h h' : List (Occurrence κ)}

theorem finish_after (history : List (Occurrence κ)) (bound : Nat) (stage : Stage κ W) :
    Session.finish host bound (stage.after history) =
      (Session.finish host bound stage).map (·.after history) := by
  cases hn : stage.next with
  | returns result =>
    have hn' : (stage.after history).next = .returns result := hn
    rw [finish_returns hn', finish_returns hn]
    rfl
  | again event =>
    have hn' : (stage.after history).next = .again event := hn
    cases bound with
    | zero => rw [finish_zero hn', finish_zero hn, Option.map_none]
    | succ bound =>
      rw [finish_again hn', finish_again hn, Option.map_map]
      congr 1
      funext r
      simp only [Function.comp, Returned.after, Stage.after, List.append_assoc]

theorem Passes.refl (stage : Stage κ W) : stage.Passes host stage 0 [] := by
  intro bound
  have hafter : (fun r : Returned κ W => r.after []) = id := rfl
  rw [hafter, Option.map_id]
  rfl

theorem Passes.trans (hab : a.Passes host b m h) (hbc : b.Passes host c n h') :
    a.Passes host c (m + n) (h ++ h') := by
  intro bound
  rw [Nat.add_comm m, ← Nat.add_assoc, hab, hbc, Option.map_map]
  congr 1
  funext r
  simp only [Function.comp, Returned.after, List.append_assoc]

theorem passes_after (stage : Stage κ W) (history : List (Occurrence κ)) :
    (stage.after history).Passes host stage 0 history :=
  fun bound => finish_after history bound stage

theorem passes_again {session : Session κ} {world : W} {event : Event} :
    Stage.Passes host ⟨[], session, world, .again event⟩ (session.react host world event) 1 [] := by
  intro bound
  have hn : Stage.next (⟨[], session, world, .again event⟩ : Stage κ W) = .again event := rfl
  rw [finish_again hn]
  rfl

theorem passes_shown (stage : Stage κ W) :
    stage.Passes host { stage with history := [] } 0 stage.history := by
  have hafter : Stage.after { stage with history := [] } stage.history = stage := by
    simp [Stage.after]
  have hp : Stage.Passes host (Stage.after { stage with history := [] } stage.history)
      { stage with history := [] } 0 stage.history := passes_after _ _
  rwa [hafter] at hp

theorem Passes.event {session later : Session κ} {world world' : W} {event : Event} {next : Next}
    (hab : a.Passes host ⟨[], session, world, .again event⟩ m h)
    (hr : session.react host world event = ⟨h', later, world', next⟩) :
    a.Passes host ⟨[], later, world', next⟩ (m + 1) (h ++ h') := by
  have hlast := (hab.trans passes_again).trans (passes_shown (session.react host world event))
  rwa [hr, List.append_nil] at hlast

theorem Passes.returns {session : Session κ} {world : W} {result : CallResult}
    (hp : a.Passes host ⟨[], session, world, .returns result⟩ m h) (bound : Nat) :
    Session.finish host (bound + m) a = some ⟨h, session, world, result⟩ := by
  rw [hp, finish_returns rfl]
  simp [Returned.after]

end

end Stage

/-! ## Steps without failures -/

namespace Session

section
variable {host : Host κ W} {s : Session κ} {world : W} {next : Position}

def saying (s : Session κ) (phase : Phase) (speaker : Speaker) (text : String) : Session κ :=
  { s with
    state := { s.state with phase }
    transcript := s.transcript.add speaker text }

def goingOn (s : Session κ) (next : Position) : Session κ :=
  { s with state := ⟨next, .running, s.state.prompts⟩ }

theorem carry_announced {s later : Session κ} {effect : Effect κ} {notice : Notice}
    (h : s.perform host world effect = announce later world notice) (effects : List (Effect κ)) :
    carry host (effect :: effects) none s world =
      (carry host effects none later.publish world).after (later.told notice) := by
  rw [carry_cons_ok host (by rw [h]; rfl), h]
  rfl

theorem react_output {o : Output κ} (hp : s.state.phase = .running)
    (hs : s.script.stepAt? s.state.position = some (.output o)) {wording : Wording κ}
    {text : String} (hw : o.wording = some wording)
    (hr : (wording.resolve host s.answers world).result = .ok text) :
    s.react host world .drive = ⟨(wording.resolve host s.answers world).history,
      { s with state := { s.state with phase := .resolvingText } },
      (wording.resolve host s.answers world).world, .again (.textResolved text)⟩ := by
  have ht : transition s.script s.state .drive =
      .ok ⟨{ s.state with phase := .resolvingText }, [.resolveText (some wording)]⟩ := by
    simp [transition, hp, drive, hs, hw]
  let c := wording.resolve host s.answers world
  let resolving : Session κ := { s with state := { s.state with phase := .resolvingText } }
  have ho : (resolving.perform host world (.resolveText (some wording))).outcome =
      .ok (some (.textResolved text)) := by
    simp [resolving, perform, conclude, hr]
  rw [react_of_ok host ht, carry_cons_ok host ho]
  exact congrArg (Stage.mk · resolving c.world (.again (.textResolved text)))
    (List.append_nil c.history)

theorem react_said {o : Output κ} (hp : s.state.phase = .resolvingText)
    (hs : s.script.stepAt? s.state.position = some (.output o)) (hc : o.complete = none)
    (text : String) :
    let said := s.saying .settling .bot text
    s.react host world (.textResolved text) = ⟨[.notified (.message (s.transcript.next .bot text)),
      .published said.view, .slept (s.pause o.wait)], said.publish, world,
      .again .outputSettled⟩ := by
  have ht : transition s.script s.state (.textResolved text) = .ok
      ⟨{ s.state with phase := .settling },
        [.appendMessage .bot text, .settleOutput o.wait none]⟩ := by
    simp [transition, hp, hs, hc]
  rw [react_of_ok host ht, carry_announced rfl, carry_cons_ok host rfl]
  rfl

theorem react_settled (hp : s.state.phase = .settling)
    (ha : advance s.script.steps s.state.position = ⟨next, []⟩) :
    s.react host world .outputSettled = ⟨[], s.goingOn next, world, .again .drive⟩ := by
  have ht : transition s.script s.state .outputSettled =
      .ok ⟨⟨next, .running, s.state.prompts⟩, []⟩ := by
    simp [transition, hp, moveOn, ha, exitHooks]
  rw [react_of_ok host ht, carry_nil_running host rfl]
  rfl

/-- An output without a callback of its own is said, and the script goes on once its pause is
over. -/
theorem passes_output {o : Output κ} (hp : s.state.phase = .running)
    (hs : s.script.stepAt? s.state.position = some (.output o)) {wording : Wording κ}
    {text : String} (hw : o.wording = some wording)
    (hr : (wording.resolve host s.answers world).result = .ok text) (hc : o.complete = none)
    (ha : advance s.script.steps s.state.position = ⟨next, []⟩) :
    let c := wording.resolve host s.answers world
    let said := s.saying .settling .bot text
    Stage.Passes host ⟨[], s, world, .again .drive⟩
      ⟨[], said.publish.goingOn next, c.world, .again .drive⟩ 3
      (c.history ++ [.notified (.message (s.transcript.next .bot text)), .published said.view,
        .slept (s.pause o.wait)]) := by
  intro c said
  have hresolved := (Stage.Passes.refl _).event (react_output hp hs hw hr)
  have hsaid := hresolved.event (react_said (s := { s with
    state := { s.state with phase := .resolvingText } }) rfl hs hc text)
  have hsettled := hsaid.event (react_settled (s := said.publish) rfl ha)
  rw [List.nil_append, List.append_nil] at hsettled
  exact hsettled

theorem react_finished (hp : s.state.phase = .running)
    (hs : s.script.stepAt? s.state.position = none) (hc : s.script.complete = none) :
    let later : Session κ := { s with state := { s.state with phase := .completed } }
    s.react host world .drive = ⟨[.notified (.statusChanged .completed), .published later.view],
      later.publish, world, .returns (.ok ())⟩ := by
  let later : Session κ := { s with state := { s.state with phase := .completed } }
  have ho : later.perform host world .runFormHook = ⟨[], later, world, .ok none⟩ := by
    simp [later, perform, hc]
  rw [react_of_moves host (.finish hp hs), carry_cons_ok host (by rw [ho]), ho,
    carry_cons_ok host rfl]
  rfl

/-! ## Answers without failures -/

section
variable {i : Input κ} {text : String}

def hearing (s : Session κ) (text : String) : Session κ :=
  (s.saying (.validating text) .user text).publish

def heard (s : Session κ) (text : String) : List (Occurrence κ) :=
  let active : Session κ := { s with state := { s.state with phase := .validating text } }
  [.notified (.statusChanged .active), .published active.view,
    .notified (.message (s.transcript.next .user text)), .published (s.hearing text).view]

theorem react_answer (hp : s.state.phase = .awaitingInput)
    (hs : s.script.stepAt? s.state.position = some (.input i)) {verdict : Option String}
    (hr : (checkRules host text s.answers i.rules world).result = .ok verdict) :
    let c := checkRules host text s.answers i.rules world
    s.react host world (.submitted text s.state.prompts) = ⟨s.heard text ++ c.history,
      s.hearing text, c.world, .again (match verdict with
        | none => .validationPassed
        | some errorText => .validationFailed errorText)⟩ := by
  intro c
  let event : Event := match verdict with
    | none => .validationPassed
    | some errorText => .validationFailed errorText
  have ho : ((s.hearing text).perform host world (.validate i.rules text)).outcome =
      .ok (some event) := by
    have hc : (checkRules host text (s.hearing text).answers i.rules world).result =
      .ok verdict := hr
    simp only [perform, conclude, hc]
    cases verdict <;> rfl
  have hvalidated : carry host [.validate i.rules text] none (s.hearing text) world =
      ⟨c.history, s.hearing text, c.world, .again event⟩ := by
    rw [carry_cons_ok host ho]
    exact congrArg (Stage.mk · (s.hearing text) c.world (.again event))
      (List.append_nil c.history)
  rw [react_of_moves host (.submit hp hs), carry_announced rfl, carry_announced rfl]
  exact congrArg (fun stage : Stage κ W => (stage.after _).after _) hvalidated

theorem react_refused (hp : s.state.phase = .validating text) (errorText : String) :
    let refused := s.saying .running .bot errorText
    s.react host world (.validationFailed errorText) =
      ⟨[.notified (.message (s.transcript.next .bot errorText)), .published refused.view],
        refused.publish, world, .again .drive⟩ := by
  rw [react_of_moves host (.refuse hp), carry_announced rfl, carry_nil_running host rfl]
  rfl

theorem react_passed (hp : s.state.phase = .validating text)
    (hs : s.script.stepAt? s.state.position = some (.input i)) (hc : i.complete = none)
    (ha : advance s.script.steps s.state.position = ⟨next, []⟩) :
    let stored : Session κ := { s.goingOn next with answers := s.answers.push i.name text }
    s.react host world .validationPassed =
      ⟨[.notified (.answerStored i.name text), .published stored.view], stored.publish, world,
        .again .drive⟩ := by
  have ht : transition s.script s.state .validationPassed =
      .ok ⟨⟨next, .running, s.state.prompts⟩, [.storeAnswer i.name text]⟩ := by
    simp [transition, hp, hs, moveOn, ha, exitHooks, hc, Effect.hooks]
  rw [react_of_ok host ht, carry_announced rfl, carry_nil_running host rfl]
  rfl

end

end

end Session

end Dialogue
