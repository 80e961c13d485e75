import Dialogue.Proofs.Stages

/-!
# What a stage tells

The user speaks and rules are consulted when a submission is accepted, an answer is stored when the
rules have passed it, and a prompt is presented when the conversation comes to an input. The other
stages tell nothing of these. A submission that comes to a session at rest is accepted, or else it
is refused and changes nothing.
-/

namespace Dialogue

variable {κ W : Type}

inductive CallError.Refusal : CallError → Prop
  | halted : Refusal .halted
  | stale (submitted current : Nat) : Refusal (.rejected (.staleSubmission submitted current))
  | completed : Refusal (.rejected (.notAwaitingInput .completed))

def Stage.Obeys (stage : Stage κ W) (verdict : Except (Role × String) (Option String)) : Prop :=
  match verdict with
  | .ok none => stage.next = .again .validationPassed
  | .ok (some errorText) => stage.next = .again (.validationFailed errorText)
  | .error _ => stage.Fails

namespace Session

section
variable (host : Host κ W)

/-! ## Silent effects -/

theorem perform_userTexts {effect : Effect κ} (h : ∀ text, effect ≠ .appendMessage .user text)
    (s : Session κ) (world : W) : userTexts (s.perform host world effect).history = [] := by
  refine perform_silent host ⟨fun _ _ => rfl, fun _ => rfl⟩ (fun _ => rfl)
    (fun speaker text he _ => ?_) (fun _ _ _ => rfl) (fun _ _ => rfl) world
  cases speaker with
  | bot => rfl
  | user => exact absurd he (h text)

theorem perform_stored {effect : Effect κ} (h : ∀ name value, effect ≠ .storeAnswer name value)
    (s : Session κ) (world : W) : stored (s.perform host world effect).history = [] :=
  perform_silent host ⟨fun _ _ => rfl, fun _ => rfl⟩ (fun _ => rfl) (fun _ _ _ _ => rfl)
    (fun name value he => absurd he (h name value)) (fun _ _ => rfl) world

theorem resolve_checks (wording : Wording κ) (answers : Answers) (world : W) :
    checks (wording.resolve host answers world).history = [] := by
  cases wording <;> rfl

theorem perform_checks {effect : Effect κ} (h : ∀ rules text, effect ≠ .validate rules text)
    (s : Session κ) (world : W) : checks (s.perform host world effect).history = [] := by
  cases effect with
  | resolveText wording =>
    cases wording with
    | none => rfl
    | some wording => exact resolve_checks host _ _ _
  | settleOutput wait complete => cases complete <;> rfl
  | validate rules text => exact absurd rfl (h rules text)
  | runFormHook =>
    unfold perform
    cases s.script.complete with
    | none => rfl
    | some callback => rfl
  | _ => rfl

/-! ## Stages -/

section
variable {s : Session κ} {event : Event} {t : Transition κ}

theorem react_internal (h : transition s.script s.state event = .ok t) (hi : event.Internal)
    (world : W) : userTexts (s.react host world event).history = [] ∧
      checks (s.react host world event).history = [] := by
  have he := moves_internal (transition_moves h) hi
  rw [react_of_ok host h]
  refine ⟨carry_silent host (fun _ _ => rfl) (fun e hm => ?_) none _ world,
    carry_silent host (fun _ _ => rfl) (fun e hm => ?_) none _ world⟩
  · exact perform_userTexts host (he e hm).1
  · exact perform_checks host (he e hm).2

theorem react_stored (h : transition s.script s.state event = .ok t)
    (hv : event ≠ .validationPassed) (world : W) :
    stored (s.react host world event).history = [] := by
  have he := moves_storing (transition_moves h) hv
  rw [react_of_ok host h]
  exact carry_silent host (fun _ _ => rfl) (fun e hm => perform_stored host (he e hm)) none _ world

theorem react_accept {i : Input κ} {text : String} (hp : s.state.phase = .validating text)
    (hs : s.script.stepAt? s.state.position = some (.input i)) (world : W) :
    stored (s.react host world .validationPassed).history = [(i.name, text)] := by
  have hrest : ∀ effect ∈ Effect.hooks "input" i.complete ++
      exitHooks s.script (advance s.script.steps s.state.position).exited,
        ∀ name value, effect ≠ .storeAnswer name value := by
    intro effect he
    obtain ⟨callback, step, rfl⟩ := mem_closing he
    exact nofun
  rw [react_of_moves host (.accept hp hs), moveOn, List.cons_append, carry_cons_ok host rfl,
    Stage.after, stored_append]
  exact congrArg ([(i.name, text)] ++ ·)
    (carry_silent host (fun _ _ => rfl) (fun e hm => perform_stored host (hrest e hm)) _ _ _)

theorem carry_validate (rules : List (Rule κ)) (text : String) (s : Session κ) (world : W) :
    ∃ after, (carry host [.validate rules text] none s world).history =
        (checkRules host text s.answers rules world).history ++ after ∧
      (userTexts after = [] ∧ stored after = [] ∧ checks after = []) ∧
      (carry host [.validate rules text] none s world).Obeys
        (checkRules host text s.answers rules world).result := by
  cases hr : (checkRules host text s.answers rules world).result with
  | ok verdict =>
    have ho : (s.perform host world (.validate rules text)).outcome = .ok (some (match verdict with
        | none => .validationPassed
        | some errorText => .validationFailed errorText)) := by
      cases verdict <;> simp only [perform, conclude, hr]
    rw [carry_cons_ok host ho]
    refine ⟨[], rfl, ⟨rfl, rfl, rfl⟩, ?_⟩
    cases verdict <;> rfl
  | error e =>
    have ho : (s.perform host world (.validate rules text)).outcome =
        .error ⟨e.1, s.state.position, e.2⟩ := by
      simp only [perform, conclude, hr]
    rw [carry_cons_error host ho]
    exact ⟨_, rfl, ⟨rfl, rfl, rfl⟩, rfl, _, rfl⟩

/-- An accepted submission: the user's message comes first, the rules of the input are consulted
with the answers so far, and their verdict is what goes on. -/
theorem react_submit {i : Input κ} (hp : s.state.phase = .awaitingInput)
    (hs : s.script.stepAt? s.state.position = some (.input i)) (text : String) (world : W) :
    ∃ before after, (s.react host world (.submitted text s.state.prompts)).history =
        before ++ (checkRules host text s.answers i.rules world).history ++ after ∧
      (userTexts before = [text] ∧ stored before = [] ∧ checks before = []) ∧
      (userTexts after = [] ∧ stored after = [] ∧ checks after = []) ∧
      (s.react host world (.submitted text s.state.prompts)).Obeys
        (checkRules host text s.answers i.rules world).result := by
  rw [react_of_moves host (.submit hp hs), carry_cons_ok host rfl, carry_cons_ok host rfl]
  let active := ({ s with state := { s.state with phase := .validating text } } : Session κ).perform
    host world (.publishStatus .active)
  let spoken := active.session.perform host world (.appendMessage .user text)
  obtain ⟨after, hh, ha, ho⟩ := carry_validate host i.rules text spoken.session world
  refine ⟨active.history ++ spoken.history, after, ?_, ⟨rfl, rfl, rfl⟩, ha, ho⟩
  rw [List.append_assoc, List.append_assoc]
  exact congrArg (fun rest => active.history ++ (spoken.history ++ rest)) hh

theorem react_present {i : Input κ} (hp : s.state.phase = .running)
    (hs : s.script.stepAt? s.state.position = some (.input i)) (world : W) :
    let later := { s with state := ⟨s.state.position, .awaitingInput, s.state.prompts + 1⟩ }
    s.react host world .drive = ⟨[.notified (.statusChanged .waiting), .published later.view],
      later.publish, world, .returns (.ok ())⟩ := by
  rw [react_of_moves host (.present hp hs), carry_cons_ok host rfl]
  rfl

end

/-! ## Submissions -/

def Rests (s : Session κ) : Prop :=
  s.halted = true ∨ s.state.phase = .awaitingInput ∨ s.state.phase = .completed

inductive Receives (s : Session κ) (world : W) (text : String) (turn : Nat) : Stage κ W → Prop
  | refused {e : CallError} (he : e.Refusal) :
    Receives s world text turn ⟨[], s, world, .returns (.error e)⟩
  | accepted {i : Input κ} (hh : s.halted = false) (hp : s.state.phase = .awaitingInput)
    (ht : turn = s.state.prompts) (hs : s.script.stepAt? s.state.position = some (.input i)) :
    Receives s world text turn (s.react host world (.submitted text turn))

theorem receive_receives {s : Session κ} (hr : s.Rests) (hw : s.state.WellFormed s.script)
    (world : W) (text : String) (turn : Nat) :
    s.Receives host world text turn (s.receive host world (.submitted text turn)) := by
  unfold receive
  by_cases hh : s.halted = true
  · rw [if_pos hh]
    exact .refused .halted
  · rw [if_neg hh]
    rcases hr with h | hp | hp
    · exact absurd h hh
    · obtain ⟨i, hi⟩ := hw.fits.input (.inl hp)
      have hs : s.script.stepAt? s.state.position = some (.input i) := hw.exact.trans hi
      by_cases ht : turn = s.state.prompts
      · exact .accepted (Bool.eq_false_iff.mpr hh) hp ht hs
      · have hstale : transition s.script s.state (.submitted text turn) =
            .error (.staleSubmission turn s.state.prompts) := by
          simp [transition, hp, ht]
        rw [react_of_error host hstale]
        exact .refused (.stale _ _)
    · have hover : transition s.script s.state (.submitted text turn) =
          .error (.notAwaitingInput .completed) := by
        simp [transition, hp, Phase.status]
      rw [react_of_error host hover]
      exact .refused .completed

end

end Session

end Dialogue
