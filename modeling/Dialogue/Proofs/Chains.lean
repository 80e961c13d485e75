import Dialogue.Proofs.Elapsed
import Dialogue.Proofs.Passages
import Dialogue.Proofs.Placement

/-!
# Chains of rules

The rules of an input judge a text one after another, all with the answers before it, and the first
rule that rejects the text or fails ends the chain. A text that is rejected leaves nothing behind
but two messages, and the same input waits under a new prompt; a text that passes all rules is
stored before anything else is called.
-/

namespace Dialogue

variable {κ W : Type}

/-! ## Judgements -/

inductive Judgement (κ W : Type)
  | passed (world : W)
  | refused (rule : Rule κ) (world : W)
  | failed (source : String) (world : W)

def predicates (rules : List (Rule κ)) : List κ :=
  rules.filterMap Rule.predicate

def question (text : String) (answers : Answers) (callback : κ) : Call κ :=
  ⟨.validation, callback, answers, text⟩

def Wording.calls (answers : Answers) : Wording κ → List (Call κ)
  | .literal _ => []
  | .computed callback => [⟨.text, callback, answers, ""⟩]

def callsOf (history : List (Occurrence κ)) : List (Call κ) :=
  (calls history).map Prod.fst

def Consulted.after {α : Type} (c : Consulted κ W α) (history : List (Occurrence κ)) :
    Consulted κ W α :=
  { c with history := history ++ c.history }

theorem Consulted.after_append {α : Type} (c : Consulted κ W α) (a b : List (Occurrence κ)) :
    c.after (a ++ b) = (c.after b).after a := by
  simp [Consulted.after]

theorem callsOf_nil : callsOf ([] : List (Occurrence κ)) = [] := rfl

@[simp] theorem callsOf_append (a b : List (Occurrence κ)) : callsOf (a ++ b) =
    callsOf a ++ callsOf b := by
  simp [callsOf, calls_append]

section
variable (host : Host κ W) (text : String) (answers : Answers)

/-- Every rule lets the text pass, and a rule without a predicate is not asked. -/
inductive Accepted : List (Rule κ) → W → W → Prop
  | nil (world : W) : Accepted [] world world
  | bare {rule : Rule κ} {rules : List (Rule κ)} {world later : W} (h : rule.predicate = none) :
    Accepted rules world later → Accepted (rule :: rules) world later
  | accepts {rule : Rule κ} {rules : List (Rule κ)} {callback : κ} {world later : W}
    (h : rule.predicate = some callback)
    (ha : (host.accepts callback text answers world).1.result = .ok true) :
    Accepted rules (host.accepts callback text answers world).2 later →
      Accepted (rule :: rules) world later

/-- What rules come to, with the predicates that are asked: those up to the first rule that rejects
the text or fails. -/
inductive Judged (rules : List (Rule κ)) (world : W) : List κ → Judgement κ W → Prop
  | passed {later : W} (h : Accepted host text answers rules world later) :
    Judged rules world (predicates rules) (.passed later)
  | refused {before after : List (Rule κ)} {rule : Rule κ} {callback : κ} {w : W}
    (hr : rules = before ++ rule :: after) (hb : Accepted host text answers before world w)
    (hc : rule.predicate = some callback)
    (ha : (host.accepts callback text answers w).1.result = .ok false) :
    Judged rules world (predicates (before ++ [rule]))
      (.refused rule (host.accepts callback text answers w).2)
  | failed {before after : List (Rule κ)} {rule : Rule κ} {callback : κ} {w : W} {source : String}
    (hr : rules = before ++ rule :: after) (hb : Accepted host text answers before world w)
    (hc : rule.predicate = some callback)
    (ha : (host.accepts callback text answers w).1.result = .error source) :
    Judged rules world (predicates (before ++ [rule]))
      (.failed source (host.accepts callback text answers w).2)

def Judgement.told : Judgement κ W → Consulted κ W (Option String)
  | .passed world => ⟨[], world, .ok none⟩
  | .refused rule world => (rule.errorText.resolve host answers world).map some
  | .failed source world => ⟨[], world, .error (.validation, source)⟩

end

section
variable {host : Host κ W} {text : String} {answers : Answers} {rules : List (Rule κ)}
  {world later : W} {callbacks : List κ} {judgement : Judgement κ W}

theorem Judged.cons {rule : Rule κ} {more : List κ} {world' : W}
    (hmore : predicates [rule] = more)
    (hpass : ∀ {rules later}, Accepted host text answers rules world' later →
      Accepted host text answers (rule :: rules) world later)
    (h : Judged host text answers rules world' callbacks judgement) :
    Judged host text answers (rule :: rules) world (more ++ callbacks) judgement := by
  have hcons (rules : List (Rule κ)) : more ++ predicates rules = predicates (rule :: rules) := by
    rw [← hmore, predicates, predicates, predicates, ← List.filterMap_append]
    rfl
  cases h with
  | passed h =>
    rw [hcons]
    exact .passed (hpass h)
  | refused hr hb hc ha =>
    rw [hcons]
    exact .refused (congrArg (rule :: ·) hr) (hpass hb) hc ha
  | failed hr hb hc ha =>
    rw [hcons]
    exact .failed (congrArg (rule :: ·) hr) (hpass hb) hc ha

theorem exists_judged (host : Host κ W) (text : String) (answers : Answers) :
    ∀ (rules : List (Rule κ)) (world : W),
      ∃ callbacks judgement, Judged host text answers rules world callbacks judgement
  | [], world => ⟨[], .passed world, .passed (.nil world)⟩
  | rule :: rules, world => by
    cases hc : rule.predicate with
    | none =>
      obtain ⟨callbacks, judgement, ih⟩ := exists_judged host text answers rules world
      exact ⟨[] ++ callbacks, judgement, ih.cons (by simp [predicates, hc]) (.bare hc)⟩
    | some callback =>
      cases ha : (host.accepts callback text answers world).1.result with
      | error source => exact ⟨_, _, .failed (List.nil_append _).symm (.nil world) hc ha⟩
      | ok accepts =>
        cases accepts with
        | false => exact ⟨_, _, .refused (List.nil_append _).symm (.nil world) hc ha⟩
        | true =>
          obtain ⟨callbacks, judgement, ih⟩ := exists_judged host text answers rules
            (host.accepts callback text answers world).2
          exact ⟨[callback] ++ callbacks, judgement,
            ih.cons (by simp [predicates, hc]) (.accepts hc ha)⟩

/-! ## The chain -/

theorem checkRules_asks {rule : Rule κ} {callback : κ} (hc : rule.predicate = some callback)
    (rules : List (Rule κ)) (world : W) : checkRules host text answers (rule :: rules) world =
      Consulted.after (match (host.accepts callback text answers world).1.result with
        | .ok true =>
          checkRules host text answers rules (host.accepts callback text answers world).2
        | .ok false =>
          (Judgement.refused rule (host.accepts callback text answers world).2).told host answers
        | .error source =>
          (Judgement.failed source (host.accepts callback text answers world).2).told host answers)
      (consultPredicate host callback text answers world).history := by
  rw [checkRules_cons, hc]
  dsimp only
  generalize hv : consultPredicate host callback text answers world = verdict
  have hresult : verdict.result =
      (host.accepts callback text answers world).1.result.mapError (.validation, ·) := by
    rw [← hv]
    rfl
  have hworld : verdict.world = (host.accepts callback text answers world).2 := by
    rw [← hv]
    rfl
  cases ha : (host.accepts callback text answers world).1.result with
  | error source =>
    rw [ha] at hresult
    rw [Consulted.bind_error hresult, hworld]
    exact congrArg (Consulted.mk · _ _) (List.append_nil _).symm
  | ok accepts =>
    rw [ha] at hresult
    rw [Consulted.bind_ok hresult, hworld]
    cases accepts <;> rfl

/-- Rules that let the text pass ask their predicates and leave it to the rules after them. -/
theorem checkRules_accepted (h : Accepted host text answers rules world later) :
    ∃ history, callsOf history = (predicates rules).map (question text answers) ∧ ∀ rest,
      checkRules host text answers (rules ++ rest) world =
        (checkRules host text answers rest later).after history := by
  induction h with
  | nil world => exact ⟨[], rfl, fun rest => rfl⟩
  | @bare rule rules world later hc _ ih =>
    obtain ⟨history, hasked, hrest⟩ := ih
    refine ⟨history, by simpa [predicates, hc] using hasked, fun rest => ?_⟩
    rw [List.cons_append, checkRules_cons, hc]
    exact hrest rest
  | @accepts rule rules callback world later hc ha _ ih =>
    obtain ⟨history, hasked, hrest⟩ := ih
    let verdict := consultPredicate host callback text answers world
    have hverdict : callsOf verdict.history = [question text answers callback] := rfl
    refine ⟨verdict.history ++ history, ?_, fun rest => ?_⟩
    · rw [callsOf_append, hverdict, hasked]
      simp [predicates, hc]
    · rw [List.cons_append, checkRules_asks hc, ha, Consulted.after_append]
      exact congrArg (Consulted.after · verdict.history) (hrest rest)

/-- The rule that ends the chain is asked after those before it. -/
theorem checkRules_ends {before after : List (Rule κ)} {rule : Rule κ} {callback : κ}
    (hb : Accepted host text answers before world later) (hc : rule.predicate = some callback)
    (hr : checkRules host text answers (rule :: after) later =
      (judgement.told host answers).after
        (consultPredicate host callback text answers later).history) :
    ∃ history, callsOf history = (predicates (before ++ [rule])).map (question text answers) ∧
      checkRules host text answers (before ++ rule :: after) world =
        (judgement.told host answers).after history := by
  obtain ⟨history, hasked, hrest⟩ := checkRules_accepted hb
  let verdict := consultPredicate host callback text answers later
  have hverdict : callsOf verdict.history = [question text answers callback] := rfl
  refine ⟨history ++ verdict.history, ?_, ?_⟩
  · rw [callsOf_append, hasked, hverdict]
    simp [predicates, hc]
  · rw [hrest, hr, ← Consulted.after_append]

theorem checkRules_judged (h : Judged host text answers rules world callbacks judgement) :
    ∃ history, callsOf history = callbacks.map (question text answers) ∧
      checkRules host text answers rules world = (judgement.told host answers).after history := by
  cases h with
  | passed h =>
    obtain ⟨history, hasked, hrest⟩ := checkRules_accepted h
    refine ⟨history, hasked, ?_⟩
    have hnil := hrest []
    rwa [List.append_nil] at hnil
  | refused hr hb hc ha =>
    subst hr
    exact checkRules_ends hb hc (by rw [checkRules_asks hc, ha])
  | failed hr hb hc ha =>
    subst hr
    exact checkRules_ends hb hc (by rw [checkRules_asks hc, ha])

theorem callsOf_resolve (host : Host κ W) (wording : Wording κ) (answers : Answers) (world : W) :
    callsOf (wording.resolve host answers world).history = wording.calls answers := by
  cases wording <;> rfl

theorem resolve_role {wording : Wording κ} {role : Role} {source : String}
    (h : (wording.resolve host answers world).result = .error (role, source)) : role = .text := by
  cases wording with
  | literal text => cases h
  | computed callback =>
    have h : (host.produce callback answers world).1.result.mapError (Role.text, ·) =
      .error (role, source) := h
    cases hr : (host.produce callback answers world).1.result with
    | ok text =>
      rw [hr] at h
      cases h
    | error e =>
      rw [hr] at h
      cases h
      rfl

end

/-! ## Calls that are over with the chain -/

namespace Session

structure Stopped (s : Session κ) (text : String) (called : List (Call κ)) (failure : Failure)
    (r : Returned κ W) : Prop where
  calls : callsOf r.history = called
  messages : messages r.history = [s.transcript.next .user text]
  stored : stored r.history = []
  session : r.session = (s.hearing text).halt.publish
  result : r.result = .error (.callback failure)

def waiting (s : Session κ) (text errorText : String) : Session κ :=
  { s with
    state := ⟨s.state.position, .awaitingInput, s.state.prompts + 1⟩
    transcript := (s.transcript.add .user text).add .bot errorText }

structure Reprompted (s : Session κ) (text errorText : String) (called : List (Call κ))
    (r : Returned κ W) : Prop where
  calls : callsOf r.history = called
  messages : messages r.history = [s.transcript.next .user text,
    (s.transcript.add .user text).next .bot errorText]
  stored : stored r.history = []
  session : r.session = (s.waiting text errorText).publish
  result : r.result = .ok ()

section
variable {host : Host κ W} {s : Session κ} {world : W} {text : String} {i : Input κ}

theorem react_stopped (hp : s.state.phase = .awaitingInput)
    (hs : s.script.stepAt? s.state.position = some (.input i)) {role : Role} {source : String}
    (hr : (checkRules host text s.answers i.rules world).result = .error (role, source)) :
    let c := checkRules host text s.answers i.rules world
    let halted := (s.hearing text).halt
    let failure : Failure := ⟨role, s.state.position, source⟩
    s.react host world (.submitted text s.state.prompts) =
      ⟨s.heard text ++ (c.history ++ halted.told (.failed failure.message)), halted.publish,
        c.world, .returns (.error (.callback failure))⟩ := by
  intro c halted failure
  have ho : ((s.hearing text).perform host world (.validate i.rules text)).outcome =
      .error failure := by
    have hc : (checkRules host text (s.hearing text).answers i.rules world).result =
      .error (role, source) := hr
    simp only [perform, conclude, hc]
    rfl
  rw [react_of_moves host (.submit hp hs), carry_announced rfl, carry_announced rfl]
  exact congrArg (fun stage : Stage κ W => (stage.after _).after _)
    (carry_cons_error host ho [] none)

theorem submit_stopped (hh : s.halted = false) (hp : s.state.phase = .awaitingInput)
    (hs : s.script.stepAt? s.state.position = some (.input i)) {role : Role} {source : String}
    (hr : (checkRules host text s.answers i.rules world).result = .error (role, source))
    (bound : Nat) : ∃ r, s.submitForTurn host bound world text s.state.prompts = some r ∧
      s.Stopped text (callsOf (checkRules host text s.answers i.rules world).history)
        ⟨role, s.state.position, source⟩ r := by
  have hasking := checkRules_asking host text s.answers i.rules world
  unfold submitForTurn call
  rw [receive_live hh, react_stopped hp hs hr]
  refine ⟨_, finish_returns rfl bound, ?_, ?_, ?_, rfl, rfl⟩
  · simp only [callsOf_append]
    exact (List.nil_append _).trans (List.append_nil _)
  · simp only [messages_append, hasking.no_messages]
    rfl
  · simp only [stored_append, hasking.no_answers]
    rfl

theorem submit_reprompted (hh : s.halted = false) (hp : s.state.phase = .awaitingInput)
    (hs : s.script.stepAt? s.state.position = some (.input i)) {errorText : String}
    (hr : (checkRules host text s.answers i.rules world).result = .ok (some errorText))
    (bound : Nat) : ∃ r, s.submitForTurn host (bound + 2) world text s.state.prompts = some r ∧
      s.Reprompted text errorText
        (callsOf (checkRules host text s.answers i.rules world).history) r := by
  have hasking := checkRules_asking host text s.answers i.rules world
  unfold submitForTurn call
  rw [receive_live hh, react_answer hp hs hr]
  let c := checkRules host text s.answers i.rules world
  let answered : Stage κ W :=
    ⟨s.heard text ++ c.history, s.hearing text, c.world, .again (.validationFailed errorText)⟩
  let refused := (s.hearing text).saying .running .bot errorText
  have hanswered : answered.Passes host { answered with history := [] } 0 answered.history :=
    Stage.passes_shown answered
  have hrefused := hanswered.event (react_refused rfl errorText)
  have hpresent := hrefused.event (react_present host (s := refused.publish) rfl hs c.world)
  refine ⟨_, hpresent.returns bound, ?_, ?_, ?_, rfl, rfl⟩
  · simp only [answered, callsOf_append]
    exact ((List.append_nil _).trans (List.append_nil _)).trans (List.nil_append _)
  · simp only [answered, c, messages_append, hasking.no_messages]
    rfl
  · simp only [answered, c, stored_append, hasking.no_answers]
    rfl

end

end Session

/-! ## Calls that go on with the script -/

def Script.Says (script : Script κ) (callback : κ) : Prop :=
  ∃ p o, script.stepAt? p = some (.output o) ∧ o.wording = some (.computed callback)

/-- No rule is consulted and no answer stored, and the texts are those of outputs. -/
structure PastRules (script : Script κ) (history : List (Occurrence κ)) : Prop where
  calls : OnlyCalls (fun role callback => role ≠ .validation ∧
    (role = .text → script.Says callback)) history
  stored : stored history = []

def Stage.Leaves (stage : Stage κ W) : Prop :=
  ∀ event, stage.next = .again event → event.Internal ∧ event ≠ .validationPassed

section
variable {script : Script κ} {s : State} {event : Event} {t : Transition κ}

theorem PastRules.append {a b : List (Occurrence κ)} (ha : PastRules script a)
    (hb : PastRules script b) : PastRules script (a ++ b) :=
  ⟨ha.calls.append hb.calls, by rw [stored_append, ha.stored, hb.stored]; rfl⟩

theorem OnlyCalls.imp {P Q : Role → κ → Prop} {history : List (Occurrence κ)}
    (h : OnlyCalls P history) (hpq : ∀ role callback, P role callback → Q role callback) :
    OnlyCalls Q history :=
  fun call reply hm => hpq _ _ (h call reply hm)

theorem moves_resolving (h : Moves script s event t) {wording : Option (Wording κ)}
    (he : .resolveText wording ∈ t.effects) :
    ∃ o, script.stepAt? s.position = some (.output o) ∧ o.wording = wording := by
  obtain rfl : event = .drive := by
    cases moves_has h _ he
    rfl
  cases h with
  | produce hp hs => exact ⟨_, hs, (Effect.resolveText.inj (List.mem_singleton.mp he)).symm⟩
  | finish hp hs => simp at he
  | present hp hs => simp at he
  | ask hp hs => simp at he

theorem moves_says (h : Moves script s event t) (hi : event.Internal) {effect : Effect κ}
    (he : effect ∈ t.effects) {role : Role} {callback : κ}
    (hc : script.Calls effect role callback) :
    role ≠ .validation ∧ (role = .text → script.Says callback) := by
  cases hc with
  | text callback =>
    obtain ⟨o, hs, hw⟩ := moves_resolving h he
    exact ⟨nofun, fun _ => ⟨s.position, o, hs, hw⟩⟩
  | predicate text hr hp => exact absurd rfl ((moves_internal h hi _ he).2 _ text)
  | errorText text hr ht => exact absurd rfl ((moves_internal h hi _ he).2 _ text)
  | _ => exact ⟨nofun, nofun⟩

end

theorem carry_calls (host : Host κ W) {P : Role → κ → Prop} {script : Script κ} :
    ∀ {effects : List (Effect κ)} {s : Session κ}, s.script = script →
      (∀ effect ∈ effects, ∀ role callback, script.Calls effect role callback → P role callback) →
        ∀ (event : Option Event) (world : W),
          OnlyCalls P (Session.carry host effects event s world).history
  | [], s, _, _, event, world => by
    obtain ⟨next, hc, _⟩ := Session.carry_nil host event s world
    rw [hc]
    exact .nil
  | effect :: effects, s, hs, he, event, world => by
    have hfirst := (perform_calls host s world effect).imp
      (hs ▸ he effect List.mem_cons_self)
    cases h : (s.perform host world effect).outcome with
    | error failure =>
      rw [Session.carry_cons_error host h]
      exact hfirst.append (by simp [OnlyCalls, Session.told])
    | ok answer =>
      have hscript := (Session.perform_grows host s world effect).script.trans hs
      rw [Session.carry_cons_ok host h]
      exact hfirst.append
        (carry_calls host hscript (fun e hm => he e (List.mem_cons_of_mem effect hm)) _ _)

theorem react_past (host : Host κ W) (s : Session κ) (world : W) {event : Event}
    (hi : event.Internal) (hv : event ≠ .validationPassed) :
    (s.react host world event).session.script = s.script ∧
      PastRules s.script (s.react host world event).history ∧
      (s.react host world event).Leaves := by
  cases ht : transition s.script s.state event with
  | error r =>
    rw [Session.react_of_error host ht]
    exact ⟨rfl, ⟨.nil, rfl⟩, nofun⟩
  | ok t =>
    refine ⟨(Session.react_grows host ht world).script, ⟨?_, Session.react_stored host ht hv world⟩,
      fun later hn => ⟨?_, ?_⟩⟩
    · have hkept : ({ s with state := t.state } : Session κ).script = s.script := rfl
      rw [Session.react_of_ok host ht]
      exact carry_calls host hkept
        (fun effect he role callback hc => moves_says (transition_moves ht) hi he hc) none world
    · rcases Session.react_next host ht world with ⟨_, _, hr⟩ | ⟨_, ⟨event', hr, _, hi'⟩ | ⟨hr, _⟩⟩
      · rw [hr] at hn
        cases hn
      · rw [hr] at hn
        cases hn
        exact hi'
      · rw [hr] at hn
        cases hn
    · rintro rfl
      exact Session.react_not_passed host ht hi world hn

theorem record_history (host : Host κ W) (stage : Stage κ W) (bound : Nat) :
    ∃ more, occurrences (stage.record host bound []).marks = stage.history ++ more := by
  cases bound with
  | zero => exact ⟨[], by rw [Stage.record, occurrences_stage, List.append_nil]⟩
  | succ bound =>
    rw [Stage.record]
    cases stage.follow? host [] with
    | none => exact ⟨[], by rw [occurrences_stage, List.append_nil]⟩
    | some later =>
      simp only [Record.after, occurrences_append, occurrences_stage]
      exact ⟨_, rfl⟩

theorem record_past (host : Host κ W) : ∀ (bound : Nat) {stage : Stage κ W}, stage.Leaves →
    PastRules stage.session.script stage.history →
      PastRules stage.session.script (occurrences (stage.record host bound []).marks)
  | 0, stage, _, h => by
    rw [Stage.record, occurrences_stage]
    exact h
  | bound + 1, stage, hl, h => by
    cases hn : stage.next with
    | returns result =>
      rw [Stage.record_returns hn]
      simpa [Session.recordCalls, Record.after] using h
    | again event =>
      obtain ⟨hi, hv⟩ := hl event hn
      obtain ⟨hscript, hpast, hleaves⟩ := react_past host stage.session stage.world hi hv
      rw [← hscript] at hpast
      have ih := record_past host bound hleaves hpast
      rw [Stage.record_again hn, Record.after, occurrences_append, occurrences_stage]
      exact h.append (hscript ▸ ih)

/-! ## Answers that pass -/

namespace Session

/-- The record of a call whose text passes: up to the answer only the predicates are called, the
first call after it is that for the end of the input, and then the script goes on. -/
structure Stores (s : Session κ) (i : Input κ) (text : String) (called : List (Call κ))
    (before : List (Occurrence κ)) (v : View) (later : List (Occurrence κ)) : Prop where
  calls : callsOf before = called
  messages : messages before = [s.transcript.next .user text]
  stored : stored before = []
  answers : v.answers = s.answers.push i.name text
  hook : ∀ callback, i.complete = some callback →
    (callsOf later).head? = some ⟨.hook, callback, s.answers.push i.name text, ""⟩
  past : PastRules s.script later

section
variable {host : Host κ W} {s : Session κ} {world : W} {text : String} {i : Input κ}

theorem carry_head (event : Option Event) (callback : κ) (step : String)
    (effects : List (Effect κ)) :
    (callsOf (carry host (.runHook callback step :: effects) event s world).history).head? =
      some ⟨.hook, callback, s.answers, ""⟩ := by
  cases h : (s.perform host world (.runHook callback step)).outcome with
  | error failure =>
    rw [carry_cons_error host h]
    rfl
  | ok answer =>
    rw [carry_cons_ok host h]
    rfl

theorem carry_hooks (hp : s.state.phase = .running) {effects : List (Effect κ)}
    (he : ∀ effect ∈ effects, ∃ callback step, effect = .runHook callback step) (world : W) :
    PastRules s.script (carry host effects none s world).history ∧
      (carry host effects none s world).Leaves := by
  have hquiet : Quiet effects := by
    intro effect hm
    obtain ⟨_, _, rfl⟩ := he effect hm
    rfl
  refine ⟨⟨?_, ?_⟩, fun event hn => ?_⟩
  · refine carry_calls host rfl (fun effect hm role callback hc => ?_) none world
    obtain ⟨_, _, rfl⟩ := he effect hm
    cases hc
    exact ⟨nofun, nofun⟩
  · refine carry_silent host (fun _ _ => rfl) (fun effect hm => ?_) none _ world
    obtain ⟨_, _, rfl⟩ := he effect hm
    exact perform_stored host nofun
  · rcases carry_quiet host hquiet s world with ⟨_, _, hq⟩ | ⟨_, hq⟩
    · rw [hq] at hn
      cases hn
    · rw [hq, if_pos hp] at hn
      cases hn
      exact ⟨nofun, nofun⟩

theorem react_stores (host : Host κ W) (hp : s.state.phase = .validating text)
    (hs : s.script.stepAt? s.state.position = some (.input i)) (world : W) :
    ∃ (v : View) (rest : Stage κ W), s.react host world .validationPassed =
        rest.after [.notified (.answerStored i.name text), .published v] ∧
      v.answers = s.answers.push i.name text ∧
      (∀ callback, i.complete = some callback → (callsOf rest.history).head? =
        some ⟨.hook, callback, s.answers.push i.name text, ""⟩) ∧
      rest.session.script = s.script ∧ PastRules s.script rest.history ∧ rest.Leaves := by
  let a := advance s.script.steps s.state.position
  let hooks := Effect.hooks "input" i.complete ++ exitHooks s.script a.exited
  let later : Session κ := { s.goingOn a.next with answers := s.answers.push i.name text }
  have ht : transition s.script s.state .validationPassed =
      .ok ⟨⟨a.next, .running, s.state.prompts⟩, .storeAnswer i.name text :: hooks⟩ := by
    simp [transition, hp, hs, moveOn, hooks, a]
  have hhooks : ∀ effect ∈ hooks, ∃ callback step, effect = .runHook callback step :=
    fun _ => mem_closing
  have hreact : s.react host world .validationPassed =
      (carry host hooks none later.publish world).after
        [.notified (.answerStored i.name text), .published later.view] := by
    rw [react_of_ok host ht, carry_announced rfl]
    rfl
  refine ⟨later.view, carry host hooks none later.publish world, hreact, rfl, fun callback hc => ?_,
    (carry_grows host hooks none later.publish world).script,
    carry_hooks (s := later.publish) rfl hhooks world⟩
  have hfirst : hooks = .runHook callback "input" :: exitHooks s.script a.exited := by
    simp [hooks, hc, Effect.hooks]
  rw [hfirst]
  exact carry_head none callback "input" _

theorem submit_stores (hh : s.halted = false) (hp : s.state.phase = .awaitingInput)
    (hs : s.script.stepAt? s.state.position = some (.input i))
    (hr : (checkRules host text s.answers i.rules world).result = .ok none) (bound : Nat) :
    ∃ before v later,
      occurrences (s.recordCalls host (bound + 2) world [(text, s.state.prompts)]).marks =
        before ++ .notified (.answerStored i.name text) :: .published v :: later ∧
      s.Stores i text (callsOf (checkRules host text s.answers i.rules world).history)
        before v later := by
  have hasking := checkRules_asking host text s.answers i.rules world
  let c := checkRules host text s.answers i.rules world
  let answered : Stage κ W :=
    ⟨s.heard text ++ c.history, s.hearing text, c.world, .again .validationPassed⟩
  have hvalidating : (s.hearing text).state.phase = .validating text := rfl
  obtain ⟨v, rest, hreact, hv, hhook, hscript, hpast, hleaves⟩ :=
    react_stores host hvalidating hs c.world
  have hrecord : s.recordCalls host (bound + 2) world [(text, s.state.prompts)] =
      ((rest.record host bound []).after (.map .occurred
        [.notified (.answerStored i.name text), .published v])).after answered.marks := by
    rw [recordCalls, receive_live hh, react_answer hp hs hr]
    rw [← Stage.record_after, ← hreact]
    have hagain : answered.next = .again .validationPassed := rfl
    exact Stage.record_again hagain bound []
  refine ⟨answered.history, v, occurrences (rest.record host bound []).marks, ?_, ?_⟩
  · rw [hrecord, Record.after, Record.after, occurrences_append, occurrences_append,
      occurrences_stage, occurrences_occurred]
    rfl
  refine ⟨?_, ?_, ?_, hv, fun callback hc => ?_, ?_⟩
  · rw [callsOf_append]
    rfl
  · rw [messages_append, hasking.no_messages]
    rfl
  · rw [stored_append, hasking.no_answers]
    rfl
  · obtain ⟨more, hmore⟩ := record_history host rest bound
    rw [hmore, callsOf_append, List.head?_append, hhook callback hc]
    rfl
  · have hfinal := record_past host bound hleaves (hscript ▸ hpast)
    rwa [hscript] at hfinal

end

/-! ## Submissions -/

/-- What a submission with the current turn comes to, by the judgement of the rules. -/
def Heeds (host : Host κ W) (s : Session κ) (i : Input κ) (text : String) (world : W)
    (called : List (Call κ)) : Judgement κ W → Prop
  | .passed _ => ∀ bound, ∃ before v later,
    occurrences (s.recordCalls host (bound + 2) world [(text, s.state.prompts)]).marks =
      before ++ .notified (.answerStored i.name text) :: .published v :: later ∧
    s.Stores i text called before v later
  | .refused rule w =>
    let called := called ++ rule.errorText.calls s.answers
    match (rule.errorText.resolve host s.answers w).result with
    | .ok errorText => ∀ bound, ∃ r,
      s.submitForTurn host (bound + 2) world text s.state.prompts = some r ∧
      s.Reprompted text errorText called r
    | .error (_, source) => ∀ bound, ∃ r,
      s.submitForTurn host bound world text s.state.prompts = some r ∧
      s.Stopped text called ⟨.text, s.state.position, source⟩ r
  | .failed source _ => ∀ bound, ∃ r,
    s.submitForTurn host bound world text s.state.prompts = some r ∧
    s.Stopped text called ⟨.validation, s.state.position, source⟩ r

end Session

section
variable {host : Host κ W} {s : Session κ} {i : Input κ} {text : String} {world : W}

theorem judged_heeds (hh : s.halted = false) (hp : s.state.phase = .awaitingInput)
    (hs : s.script.stepAt? s.state.position = some (.input i)) {callbacks : List κ}
    {judgement : Judgement κ W}
    (hj : Judged host text s.answers i.rules world callbacks judgement) :
    s.Heeds host i text world (callbacks.map (question text s.answers)) judgement := by
  obtain ⟨history, hasked, hc⟩ := checkRules_judged hj
  have hcalled : callsOf (checkRules host text s.answers i.rules world).history =
      callbacks.map (question text s.answers) ++
        callsOf (judgement.told host s.answers).history := by
    rw [hc, Consulted.after, callsOf_append, hasked]
  have hresult : (checkRules host text s.answers i.rules world).result =
      (judgement.told host s.answers).result := by
    rw [hc]
    rfl
  cases judgement with
  | passed w =>
    intro bound
    have hstores := Session.submit_stores hh hp hs hresult bound
    rwa [hcalled, Judgement.told, callsOf_nil, List.append_nil] at hstores
  | failed source w =>
    intro bound
    have hstops := Session.submit_stopped hh hp hs hresult bound
    rwa [hcalled, Judgement.told, callsOf_nil, List.append_nil] at hstops
  | refused rule w =>
    have htold : callsOf ((Judgement.refused rule w).told host s.answers).history =
      rule.errorText.calls s.answers := callsOf_resolve host rule.errorText s.answers w
    have htext : ((Judgement.refused rule w).told host s.answers).result =
      (rule.errorText.resolve host s.answers w).result.map some := rfl
    rw [htold] at hcalled
    rw [htext] at hresult
    unfold Session.Heeds
    dsimp only
    cases hr : (rule.errorText.resolve host s.answers w).result with
    | ok errorText =>
      rw [hr] at hresult
      rw [← hcalled]
      exact Session.submit_reprompted hh hp hs hresult
    | error e =>
      obtain ⟨role, source⟩ := e
      obtain rfl := resolve_role hr
      rw [hr] at hresult
      rw [← hcalled]
      exact Session.submit_stopped hh hp hs hresult

/-- **The first rule that rejects wins.** Rules always come to a judgement, and it settles what a
submission with the current turn does. -/
theorem submission_judged (host : Host κ W) (hh : s.halted = false)
    (hp : s.state.phase = .awaitingInput)
    (hs : s.script.stepAt? s.state.position = some (.input i)) (text : String) (world : W) :
    (∃ callbacks judgement, Judged host text s.answers i.rules world callbacks judgement) ∧
      ∀ callbacks judgement, Judged host text s.answers i.rules world callbacks judgement →
        s.Heeds host i text world (callbacks.map (question text s.answers)) judgement :=
  ⟨exists_judged host text s.answers i.rules world, fun _ _ => judged_heeds hh hp hs⟩

end

def pin : Input Nat where
  name := "pin"
  rules := [⟨none, .literal "None"⟩, ⟨some 0, .literal "Digits only"⟩, ⟨some 1, .computed 2⟩,
    ⟨some 3, .literal "Too simple"⟩]
  complete := some 4

def unlock : Script Nat where
  steps := [.input pin]
  complete := none
  filled := rfl

def lock : Host Nat Nat where
  produce _ _ n := (⟨0, .ok ("Attempt " ++ toString n)⟩, n + 1)
  holds _ _ n := (⟨0, .ok true⟩, n + 1)
  accepts callback _ _ n := (⟨0, .ok (callback = 0)⟩, n + 1)
  complete _ _ n := (⟨0, .ok ()⟩, n + 1)

def locked : Session Nat :=
  { Session.fresh unlock .instant with state := ⟨[0], .awaitingInput, 1⟩ }

theorem locked_reprompted : locked.halted = false ∧ locked.state.phase = .awaitingInput ∧
    locked.script.stepAt? locked.state.position = some (.input pin) ∧
    ∃ r, locked.submitForTurn lock 2 0 "12a4" 1 = some r ∧
      locked.Reprompted "12a4" "Attempt 2" [⟨.validation, 0, .empty, "12a4"⟩,
        ⟨.validation, 1, .empty, "12a4"⟩, ⟨.text, 2, .empty, ""⟩] r := by
  have hh : locked.halted = false := rfl
  have hp : locked.state.phase = .awaitingInput := rfl
  have hs : locked.script.stepAt? locked.state.position = some (.input pin) := rfl
  have hfirst : Accepted lock "12a4" .empty
      [⟨none, .literal "None"⟩, ⟨some 0, .literal "Digits only"⟩] 0 1 :=
    .bare rfl (.accepts rfl rfl (.nil 1))
  have hjudged : Judged lock "12a4" .empty pin.rules 0 [0, 1]
      (.refused ⟨some 1, .computed 2⟩ 2) := .refused rfl hfirst rfl rfl
  exact ⟨hh, hp, hs, (submission_judged lock hh hp hs "12a4" 0).2 _ _ hjudged 0⟩

end Dialogue
