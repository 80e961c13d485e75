import Dialogue.Proofs.Placement

/-!
# Idle bodies

The steps inside a block whose condition never holds are without influence. Two scripts that differ
only in them are looked up alike from everywhere outside the block, so outside it the machine makes
the same moves and calls the same callbacks; and only that condition leads inside.
-/

namespace Dialogue

open Position

variable {κ W α : Type}

/-! ## Scripts that vary inside one block -/

/-- The steps differ at most in the body of the block at the position. -/
inductive Varies : Position → List (Step κ) → List (Step κ) → Prop
  | here (before after : List (Step κ)) (kind : BlockKind) (condition : κ)
    (body body' : List (Step κ)) (complete : Option κ) :
    Varies [before.length] (before ++ .block kind condition body complete :: after)
      (before ++ .block kind condition body' complete :: after)
  | inside {p : Position} {body body' : List (Step κ)} (before after : List (Step κ))
    (kind : BlockKind) (condition : κ) (complete : Option κ) : Varies p body body' →
    Varies (before.length :: p) (before ++ .block kind condition body complete :: after)
      (before ++ .block kind condition body' complete :: after)

/-- What is seen of a step from outside it: of a block, all but its body. -/
inductive Faces : Option (Step κ) → Option (Step κ) → Prop
  | same (found : Option (Step κ)) : Faces found found
  | block (kind : BlockKind) (condition : κ) (body body' : List (Step κ)) (complete : Option κ) :
    Faces (some (.block kind condition body complete)) (some (.block kind condition body' complete))

namespace Faces

variable {found found' : Option (Step κ)}

theorem isSome_eq (h : Faces found found') : found.isSome = found'.isSome := by
  cases h <;> rfl

theorem isBranch_eq (h : Faces found found') :
    found.any Step.isBranch = found'.any Step.isBranch := by
  cases h with
  | same => rfl
  | block kind => cases kind <;> rfl

theorem complete_eq (h : Faces found found') :
    found.bind Step.complete? = found'.bind Step.complete? := by
  cases h <;> rfl

end Faces

theorem getElem?_middle_ne (before after : List α) (a b : α) {i : Nat} (hi : i ≠ before.length) :
    (before ++ a :: after)[i]? = (before ++ b :: after)[i]? := by
  rcases Nat.lt_or_ge i before.length with hlt | hge
  · rw [List.getElem?_append_left hlt, List.getElem?_append_left hlt]
  · obtain ⟨k, hk⟩ : ∃ k, i - before.length = k + 1 := ⟨i - before.length - 1, by omega⟩
    rw [List.getElem?_append_right hge, List.getElem?_append_right hge, hk,
      List.getElem?_cons_succ, List.getElem?_cons_succ]

theorem lookup_cons_congr {steps steps' : List (Step κ)} {i : Nat} (h : steps[i]? = steps'[i]?)
    (path : Position) : lookup steps (i :: path) = lookup steps' (i :: path) := by
  rw [lookup, lookup, h]

theorem Position.inside_cons (i : Nat) (q p : Position) :
    Inside (i :: q) (i :: p) ↔ q.Inside p := by
  simp [Inside, List.cons_prefix_cons]

section
variable {p q : Position} {steps steps' : List (Step κ)}

theorem Varies.lookup_faces (h : Varies p steps steps') (hq : ¬ q.Inside p) :
    Faces (lookup steps q) (lookup steps' q) := by
  induction h generalizing q with
  | here before after kind condition body body' complete =>
    cases q with
    | nil => exact .same none
    | cons i path =>
      by_cases hi : i = before.length
      · subst hi
        cases path with
        | nil => simpa [lookup, Step.children?] using Faces.block kind condition body body' complete
        | cons j path =>
          rw [inside_cons] at hq
          exact absurd ⟨List.nil_prefix, (List.cons_ne_nil j path).symm⟩ hq
      · rw [lookup_cons_congr (getElem?_middle_ne before after _ _ hi)]
        exact .same _
  | inside before after kind condition complete _ ih =>
    cases q with
    | nil => exact .same none
    | cons i path =>
      by_cases hi : i = before.length
      · subst hi
        rw [inside_cons] at hq
        cases path with
        | nil => simpa [lookup, Step.children?] using Faces.block kind condition _ _ complete
        | cons j path => simpa [lookup, Step.children?] using ih hq
      · rw [lookup_cons_congr (getElem?_middle_ne before after _ _ hi)]
        exact .same _

theorem Varies.ne_nil (h : Varies p steps steps') : p ≠ [] := by
  cases h <;> exact List.cons_ne_nil _ _

theorem not_inside_snoc {i j : Nat} (h : ¬ Inside (q ++ [i]) p) :
    ¬ Inside (q ++ [j]) p ∧ ¬ q.Inside p := by
  rw [inside_snoc, not_or] at h ⊢
  exact ⟨h, h.2⟩

theorem Varies.climb_eq (h : Varies p steps steps') : ∀ {up : List Nat},
    ¬ Inside up.reverse p → climb steps up = climb steps' up
  | [], _ => rfl
  | i :: up, hq => by
    rw [List.reverse_cons] at hq
    obtain ⟨hsibling, hparent⟩ := not_inside_snoc (j := i + 1) hq
    rw [← List.reverse_cons] at hsibling
    simp only [climb, (h.lookup_faces hsibling).isSome_eq, (h.lookup_faces hparent).isBranch_eq,
      h.climb_eq hparent]

theorem climb_outside (steps : List (Step κ)) : ∀ {up : List Nat}, ¬ Inside up.reverse p →
    ¬ (climb steps up).next.Inside p ∧ ∀ q ∈ (climb steps up).exited, ¬ q.Inside p
  | [], hq => ⟨hq, List.forall_mem_nil _⟩
  | i :: up, hq => by
    rw [List.reverse_cons] at hq
    obtain ⟨hsibling, hparent⟩ := not_inside_snoc (j := i + 1) hq
    rw [← List.reverse_cons] at hsibling
    obtain ⟨hnext, hexited⟩ := climb_outside steps hparent
    simp only [climb]
    split
    · exact ⟨hsibling, List.forall_mem_nil _⟩
    · split
      · exact ⟨hnext, List.forall_mem_cons.mpr ⟨hparent, hexited⟩⟩
      · exact ⟨hparent, List.forall_mem_nil _⟩

theorem Varies.advance_eq (h : Varies p steps steps') (hq : ¬ q.Inside p) :
    advance steps q = advance steps' q :=
  h.climb_eq (by rwa [List.reverse_reverse])

theorem advance_outside (steps : List (Step κ)) (hq : ¬ q.Inside p) :
    ¬ (advance steps q).next.Inside p ∧ ∀ r ∈ (advance steps q).exited, ¬ r.Inside p :=
  climb_outside steps (by rwa [List.reverse_reverse])

end

structure Script.Varies (p : Position) (script script' : Script κ) : Prop where
  steps : Dialogue.Varies p script.steps script'.steps
  complete : script'.complete = script.complete

/-! ## The machine outside the block -/

section
variable {p q : Position} {script script' : Script κ} {s : State} {event : Event}
  {t : Transition κ} {effect : Effect κ} {role : Role} {callback : κ}

theorem Script.Varies.stepAt?_faces (h : script.Varies p script') (hq : ¬ q.Inside p) :
    Faces (script.stepAt? q) (script'.stepAt? q) :=
  h.steps.lookup_faces hq

theorem Script.Varies.exitHooks_eq (h : script.Varies p script') : ∀ {exited : List Position},
    (∀ q ∈ exited, ¬ q.Inside p) → exitHooks script exited = exitHooks script' exited
  | [], _ => rfl
  | q :: exited, hq => by
    obtain ⟨hhead, hrest⟩ := List.forall_mem_cons.mp hq
    have ih := h.exitHooks_eq hrest
    rw [exitHooks, exitHooks] at ih
    rw [exitHooks, exitHooks, List.flatMap_cons, List.flatMap_cons, ih,
      (h.stepAt?_faces hhead).complete_eq]

theorem Script.Varies.moveOn_eq (h : script.Varies p script') (hs : ¬ s.position.Inside p)
    (finish : List (Effect κ)) : moveOn script s finish = moveOn script' s finish := by
  have hexited := h.exitHooks_eq (advance_outside script.steps hs).2
  simp only [moveOn, hexited, ← h.steps.advance_eq hs]

theorem Script.Varies.drive_eq (h : script.Varies p script') (hs : ¬ s.position.Inside p) :
    drive script s = drive script' s := by
  have hf := h.stepAt?_faces hs
  unfold drive
  generalize script.stepAt? s.position = found at hf ⊢
  generalize script'.stepAt? s.position = found' at hf ⊢
  cases hf <;> rfl

theorem Script.Varies.transition_eq (h : script.Varies p script') (hs : ¬ s.position.Inside p)
    (event : Event) : transition script s event = transition script' s event := by
  have hf := h.stepAt?_faces hs
  unfold transition
  simp only [h.moveOn_eq hs, h.drive_eq hs]
  generalize script.stepAt? s.position = found at hf ⊢
  generalize script'.stepAt? s.position = found' at hf ⊢
  cases hf with
  | same => rfl
  | block => split <;> rfl

theorem moves_outside (h : Moves script s event t) (hs : ¬ s.position.Inside p)
    (hidle : ¬ (s.position = p ∧ event = .conditionEvaluated true)) :
    ¬ t.state.position.Inside p := by
  have hnext := (advance_outside script.steps hs).1
  cases h with
  | enter =>
    simp only [descend, child, inside_snoc, not_or]
    exact ⟨fun hp => hidle ⟨hp.symm, rfl⟩, hs⟩
  | settle => exact hnext
  | leave => exact hnext
  | accept => exact hnext
  | _ => exact hs

theorem closes_outside (hs : ¬ s.position.Inside p) :
    ∀ q ∈ s.closes script event, ¬ q.Inside p := by
  have hexited := (advance_outside script.steps hs).2
  unfold State.closes
  split
  · exact hexited
  · exact List.forall_mem_cons.mpr ⟨hs, hexited⟩
  · exact List.forall_mem_cons.mpr ⟨hs, hexited⟩
  · exact nofun

theorem moves_calls_outside (hw : s.WellFormed script) (h : Moves script s event t)
    (hs : ¬ s.position.Inside p) (hmem : effect ∈ t.effects)
    (hc : script.Calls effect role callback) :
    ∃ q, ¬ q.Inside p ∧ script.Has q role callback := by
  obtain ⟨done, left, hsplit⟩ := List.append_of_mem hmem
  obtain ⟨q, hq, hhas, -⟩ := moves_concerns hw h hsplit hc
  refine ⟨q, ?_, hhas⟩
  cases hq with
  | own => exact hs
  | closed hclosed =>
    exact closes_outside hs q (by rw [hclosed]; exact List.mem_append_right _ List.mem_cons_self)

end

/-! ## Hosts that agree on callbacks -/

def Host.Matches (host host' : Host κ W) (callback : κ) : Role → Prop
  | .text => host.produce callback = host'.produce callback
  | .condition => host.holds callback = host'.holds callback
  | .validation => host.accepts callback = host'.accepts callback
  | .hook => host.complete callback = host'.complete callback

/-- The hosts agree on the callbacks of all steps that are not inside the block. -/
def Host.MatchesOutside (host host' : Host κ W) (p : Position) (script : Script κ) : Prop :=
  ∀ q role callback, ¬ q.Inside p → script.Has q role callback → host.Matches host' callback role

section
variable {host host' : Host κ W}

theorem resolve_matches {wording : Wording κ}
    (h : ∀ callback, wording = .computed callback → host.Matches host' callback .text)
    (answers : Answers) (world : W) :
    wording.resolve host' answers world = wording.resolve host answers world := by
  cases wording with
  | literal text => rfl
  | computed callback =>
    have hm : host.produce callback = host'.produce callback := h callback rfl
    rw [Wording.resolve, Wording.resolve, hm]

theorem checkRules_matches (text : String) (answers : Answers) : ∀ {rules : List (Rule κ)},
    (∀ rule ∈ rules, ∀ callback, rule.predicate = some callback →
      host.Matches host' callback .validation) →
    (∀ rule ∈ rules, ∀ callback, rule.errorText = .computed callback →
      host.Matches host' callback .text) →
      ∀ world : W, checkRules host' text answers rules world =
        checkRules host text answers rules world
  | [], _, _, _ => rfl
  | rule :: rules, hp, ht, world => by
    obtain ⟨hpredicate, hp⟩ := List.forall_mem_cons.mp hp
    obtain ⟨htext, ht⟩ := List.forall_mem_cons.mp ht
    have ih := fun w => checkRules_matches text answers hp ht w
    rw [checkRules_cons, checkRules_cons]
    cases hr : rule.predicate with
    | none => exact ih world
    | some callback =>
      have hm : host.accepts callback = host'.accepts callback := hpredicate callback hr
      have htold := fun w => resolve_matches htext answers w
      simp only [consultPredicate, hm, ih, htold]

theorem settleOutput_matches {complete : Option κ}
    (h : ∀ callback, complete = some callback → host.Matches host' callback .hook) (pause : Nat)
    (answers : Answers) (world : W) :
    settleOutput host' pause complete answers world =
      settleOutput host pause complete answers world := by
  cases complete with
  | none => rfl
  | some callback =>
    have hm : host.complete callback = host'.complete callback := h callback rfl
    rw [settleOutput, settleOutput, hm]

end

/-! ## Sessions under another script -/

def Session.recast (s : Session κ) (script : Script κ) : Session κ :=
  { s with script := script }

def Performed.recast (d : Performed κ W) (script : Script κ) : Performed κ W :=
  { d with session := d.session.recast script }

def Stage.recast (stage : Stage κ W) (script : Script κ) : Stage κ W :=
  { stage with session := stage.session.recast script }

def Conversation.recast (c : Conversation κ W) (script : Script κ) : Conversation κ W :=
  { c with session := c.session.recast script }

section
variable {host host' : Host κ W} {s : Session κ} {script' : Script κ}

theorem perform_recast {effect : Effect κ} (hc : script'.complete = s.script.complete)
    (h : ∀ role callback, s.script.Calls effect role callback → host.Matches host' callback role)
    (world : W) : (s.recast script').perform host' world effect =
      (s.perform host world effect).recast script' := by
  cases effect with
  | resolveText wording =>
    cases wording with
    | none => rfl
    | some wording =>
      have hm : wording.resolve host' s.answers world = wording.resolve host s.answers world := by
        refine resolve_matches (fun callback hw => ?_) s.answers world
        subst hw
        exact h _ _ (.text callback)
      simp only [Session.perform, Session.recast, hm]
      rfl
  | settleOutput wait complete =>
    have hm : settleOutput host' (s.pause wait) complete s.answers world =
        settleOutput host (s.pause wait) complete s.answers world := by
      refine settleOutput_matches (fun callback hw => ?_) _ _ world
      subst hw
      exact h _ _ (.output wait callback)
    exact congrArg (Session.conclude (s.recast script') · fun _ => some .outputSettled) hm
  | evaluateCondition condition =>
    have hm : host.holds condition = host'.holds condition := h _ _ (.condition condition)
    simp only [Session.perform, consultCondition, ← hm]
    rfl
  | validate rules text =>
    have hm : checkRules host' text s.answers rules world =
        checkRules host text s.answers rules world :=
      checkRules_matches text s.answers (fun rule hr callback hp => h _ _ (.predicate text hr hp))
        (fun rule hr callback hp => h _ _ (.errorText text hr hp)) world
    simp only [Session.perform, Session.recast, hm]
    rfl
  | runHook callback step =>
    have hm : host.complete callback = host'.complete callback := h _ _ (.hook callback step)
    simp only [Session.perform, consultHook, ← hm]
    rfl
  | runFormHook =>
    have hc' : (s.recast script').script.complete = s.script.complete := hc
    unfold Session.perform
    simp only [hc']
    cases hs : s.script.complete with
    | none => rfl
    | some callback =>
      have hm : host.complete callback = host'.complete callback := h _ _ (.complete hs)
      simp only [consultHook, ← hm]
      rfl
  | _ => rfl

theorem carry_recast : ∀ {effects : List (Effect κ)} (event : Option Event) {s : Session κ}
    (world : W), script'.complete = s.script.complete →
    (∀ effect ∈ effects, ∀ role callback, s.script.Calls effect role callback →
      host.Matches host' callback role) →
    Session.carry host' effects event (s.recast script') world =
      (Session.carry host effects event s world).recast script'
  | [], some event, _, _, _, _ => rfl
  | [], none, s, world, _, _ => by
    have hp : (s.recast script').state = s.state := rfl
    by_cases hr : s.state.phase = .running
    · rw [Session.carry_nil_running host hr, Session.carry_nil_running host' (hp ▸ hr)]
      rfl
    · rw [Session.carry_nil_resting host hr, Session.carry_nil_resting host' (hp ▸ hr)]
      rfl
  | effect :: effects, event, s, world, hc, h => by
    obtain ⟨hfirst, hrest⟩ := List.forall_mem_cons.mp h
    have hkept : (s.perform host world effect).session.script = s.script :=
      (Session.perform_grows host s world effect).script
    have hperform := perform_recast hc hfirst world
    have houtcome : ((s.recast script').perform host' world effect).outcome =
        (s.perform host world effect).outcome := by
      rw [hperform]
      rfl
    cases ho : (s.perform host world effect).outcome with
    | error failure =>
      rw [Session.carry_cons_error host ho, Session.carry_cons_error host' (houtcome.trans ho),
        hperform]
      rfl
    | ok answer =>
      have hc' : script'.complete = (s.perform host world effect).session.script.complete := by
        rw [hkept, hc]
      have ih := carry_recast (answer.or event) (s.perform host world effect).world hc'
        (by rw [hkept]; exact hrest)
      rw [Session.carry_cons_ok host ho, Session.carry_cons_ok host' (houtcome.trans ho), hperform]
      exact congrArg (Stage.after · (s.perform host world effect).history) ih

theorem react_recast {p : Position} (hs : ¬ s.state.position.Inside p)
    (hv : s.script.Varies p script') (hw : s.state.WellFormed s.script)
    (hm : host.MatchesOutside host' p s.script) (world : W) (event : Event) :
    (s.recast script').react host' world event = (s.react host world event).recast script' := by
  have ht : transition (s.recast script').script (s.recast script').state event =
      transition s.script s.state event := (hv.transition_eq hs event).symm
  cases h : transition s.script s.state event with
  | error rejection =>
    rw [Session.react_of_error host h, Session.react_of_error host' (ht.trans h)]
    rfl
  | ok t =>
    rw [Session.react_of_ok host h, Session.react_of_ok host' (ht.trans h)]
    refine carry_recast none (s := { s with state := t.state }) world hv.complete ?_
    intro effect hmem role callback hc
    obtain ⟨q, hq, hhas⟩ := moves_calls_outside hw (transition_moves h) hs hmem hc
    exact hm q role callback hq hhas

theorem receive_recast {p : Position} (hs : ¬ s.state.position.Inside p)
    (hv : s.script.Varies p script') (hw : s.state.WellFormed s.script)
    (hm : host.MatchesOutside host' p s.script) (world : W) (event : Event) :
    (s.recast script').receive host' world event = (s.receive host world event).recast script' := by
  cases hh : s.halted with
  | true =>
    rw [receive_halted hh, receive_halted (s := s.recast script') hh]
    rfl
  | false =>
    rw [receive_live hh, receive_live (s := s.recast script') hh, react_recast hs hv hw hm]

theorem entered_recast {p : Position} (hs : ¬ s.state.position.Inside p)
    (hv : s.script.Varies p script') (event : Event) :
    (s.recast script').entered event = s.entered event := by
  have ht : transition (s.recast script').script (s.recast script').state event =
      transition s.script s.state event := (hv.transition_eq hs event).symm
  unfold Session.entered
  rw [ht]
  rfl

end

/-! ## The whole conversation -/

namespace Conversation

variable {host host' : Host κ W} {p : Position} {script script' : Script κ}
  {c : Conversation κ W}

theorem next_recast (hg : c.Going script) (hs : ¬ c.session.state.position.Inside p)
    (hv : script.Varies p script') (hm : host.MatchesOutside host' p script) :
    (c.recast script').next host' = (c.next host).recast script' := by
  obtain rfl := hg.kept
  have he : (c.recast script').event? = c.event? := rfl
  rw [next, next, he]
  cases c.event? with
  | none => rfl
  | some taken =>
    obtain ⟨event, requests⟩ := taken
    have hreceive := receive_recast hs hv hg.reachable.wellFormed hm c.world event
    have hentered := entered_recast hs hv event
    simp only [recast] at hreceive hentered ⊢
    simp only [hreceive, hentered]
    rfl

/-- As long as the condition of the block does not hold, control does not get inside. -/
theorem next_outside (hs : ¬ c.session.state.position.Inside p)
    (hidle : (c.next host).chronicle.decisions p true = 0) :
    ¬ (c.next host).session.state.position.Inside p := by
  have hturn := next_turn host c
  generalize c.next host = c' at hturn hidle ⊢
  cases hturn with
  | idle => exact hs
  | declined => exact hs
  | @taken event requests t he hh ht =>
    have hstate := (Session.react_grows host ht c.world).state
    have hin : ¬ (c.session.state.position = p ∧ event = .conditionEvaluated true) := by
      intro hin
      simp only [staged, Chronicle.decisions_cons, if_pos hin] at hidle
      omega
    simp only [staged, hstate]
    exact moves_outside (transition_moves ht) hs hin

theorem idle_of_next (hidle : (c.next host).chronicle.decisions p true = 0) :
    c.chronicle.decisions p true = 0 := by
  have hturn := next_turn host c
  generalize c.next host = c' at hturn hidle
  cases hturn with
  | idle => exact hidle
  | declined => exact hidle
  | taken =>
    simp only [staged, Chronicle.decisions_cons] at hidle
    omega

theorem after_recast (hg : c.Going script) (hs : ¬ c.session.state.position.Inside p)
    (hv : script.Varies p script') (hm : host.MatchesOutside host' p script) : ∀ {n : Nat},
    (c.after host n).chronicle.decisions p true = 0 →
      ¬ (c.after host n).session.state.position.Inside p ∧
        (c.recast script').after host' n = (c.after host n).recast script'
  | 0, _ => ⟨hs, rfl⟩
  | n + 1, hidle => by
    -- the next turn is the same because control is outside up to here
    obtain ⟨hout, ih⟩ := after_recast hg hs hv hm (idle_of_next hidle)
    refine ⟨next_outside hout hidle, ?_⟩
    rw [after, ih, next_recast (after_going host hg n) hout hv hm]
    rfl

end Conversation

/-- **Idle bodies.** As long as the condition of a block does not hold, the conversation goes on as
it would with any other body in the block, and with any other answers to the callbacks in there:
the same marks and accepted events, the same requests left, and the same session but for its
script. -/
theorem idle_body_without_influence {host host' : Host κ W} {script script' : Script κ}
    {p : Position} (hv : script.Varies p script') (hm : host.MatchesOutside host' p script)
    (settings : Settings) (world : W) (requests : List Request) (n : Nat)
    (hidle : ((Conversation.opened script settings world requests).after host n).chronicle.decisions
      p true = 0) :
    (Conversation.opened script' settings world requests).after host' n =
      ((Conversation.opened script settings world requests).after host n).recast script' := by
  have hout : ¬ Position.start.Inside p := by
    intro hin
    have hlt := hin.length_lt
    have hne := hv.steps.ne_nil
    rw [start, List.length_singleton, Nat.lt_one_iff] at hlt
    exact hne (List.eq_nil_of_length_eq_zero hlt)
  exact (Conversation.after_recast (Conversation.opened_going script settings world requests) hout
    hv hm hidle).2

def pets (wording : Wording Nat) : Script Nat where
  steps := [.block .loop 0 [.input ⟨"pet", [], none⟩,
    .block .branch 1 [.output ⟨some wording, .zero, none⟩] (some 2)] none]
  complete := none
  filled := rfl

def enteringOnce (spoken : Reply String) : Host Nat Nat where
  produce _ _ n := (spoken, n + 1)
  holds callback answers n := (⟨5, .ok (callback == 0 && answers.isEmpty)⟩, n + 1)
  accepts _ _ _ n := (⟨0, .ok true⟩, n + 1)
  complete _ _ n := (⟨7, .ok ()⟩, n + 1)

theorem pets_silent (text : String) {q : Position} {callback : Nat} :
    ¬ (pets (.literal text)).Has q .text callback := by
  intro h
  cases h with
  | step hq h =>
    rcases q with _ | ⟨_ | i, _ | ⟨_ | _ | j, _ | ⟨_ | k, _ | ⟨l, q⟩⟩⟩⟩ <;> cases hq
    all_goals cases h
    · rename_i hr _
      cases hr
    · rename_i hw
      cases hw

theorem pets_idle :
    let c := (Conversation.opened (pets (.literal "Good")) .instant 0 [.start, .submit "cat"]).after
      (enteringOnce ⟨0, .ok ""⟩) 12
    let c' := (Conversation.opened (pets (.computed 3)) .instant 0 [.start, .submit "cat"]).after
      (enteringOnce ⟨9, .error "out of order"⟩) 12
    c' = c.recast (pets (.computed 3)) ∧ c.session.state = ⟨[1], .completed, 1⟩ := by
  intro c c'
  have hv : (pets (.literal "Good")).Varies [0, 1] (pets (.computed 3)) :=
    ⟨.inside [] [] _ _ _ (.here [_] [] _ _ _ _ _), rfl⟩
  have hm : (enteringOnce ⟨0, .ok ""⟩).MatchesOutside (enteringOnce ⟨9, .error "out of order"⟩)
      [0, 1] (pets (.literal "Good")) := by
    intro q role callback hq hhas
    cases role with
    | text => exact absurd hhas (pets_silent _)
    | _ => rfl
  exact ⟨idle_body_without_influence hv hm .instant 0 _ 12 (by decide), by decide⟩

end Dialogue
