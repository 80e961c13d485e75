import Dialogue.Machine.Transition
import Dialogue.Proofs.Address

/-!
# Moves of the machine

The accepted transitions as a relation, one rule for each thing that can happen, with what the
step at the position has to be. `transition_ok_iff` says that the relation is the function; proofs
about transitions are case analyses on it.
-/

namespace Dialogue

variable {κ : Type}

inductive Moves (script : Script κ) (s : State) : Event → Transition κ → Prop
  | finish (hp : s.phase = .running) (h : script.stepAt? s.position = none) :
    Moves script s .drive
      ⟨{ s with phase := .completed }, [.runFormHook, .publishStatus .completed]⟩
  | produce {o : Output κ} (hp : s.phase = .running)
    (h : script.stepAt? s.position = some (.output o)) :
    Moves script s .drive ⟨{ s with phase := .resolvingText }, [.resolveText o.wording]⟩
  | present {i : Input κ} (hp : s.phase = .running)
    (h : script.stepAt? s.position = some (.input i)) :
    Moves script s .drive ⟨⟨s.position, .awaitingInput, s.prompts + 1⟩, [.publishStatus .waiting]⟩
  | ask {kind : BlockKind} {condition : κ} {children : List (Step κ)} {complete : Option κ}
    (hp : s.phase = .running)
    (h : script.stepAt? s.position = some (.block kind condition children complete)) :
    Moves script s .drive
      ⟨{ s with phase := .evaluatingCondition }, [.evaluateCondition condition]⟩
  | say {o : Output κ} {text : String} (hp : s.phase = .resolvingText)
    (h : script.stepAt? s.position = some (.output o)) :
    Moves script s (.textResolved text)
      ⟨{ s with phase := .settling }, [.appendMessage .bot text, .settleOutput o.wait o.complete]⟩
  | settle (hp : s.phase = .settling) : Moves script s .outputSettled (moveOn script s [])
  | enter (hp : s.phase = .evaluatingCondition) :
    Moves script s (.conditionEvaluated true) ⟨⟨s.position.descend, .running, s.prompts⟩, []⟩
  | leave {kind : BlockKind} {condition : κ} {children : List (Step κ)} {complete : Option κ}
    (hp : s.phase = .evaluatingCondition)
    (h : script.stepAt? s.position = some (.block kind condition children complete)) :
    Moves script s (.conditionEvaluated false) (moveOn script s (Effect.hooks kind.name complete))
  | submit {i : Input κ} {text : String} (hp : s.phase = .awaitingInput)
    (h : script.stepAt? s.position = some (.input i)) :
    Moves script s (.submitted text s.prompts)
      ⟨{ s with phase := .validating text },
        [.publishStatus .active, .appendMessage .user text, .validate i.rules text]⟩
  | accept {i : Input κ} {text : String} (hp : s.phase = .validating text)
    (h : script.stepAt? s.position = some (.input i)) :
    Moves script s .validationPassed
      (moveOn script s (.storeAnswer i.name text :: Effect.hooks "input" i.complete))
  | refuse {text errorText : String} (hp : s.phase = .validating text) :
    Moves script s (.validationFailed errorText)
      ⟨{ s with phase := .running }, [.appendMessage .bot errorText]⟩

theorem drive_moves (script : Script κ) {s : State} (hp : s.phase = .running) :
    Moves script s .drive (drive script s) := by
  unfold drive
  cases h : script.stepAt? s.position with
  | none => exact .finish hp h
  | some step =>
    cases step with
    | output o => exact .produce hp h
    | input i => exact .present hp h
    | block kind condition children complete => exact .ask hp h

theorem transition_moves {script : Script κ} {s : State} {event : Event} {t : Transition κ}
    (h : transition script s event = .ok t) : Moves script s event t := by
  unfold transition at h
  split at h
  · rename_i hp
    cases h; exact drive_moves script hp
  · rename_i hp
    split at h
    · rename_i hs; cases h; exact .say hp hs
    · cases h
  · rename_i hp
    cases h; exact .settle hp
  · rename_i hp
    cases h; exact .enter hp
  · rename_i hp
    split at h
    · rename_i hs; cases h; exact .leave hp hs
    · cases h
  · rename_i hp
    split at h
    · rename_i ht
      subst ht
      split at h
      · rename_i hs; cases h; exact .submit hp hs
      · cases h
    · cases h
  · cases h
  · rename_i hp
    split at h
    · rename_i hs; cases h; exact .accept hp hs
    · cases h
  · rename_i hp
    cases h; exact .refuse hp
  · cases h

theorem moves_transition {script : Script κ} {s : State} {event : Event} {t : Transition κ}
    (h : Moves script s event t) : transition script s event = .ok t := by
  cases h with
  | finish hp h => simp [transition, hp, drive, h]
  | produce hp h => simp [transition, hp, drive, h]
  | present hp h => simp [transition, hp, drive, h]
  | ask hp h => simp [transition, hp, drive, h]
  | say hp h => simp [transition, hp, h]
  | settle hp => simp [transition, hp]
  | enter hp => simp [transition, hp]
  | leave hp h => simp [transition, hp, h]
  | submit hp h => simp [transition, hp, h]
  | accept hp h => simp [transition, hp, h]
  | refuse hp => simp [transition, hp]

theorem transition_ok_iff {script : Script κ} {s : State} {event : Event} {t : Transition κ} :
    transition script s event = .ok t ↔ Moves script s event t :=
  ⟨transition_moves, moves_transition⟩

end Dialogue
