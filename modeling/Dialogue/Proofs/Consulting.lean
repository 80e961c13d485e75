import Dialogue.Session.Consult

/-!
# Consultations

A consultation is put together from single callbacks, one after another. What holds of single
callbacks and is kept when consultations are put together holds of wordings and of chains of rules.
-/

namespace Dialogue

variable {κ W α β : Type}

namespace Consulted

def map (f : α → β) (c : Consulted κ W α) : Consulted κ W β :=
  ⟨c.history, c.world, c.result.map f⟩

def bind (c : Consulted κ W α) (f : α → W → Consulted κ W β) : Consulted κ W β :=
  match c.result with
  | .ok a =>
    let later := f a c.world
    { later with history := c.history ++ later.history }
  | .error e => ⟨c.history, c.world, .error e⟩

theorem bind_ok {c : Consulted κ W α} {a : α} (h : c.result = .ok a)
    (f : α → W → Consulted κ W β) :
    c.bind f = { f a c.world with history := c.history ++ (f a c.world).history } := by
  rw [bind, h]

theorem bind_error {c : Consulted κ W α} {e : Role × String} (h : c.result = .error e)
    (f : α → W → Consulted κ W β) : c.bind f = ⟨c.history, c.world, .error e⟩ := by
  rw [bind, h]

end Consulted

theorem checkRules_cons (host : Host κ W) (text : String) (answers : Answers) (rule : Rule κ)
    (rules : List (Rule κ)) (world : W) : checkRules host text answers (rule :: rules) world =
      match rule.predicate with
      | none => checkRules host text answers rules world
      | some callback => (consultPredicate host callback text answers world).bind fun accepts w =>
        if accepts then checkRules host text answers rules w
        else (rule.errorText.resolve host answers w).map some := by
  rw [checkRules]
  cases rule.predicate with
  | none => rfl
  | some callback =>
    dsimp only [Consulted.bind]
    cases (consultPredicate host callback text answers world).result with
    | error e => rfl
    | ok accepts => cases accepts <;> rfl

/-! ## Closed properties -/

/-- A property that consultations keep when they are put together from callbacks that are allowed
in their roles. -/
structure Consulted.Closed (allowed : Role → κ → Prop)
    (P : ∀ α : Type, Consulted κ W α → Prop) : Prop where
  done {α : Type} (a : α) (world : W) : P α ⟨[], world, .ok a⟩
  called {α : Type} (call : Call κ) (record : α → Value) (answer : Reply α × W) :
    allowed call.role call.callback → P α (consult call record answer)
  map {α β : Type} {c : Consulted κ W α} (f : α → β) : P α c → P β (c.map f)
  bind {α β : Type} {c : Consulted κ W α} {f : α → W → Consulted κ W β} : P α c →
    (∀ a w, P β (f a w)) → P β (c.bind f)

namespace Consulted.Closed

variable {allowed : Role → κ → Prop} {P : ∀ α : Type, Consulted κ W α → Prop}

theorem wording (hP : Closed allowed P) (host : Host κ W) (answers : Answers) {wording : Wording κ}
    (h : ∀ callback, wording = .computed callback → allowed .text callback) (world : W) :
    P String (wording.resolve host answers world) := by
  cases wording with
  | literal text => exact hP.done text world
  | computed callback => exact hP.called _ _ _ (h callback rfl)

theorem rules (hP : Closed allowed P) (host : Host κ W) (text : String) (answers : Answers) :
    ∀ {rules : List (Rule κ)},
      (∀ rule ∈ rules, ∀ callback, rule.predicate = some callback →
        allowed .validation callback) →
      (∀ rule ∈ rules, ∀ callback, rule.errorText = .computed callback → allowed .text callback) →
        ∀ world : W, P (Option String) (checkRules host text answers rules world)
  | [], _, _, world => hP.done none world
  | rule :: rules, hpredicates, htexts, world => by
    obtain ⟨hpredicate, hpredicates⟩ := List.forall_mem_cons.mp hpredicates
    obtain ⟨htext, htexts⟩ := List.forall_mem_cons.mp htexts
    have ih := hP.rules host text answers hpredicates htexts
    rw [checkRules_cons]
    cases hr : rule.predicate with
    | none => exact ih world
    | some callback =>
      refine hP.bind (hP.called _ _ _ (hpredicate callback hr)) fun accepts w => ?_
      cases accepts with
      | true => exact ih w
      | false => exact hP.map some (hP.wording host answers htext w)

end Consulted.Closed

/-- What holds of all that occurs in a consultation. -/
theorem closed_forall {allowed : Role → κ → Prop} {Q : Occurrence κ → Prop}
    (hcalled : ∀ call value, allowed call.role call.callback → Q (.called call value))
    (hslept : ∀ millis, Q (.slept millis)) :
    Consulted.Closed allowed fun α (c : Consulted κ W α) => ∀ o ∈ c.history, Q o where
  done _ _ := nofun
  called call _ _ h := List.forall_mem_cons.mpr
    ⟨hcalled call _ h, List.forall_mem_singleton.mpr (hslept _)⟩
  map _ h := h
  bind {_ _ c f} hc hf := by
    cases h : c.result with
    | ok a =>
      rw [Consulted.bind_ok h]
      exact List.forall_mem_append.mpr ⟨hc, hf a c.world⟩
    | error e =>
      rw [Consulted.bind_error h]
      exact hc

end Dialogue
