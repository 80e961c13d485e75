import Dialogue.Proofs.Moves
import Dialogue.Session.Run

/-!
# Carrying out effects

`carry` is what remains of a stage when some of its effects have been performed: the effects that
are left and the answer found so far. A stage is its transition followed by `carry` of all effects
(`react_of_ok`), and `carry` takes one effect at a time (`carry_cons_ok`, `carry_cons_error`), so
the stages of a session can be followed effect by effect.
-/

namespace Dialogue

variable {κ W : Type}

def Stage.after (stage : Stage κ W) (history : List (Occurrence κ)) : Stage κ W :=
  { stage with history := history ++ stage.history }

namespace Session

def carry (host : Host κ W) (effects : List (Effect κ)) (event : Option Event) (s : Session κ)
    (world : W) : Stage κ W :=
  let done := performAll host effects s world
  match done.outcome with
  | .error failure =>
    let halted := done.session.halt
    ⟨done.history ++ halted.told (.failed failure.message), halted.publish, done.world,
      .returns (.error (.callback failure))⟩
  | .ok answer =>
    match answer.or event with
    | some event => ⟨done.history, done.session, done.world, .again event⟩
    | none =>
      ⟨done.history, done.session, done.world,
        if done.session.state.phase = .running then .again .drive else .returns (.ok ())⟩

section
variable (host : Host κ W)

theorem react_of_ok {s : Session κ} {event : Event} {t : Transition κ}
    (h : transition s.script s.state event = .ok t) (world : W) :
    s.react host world event = carry host t.effects none { s with state := t.state } world := by
  unfold react carry
  rw [h]
  simp only [Option.or_none]
  generalize performAll host t.effects { s with state := t.state } world = done
  cases done.outcome with
  | error failure => rfl
  | ok answer => cases answer <;> rfl

theorem react_of_moves {s : Session κ} {event : Event} {t : Transition κ}
    (h : Moves s.script s.state event t) (world : W) :
    s.react host world event = carry host t.effects none { s with state := t.state } world :=
  react_of_ok host (moves_transition h) world

theorem react_of_error {s : Session κ} {event : Event} {r : Rejection}
    (h : transition s.script s.state event = .error r) (world : W) :
    s.react host world event = ⟨[], s, world, .returns (.error (.rejected r))⟩ := by
  unfold react
  rw [h]

theorem carry_nil_some (event : Event) (s : Session κ) (world : W) :
    carry host [] (some event) s world = ⟨[], s, world, .again event⟩ := rfl

theorem carry_nil_running {s : Session κ} (hp : s.state.phase = .running) (world : W) :
    carry host [] none s world = ⟨[], s, world, .again .drive⟩ := by
  simp [carry, performAll, hp]

theorem carry_nil_resting {s : Session κ} (hp : s.state.phase ≠ .running) (world : W) :
    carry host [] none s world = ⟨[], s, world, .returns (.ok ())⟩ := by
  simp [carry, performAll, hp]

theorem carry_nil (event : Option Event) (s : Session κ) (world : W) :
    ∃ next, carry host [] event s world = ⟨[], s, world, next⟩ ∧
      ∀ e, next ≠ .returns (.error e) := by
  cases event with
  | some event => exact ⟨_, carry_nil_some host event s world, nofun⟩
  | none =>
    by_cases hp : s.state.phase = .running
    · exact ⟨_, carry_nil_running host hp world, nofun⟩
    · exact ⟨_, carry_nil_resting host hp world, nofun⟩

theorem carry_cons_ok {s : Session κ} {world : W} {effect : Effect κ} {answer : Option Event}
    (h : (s.perform host world effect).outcome = .ok answer) (effects : List (Effect κ))
    (event : Option Event) :
    carry host (effect :: effects) event s world =
      (carry host effects (answer.or event) (s.perform host world effect).session
        (s.perform host world effect).world).after (s.perform host world effect).history := by
  unfold carry
  rw [performAll]
  simp only [h]
  generalize performAll host effects _ _ = later
  cases later.outcome with
  | error failure => simp [Except.map, Stage.after, List.append_assoc]
  | ok later' =>
    simp only [Except.map, Option.or_assoc]
    cases later'.or (answer.or event) <;> rfl

theorem carry_cons_error {s : Session κ} {world : W} {effect : Effect κ} {failure : Failure}
    (h : (s.perform host world effect).outcome = .error failure) (effects : List (Effect κ))
    (event : Option Event) :
    carry host (effect :: effects) event s world =
      let first := s.perform host world effect
      ⟨first.history ++ first.session.halt.told (.failed failure.message),
        first.session.halt.publish, first.world, .returns (.error (.callback failure))⟩ := by
  unfold carry
  rw [performAll]
  simp only [h]

end

end Session

section
variable {host : Host κ W} {s : Session κ}

theorem receive_halted (h : s.halted = true) (world : W) (event : Event) :
    s.receive host world event = ⟨[], s, world, .returns (.error .halted)⟩ := by
  simp [Session.receive, h]

theorem receive_live (h : s.halted = false) (world : W) (event : Event) :
    s.receive host world event = s.react host world event := by
  simp [Session.receive, h]

end

end Dialogue
