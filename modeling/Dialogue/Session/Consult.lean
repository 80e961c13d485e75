import Dialogue.Session.Report

/-!
# Consulting callbacks

How the callbacks of a script are put to its host: a single one, a wording, the rules of an input
one after another, and the callback of an output together with its pause.
-/

namespace Dialogue

structure Consulted (κ W α : Type) where
  history : List (Occurrence κ)
  world : W
  result : Except (Role × String) α

variable {κ W α : Type}

def consultFor (call : Call κ) (record : α → Value) (reply : Reply α) (millis : Nat) (world : W) :
    Consulted κ W α :=
  ⟨[.called call (reply.map record), .slept millis], world,
    reply.result.mapError (call.role, ·)⟩

def consult (call : Call κ) (record : α → Value) (answer : Reply α × W) : Consulted κ W α :=
  consultFor call record answer.1 answer.1.sleep answer.2

def consultHook (host : Host κ W) (callback : κ) (answers : Answers) (world : W) :
    Consulted κ W Unit :=
  consult ⟨.hook, callback, answers, ""⟩ (fun _ => .done) (host.complete callback answers world)

def consultCondition (host : Host κ W) (callback : κ) (answers : Answers) (world : W) :
    Consulted κ W Bool :=
  consult ⟨.condition, callback, answers, ""⟩ .truth (host.holds callback answers world)

def consultPredicate (host : Host κ W) (callback : κ) (text : String) (answers : Answers)
    (world : W) : Consulted κ W Bool :=
  consult ⟨.validation, callback, answers, text⟩ .truth (host.accepts callback text answers world)

def Wording.resolve (host : Host κ W) (wording : Wording κ) (answers : Answers) (world : W) :
    Consulted κ W String :=
  match wording with
  | .literal text => ⟨[], world, .ok text⟩
  | .computed callback =>
    consult ⟨.text, callback, answers, ""⟩ .text (host.produce callback answers world)

/-- Puts a text to the rules in order. The first one that rejects it ends the chain, with its error
text as the result; a rule without a predicate is passed over. -/
def checkRules (host : Host κ W) (text : String) (answers : Answers) :
    List (Rule κ) → W → Consulted κ W (Option String)
  | [], world => ⟨[], world, .ok none⟩
  | rule :: rules, world =>
    match rule.predicate with
    | none => checkRules host text answers rules world
    | some callback =>
      let verdict := consultPredicate host callback text answers world
      match verdict.result with
      | .error e => ⟨verdict.history, verdict.world, .error e⟩
      | .ok true =>
        let later := checkRules host text answers rules verdict.world
        { later with history := verdict.history ++ later.history }
      | .ok false =>
        let told := rule.errorText.resolve host answers verdict.world
        ⟨verdict.history ++ told.history, told.world, told.result.map some⟩

/-- The callback of an output runs while its pause goes on. Both are waited for, unless the
callback fails: then the rest of the pause is given up. -/
def settleOutput (host : Host κ W) (pause : Nat) (complete : Option κ) (answers : Answers)
    (world : W) : Consulted κ W Unit :=
  match complete with
  | none => ⟨[.slept pause], world, .ok ()⟩
  | some callback =>
    let (reply, world) := host.complete callback answers world
    let millis := match reply.result with
      | .ok _ => max reply.sleep pause
      | .error _ => reply.sleep
    consultFor ⟨.hook, callback, answers, ""⟩ (fun _ => .done) reply millis world

end Dialogue
