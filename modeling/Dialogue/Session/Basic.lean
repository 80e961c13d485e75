import Dialogue.Session.Consult
import Dialogue.Settings

/-!
# Sessions

One conversation as it is carried on: the state of the machine, what has been said and answered,
and whether a callback has failed, which ends it for good. Effects are performed in order; the
first failure halts the session and leaves out the rest of them. Main operations: `react`, which
takes one event, and `receive`, which opens a call.
-/

namespace Dialogue

structure Session (κ : Type) where
  script : Script κ
  settings : Settings
  state : State
  answers : Answers
  transcript : Transcript
  halted : Bool
  published : View

variable {κ W : Type}

namespace Session

def view (s : Session κ) : View :=
  ⟨s.state.status, s.state.position, s.state.prompts, s.transcript, s.answers, s.halted⟩

def fresh (script : Script κ) (settings : Settings) : Session κ :=
  let blank : View := ⟨.active, .start, 0, [], .empty, false⟩
  ⟨script, settings, .initial, .empty, [], false, blank⟩

def publish (s : Session κ) : Session κ :=
  { s with published := s.view }

/-- The history of a change that observers are told of: the notice, then the new view. -/
def told (s : Session κ) (notice : Notice) : List (Occurrence κ) :=
  [.notified notice, .published s.view]

def pause (s : Session κ) (wait : Duration) : Nat :=
  (s.settings.scaledWait wait).ceilMillis

end Session

/-! ## Performing effects -/

structure Performed (κ W : Type) where
  history : List (Occurrence κ)
  session : Session κ
  world : W
  outcome : Except Failure (Option Event)

namespace Session

/-- A consultation that leaves the session as it is. A failure is placed where the session is. -/
def conclude {α : Type} (s : Session κ) (c : Consulted κ W α) (answer : α → Option Event) :
    Performed κ W :=
  ⟨c.history, s, c.world,
    match c.result with
    | .ok a => .ok (answer a)
    | .error (role, source) => .error ⟨role, s.state.position, source⟩⟩

def announce (s : Session κ) (world : W) (notice : Notice) : Performed κ W :=
  ⟨s.told notice, s.publish, world, .ok none⟩

def perform (host : Host κ W) (s : Session κ) (world : W) : Effect κ → Performed κ W
  | .resolveText none => ⟨[], s, world, .ok (some (.textResolved ""))⟩
  | .resolveText (some wording) =>
    s.conclude (wording.resolve host s.answers world) fun text => some (.textResolved text)
  | .appendMessage speaker text =>
    let message := s.transcript.next speaker text
    announce { s with transcript := s.transcript.add speaker text } world (.message message)
  | .settleOutput wait complete =>
    s.conclude (settleOutput host (s.pause wait) complete s.answers world)
      fun _ => some .outputSettled
  | .evaluateCondition condition =>
    s.conclude (consultCondition host condition s.answers world)
      fun holds => some (.conditionEvaluated holds)
  | .validate rules text =>
    s.conclude (checkRules host text s.answers rules world) fun
      | none => some .validationPassed
      | some errorText => some (.validationFailed errorText)
  | .storeAnswer name value =>
    announce { s with answers := s.answers.push name value } world (.answerStored name value)
  | .runHook callback _ =>
    s.conclude (consultHook host callback s.answers world) fun _ => none
  | .runFormHook =>
    match s.script.complete with
    | none => ⟨[], s, world, .ok none⟩
    | some callback => s.conclude (consultHook host callback s.answers world) fun _ => none
  | .publishStatus status => announce s world (.statusChanged status)

/-- Performs effects in order up to the first failure. Of several events that answer them the last
one counts. -/
def performAll (host : Host κ W) : List (Effect κ) → Session κ → W → Performed κ W
  | [], s, world => ⟨[], s, world, .ok none⟩
  | effect :: effects, s, world =>
    let first := s.perform host world effect
    match first.outcome with
    | .error _ => first
    | .ok event =>
      let later := performAll host effects first.session first.world
      { later with
        history := first.history ++ later.history
        outcome := later.outcome.map (·.or event) }

end Session

/-! ## Taking events -/

inductive Next
  | again (event : Event)
  | returns (result : CallResult)

structure Stage (κ W : Type) where
  history : List (Occurrence κ)
  session : Session κ
  world : W
  next : Next

namespace Session

def halt (s : Session κ) : Session κ :=
  { s with halted := true }

/-- Takes an event: the transition, its effects, and the event that answers them. Where no event
does and the phase is running, the drive goes on. -/
def react (host : Host κ W) (s : Session κ) (world : W) (event : Event) : Stage κ W :=
  match transition s.script s.state event with
  | .error rejection => ⟨[], s, world, .returns (.error (.rejected rejection))⟩
  | .ok t =>
    let done := performAll host t.effects { s with state := t.state } world
    match done.outcome with
    | .error failure =>
      let halted := done.session.halt
      ⟨done.history ++ halted.told (.failed failure.message), halted.publish, done.world,
        .returns (.error (.callback failure))⟩
    | .ok (some event) => ⟨done.history, done.session, done.world, .again event⟩
    | .ok none =>
      ⟨done.history, done.session, done.world,
        if done.session.state.phase = .running then .again .drive else .returns (.ok ())⟩

/-- Takes the event of a call. A halted session takes none. -/
def receive (host : Host κ W) (s : Session κ) (world : W) (event : Event) : Stage κ W :=
  if s.halted then ⟨[], s, world, .returns (.error .halted)⟩
  else s.react host world event

end Session

end Dialogue
