import Dialogue.Session.Run

/-!
# Scripts as programs

The structured reading of a script. A list of steps runs in order, a branch runs its body if its
condition holds, a loop as long as its condition holds, and an input presents prompts until a
submission passes its rules. The interpreter recurses over the tree of steps. Positions are only
labels to it: `here` is the label of a step and `next` the label of what follows it, and both
serve to tell observers where the conversation is.

The calls of the client are an inbox. A conversation that waits for input takes the next call from
it, and when it is empty nothing more occurs.
-/

namespace Dialogue

/-- One entry of the record of a conversation: something occurs, or a call returns. -/
inductive Mark (κ : Type)
  | occurred (o : Occurrence κ)
  | returned (result : CallResult)

structure Talk (W : Type) where
  answers : Answers
  transcript : Transcript
  prompts : Nat
  world : W
  calls : List (String × Nat)

inductive Fate (W α : Type)
  | goesOn (value : α) (talk : Talk W)
  -- nothing more occurs, and every call has returned
  | ended
  -- some loop has put its condition as often as is allowed
  | cut

structure Told (κ W α : Type) where
  marks : List (Mark κ)
  fate : Fate W α

variable {κ W α β : Type}

def Told.after (t : Told κ W α) (marks : List (Mark κ)) : Told κ W α :=
  ⟨marks ++ t.marks, t.fate⟩

def Act (κ W α : Type) := Talk W → Told κ W α

namespace Act

def pure (a : α) : Act κ W α := fun talk => ⟨[], .goesOn a talk⟩

def bind (m : Act κ W α) (f : α → Act κ W β) : Act κ W β := fun talk =>
  match (m talk).fate with
  | .goesOn a later => (f a later).after (m talk).marks
  | .ended => ⟨(m talk).marks, .ended⟩
  | .cut => ⟨(m talk).marks, .cut⟩

instance : Monad (Act κ W) where
  pure := Act.pure
  bind := Act.bind

end Act

/-! ## What is told -/

def Talk.view (talk : Talk W) (status : Status) (here : Position) : View :=
  ⟨status, here, talk.prompts, talk.transcript, talk.answers, false⟩

def tell (status : Status) (here : Position) (notice : Notice) : Act κ W Unit := fun talk =>
  ⟨[.occurred (.notified notice), .occurred (.published (talk.view status here))],
    .goesOn () talk⟩

def say (here : Position) (speaker : Speaker) (text : String) : Act κ W Unit := fun talk =>
  tell .active here (.message (talk.transcript.next speaker text))
    { talk with transcript := talk.transcript.add speaker text }

def keep (here : Position) (name value : String) : Act κ W Unit := fun talk =>
  tell .active here (.answerStored name value)
    { talk with answers := talk.answers.push name value }

def returns (result : CallResult) : Act κ W Unit := fun talk =>
  ⟨[.returned result], .goesOn () talk⟩

/-- A failure is told, the call in hand returns with it, and every later call finds the
conversation halted. -/
def Talk.halt (talk : Talk W) (status : Status) (failure : Failure) : List (Mark κ) :=
  .occurred (.notified (.failed failure.message)) ::
    .occurred (.published { talk.view status failure.position with halted := true }) ::
      .returned (.error (.callback failure)) ::
        talk.calls.map fun _ => .returned (.error .halted)

def consulting (status : Status) (here : Position) (ask : Answers → W → Consulted κ W α) :
    Act κ W α := fun talk =>
  let c := ask talk.answers talk.world
  let later := { talk with world := c.world }
  match c.result with
  | .ok a => ⟨c.history.map .occurred, .goesOn a later⟩
  | .error (role, source) =>
    ⟨c.history.map .occurred ++ later.halt status ⟨role, here, source⟩, .ended⟩

/-! ## Steps -/

section
variable (host : Host κ W) (settings : Settings)

def Output.produce (o : Output κ) (answers : Answers) (world : W) : Consulted κ W String :=
  match o.wording with
  | none => ⟨[], world, .ok ""⟩
  | some wording => wording.resolve host answers world

def finish (status : Status) (here : Position) : Option κ → Act κ W Unit
  | none => pure ()
  | some callback => consulting status here (consultHook host callback)

def present (here : Position) : Act κ W Unit := do
  fun talk => tell .waiting here (.statusChanged .waiting) { talk with prompts := talk.prompts + 1 }
  returns (.ok ())

/-- Takes calls until one answers the current prompt; if the rules reject its text, tells why and
presents the input again. The result is the text that passed. -/
def Input.listen (i : Input κ) (here : Position) : List (String × Nat) → Act κ W String
  | [], _ => ⟨[], .ended⟩
  | (text, turn) :: calls, talk =>
    if turn = talk.prompts then
      (do
        tell .active here (.statusChanged .active)
        say here .user text
        let verdict ← consulting .active here fun answers world =>
          checkRules host text answers i.rules world
        match verdict with
        | none => pure text
        | some errorText => do
          say here .bot errorText
          present here
          i.listen here calls : Act κ W String) { talk with calls }
    else
      (do
        returns (.error (.rejected (.staleSubmission turn talk.prompts)))
        i.listen here calls : Act κ W String) { talk with calls }

/-- Passes through the body as long as the condition holds; it is put `bound` times at most. -/
def repeatWhile (condition : Act κ W Bool) (body : Act κ W Unit) : (bound : Nat) → Act κ W Unit
  | 0, _ => ⟨[], .cut⟩
  | bound + 1, talk =>
    (do
      if ← condition then
        body
        repeatWhile condition body bound
      else pure () : Act κ W Unit) talk

mutual

def Step.run (bound : Nat) (here next : Position) : Step κ → Act κ W Unit
  | .output o => do
    let text ← consulting .active here (o.produce host)
    say here .bot text
    consulting .active here
      (settleOutput host (settings.scaledWait o.wait).ceilMillis o.complete)
  | .input i => do
    present here
    let text ← fun talk => i.listen host here talk.calls talk
    keep next i.name text
    finish host .active next i.complete
  | .block .branch condition children complete => do
    if ← consulting .active here (consultCondition host condition) then
      runFrom bound here 0 next children
      finish host .active next complete
    else finish host .active next complete
  | .block .loop condition children complete => do
    repeatWhile (consulting .active here (consultCondition host condition))
      (runFrom bound here 0 here children) bound
    finish host .active next complete

def runFrom (bound : Nat) (parent : Position) (i : Nat) (after : Position) :
    List (Step κ) → Act κ W Unit
  | [] => pure ()
  | step :: steps => do
    step.run bound (parent.child i) (if steps.isEmpty then after else parent.child (i + 1))
    runFrom bound parent (i + 1) after steps

end

/-! ## Conversations -/

def turnAway : Act κ W Unit := fun talk =>
  ⟨talk.calls.map fun _ => .returned (.error (.rejected (.notAwaitingInput .completed))), .ended⟩

def Script.run (bound : Nat) (script : Script κ) : Act κ W Unit := do
  let ending : Position := [script.steps.length]
  runFrom host settings bound [] 0 ending script.steps
  finish host .completed ending script.complete
  tell .completed ending (.statusChanged .completed)
  returns (.ok ())
  turnAway

/-- The conversation that begins when a script is started and then receives some calls. -/
def interpret (bound : Nat) (script : Script κ) (world : W) (calls : List (String × Nat)) :
    Told κ W Unit :=
  script.run host settings bound ⟨.empty, [], 0, world, calls⟩

end

end Dialogue
