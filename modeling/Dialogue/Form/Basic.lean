import Dialogue.Form.Feed
import Dialogue.Session.Basic

/-!
# Forms

A session with a task of its own, which starts it and then takes submissions from a queue, one
after another. Clients put submissions into the queue, or wait for room in it, and observe what has
been published. The task goes on in small moves: `move?` makes the next one, unless the task sleeps
or has nothing to do. Clients act only between moves, so a form with its clients is a system in
which sending, moving and the passing of time interleave.
-/

namespace Dialogue

structure Submission where
  ticket : Nat
  text : String
  turn : Nat
  deriving Repr, DecidableEq

/-- A call that the task has begun: what is still to occur of its latest stage, and what follows.
The ticket is none for the start. -/
structure Work (κ : Type) where
  ticket : Option Nat
  ahead : List (Occurrence κ)
  next : Next

inductive Activity (κ : Type)
  | unstarted
  | resting
  | working (work : Work κ)
  | asleep (wake : Nat) (work : Work κ)
  | gone

/-- The session and the world are those that the work in hand leads to; `view` and `feed` are what
observers can see by now. -/
structure Form (κ W : Type) where
  session : Session κ
  world : W
  activity : Activity κ
  -- the time in milliseconds
  clock : Nat
  queue : List Submission
  -- submissions that wait for room in the queue
  senders : List Submission
  tickets : Nat
  replies : List (Nat × CallResult)
  view : View
  feed : Option Feed
  -- what has occurred, the latest first
  past : List (Occurrence κ)
  -- the handle is gone, and the task is to stop
  abandoned : Bool

inductive SpawnFailure
  | queue
  | feed
  | memory
  deriving Repr, DecidableEq

variable {κ W : Type}

namespace Form

/-! ## Spawning -/

/-- The form once its channels have been made. -/
def spawn (script : Script κ) (settings : Settings) (world : W) : Form κ W :=
  let session := Session.fresh script settings
  ⟨session, world, .unstarted, 0, [], [], 0, [], session.view, none, [], false⟩

/-- The permits to a queue are counted in a word that has three bits for other use. -/
def queueLimit : Nat := (Number.wordCount - 1) / 8

def feedLimit : Nat := (Number.wordCount - 1) / 2

/-- Makes the queue, then the feed, and with them the form. A capacity of zero or beyond the limit
is a failure. The room of the feed is taken at once, and `slots` is what the memory has of it. -/
def spawn? (slots : Nat) (script : Script κ) (settings : Settings) (world : W) :
    Except SpawnFailure (Form κ W) :=
  if settings.eventCapacity = 0 ∨ queueLimit < settings.eventCapacity then .error .queue
  else if settings.broadcastCapacity = 0 ∨ feedLimit < settings.broadcastCapacity then .error .feed
  else if slots < (Feed.ofCapacity settings.broadcastCapacity).room then .error .memory
  else .ok (spawn script settings world)

def capacity (f : Form κ W) : Nat := f.session.settings.eventCapacity

def isGone (f : Form κ W) : Bool :=
  match f.activity with
  | .gone => true
  | _ => false

/-! ## Clients -/

/-- Sends a submission: into the queue if there is room, behind the waiting senders if not. The
ticket comes back with the form. -/
def send (f : Form κ W) (text : String) (turn : Nat) : Nat × Form κ W :=
  let submission : Submission := ⟨f.tickets, text, turn⟩
  let f := { f with tickets := f.tickets + 1 }
  (submission.ticket,
    if f.senders.isEmpty && f.queue.length < f.capacity then
      { f with queue := f.queue ++ [submission] }
    else { f with senders := f.senders ++ [submission] })

/-- Gives up waiting for room. What is in the queue already stays there. -/
def giveUp (f : Form κ W) : Form κ W :=
  { f with senders := [] }

def reply? (f : Form κ W) (ticket : Nat) : Option CallResult :=
  f.replies.lookup ticket

def subscribe (f : Form κ W) : Form κ W :=
  { f with feed := some (.ofCapacity f.session.settings.broadcastCapacity) }

def abandon (f : Form κ W) : Form κ W :=
  { f with abandoned := true }

/-! ## The task -/

def reveal (f : Form κ W) (o : Occurrence κ) : Form κ W :=
  let f := { f with past := o :: f.past }
  match o with
  | .notified notice => { f with feed := f.feed.map (·.push notice) }
  | .published view => { f with view := view }
  | _ => f

def takeUp (f : Form κ W) (ticket : Option Nat) (stage : Stage κ W) : Form κ W :=
  { f with
    session := stage.session
    world := stage.world
    activity := .working ⟨ticket, stage.history, stage.next⟩ }

def hand (f : Form κ W) (ticket : Option Nat) (result : CallResult) : Form κ W :=
  { f with
    activity := .resting
    replies := match ticket with
      | none => f.replies
      | some ticket => (ticket, result) :: f.replies }

def proceed (host : Host κ W) (f : Form κ W) (work : Work κ) : Form κ W :=
  match work.ahead, work.next with
  | .slept n :: ahead, _ =>
    { f.reveal (.slept n) with
      activity := if n = 0 then .working { work with ahead } else
        .asleep (f.clock + n) { work with ahead } }
  | o :: ahead, _ => { f.reveal o with activity := .working { work with ahead } }
  | [], .again event => f.takeUp work.ticket (f.session.react host f.world event)
  | [], .returns result => f.hand work.ticket result

def serve (host : Host κ W) (f : Form κ W) : Option (Form κ W) :=
  match f.queue with
  | [] => none
  | submission :: queue =>
    let f := { f with queue := queue ++ f.senders.take 1, senders := f.senders.drop 1 }
    let event := .submitted submission.text submission.turn
    some (f.takeUp (some submission.ticket) (f.session.receive host f.world event))

/-- The task's next move; none while it sleeps, has nothing to do or is over. Once the handle is
gone the next move ends the task, in the middle of its work if need be. -/
def move? (host : Host κ W) (f : Form κ W) : Option (Form κ W) :=
  if f.isGone then none
  else if f.abandoned then some { f with activity := .gone, queue := [], senders := [] }
  else match f.activity with
    | .unstarted => some (f.takeUp none (f.session.receive host f.world .drive))
    | .resting => f.serve host
    | .working work => some (f.proceed host work)
    | .asleep wake work => if wake ≤ f.clock then some (f.proceed host work) else none
    | .gone => none

def wake? (f : Form κ W) : Option Nat :=
  match f.activity with
  | .asleep wake _ => some wake
  | _ => none

end Form

end Dialogue
