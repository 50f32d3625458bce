import BayesCircuit.Failure

/-!
# A pool of workers

A dispatcher hands tasks to workers, which work on them at the same time and send the results back
in the order in which they finish. Tasks travel in one of two ways:

* every worker has a channel of bounded capacity. The dispatcher offers a task to the channels in
  turn, from the next one on, and waits for the next one if all are full;
* the workers share one queue without bounds. For each task that the dispatcher puts there it
  sends a token over a channel of bounded capacity, and a worker that receives a token takes a
  task.

When all tasks are handed out, the dispatcher hangs up, and a worker stops when it finds its
channel empty. `step?` is one step of the dispatcher or of a worker, and `run` takes steps until
nobody can take one. `admit` says which pools can be set up.
-/

namespace BayesCircuit.Pool

/-- How tasks travel. -/
inductive QueueKind where
  /-- One bounded channel for each worker. -/
  | perWorker
  /-- One queue for all workers. -/
  | shared
  deriving DecidableEq, Repr

namespace QueueKind

/-- The kind with a given name or number. -/
def parse (s : String) : Except String QueueKind :=
  match s with
  | "spsc" | "0" => .ok perWorker
  | "mpmc" | "1" => .ok shared
  | _ => .error ("unknown queue kind '" ++ s ++ "'")

/-- The name under which a kind is shown. -/
def name : QueueKind → String
  | perWorker => "Spsc"
  | shared => "Mpmc"

end QueueKind

/-- How many workers there are and what a channel holds. -/
structure Setup where
  kind : QueueKind
  workers : Nat
  capacity : Nat
  deriving DecidableEq, Repr

/-- The number of workers that can be started. -/
def maxWorkers : Nat := Nat.pow 2 15

/-- Room for the workers and for a channel, each place of which holds a stamp of eight bytes and,
unless tokens travel over it, a task of `bytes` bytes. -/
def Setup.admit (c : Setup) (bytes : Nat) : Outcome Unit := do
  match c.kind with
  | .perWorker => reserve (bytes + 8) c.capacity
  | .shared => reserve 8 c.capacity
  ensure .overflow (c.workers ≤ maxWorkers)

/-- What a worker is doing. -/
inductive Worker (τ : Type) where
  | idle
  /-- It has received a token and not yet taken a task. -/
  | called
  | busy (task : τ)
  | stopped
  deriving DecidableEq, Repr

/-- What the dispatcher is doing. -/
inductive Dispatcher (τ : Type) where
  | ready
  /-- It offers a task to the channel that is `offset` places after the next one. -/
  | offering (task : τ) (offset : Nat)
  /-- It waits until the next channel has room. -/
  | waiting (task : τ)
  /-- It has put a task into the shared queue and not yet sent the token. -/
  | ringing
  | finished
  deriving DecidableEq, Repr

/-- The tasks and where they are. -/
structure State (τ ρ : Type) where
  /-- The tasks that have not been handed out. -/
  pending : List τ
  dispatcher : Dispatcher τ
  /-- The worker whose channel is offered the next task first. -/
  next : Nat
  /-- The tasks in the channel of each worker. -/
  channels : Array (List τ)
  /-- The tasks in the shared queue. -/
  queue : List τ
  /-- The tokens on their way. -/
  tokens : Nat
  workers : Array (Worker τ)
  /-- The results that have been sent. -/
  results : List ρ

/-- Who takes a step. -/
inductive Move where
  | dispatch
  | work (worker : Nat)
  deriving DecidableEq, Repr

variable {τ ρ : Type}

/-- Nothing has been handed out. -/
def start (c : Setup) (tasks : List τ) : State τ ρ where
  pending := tasks
  dispatcher := .ready
  next := 0
  channels := Array.replicate c.workers []
  queue := []
  tokens := 0
  workers := Array.replicate c.workers .idle
  results := []

namespace State

/-- Whether a worker does not listen to its channel any more. -/
def deaf (s : State τ ρ) (w : Nat) : Bool :=
  match s.workers[w]? with
  | some .stopped => true
  | _ => false

/-- Whether a channel can take no further task. -/
def full (c : Setup) (s : State τ ρ) (w : Nat) : Bool := c.capacity ≤ (s.channels.getD w []).length

/-- Put a task into a channel and go on with the next task. -/
def send (c : Setup) (s : State τ ρ) (w : Nat) (task : τ) : State τ ρ :=
  { s with
    channels := s.channels.modify w (· ++ [task])
    dispatcher := .ready
    next := (s.next + 1) % c.workers }

/-- A step of the dispatcher. -/
def dispatch? (c : Setup) (s : State τ ρ) : Option (State τ ρ) :=
  match s.dispatcher with
  | .ready =>
      match s.pending, c.kind with
      | [], _ => some { s with dispatcher := .finished }
      | task :: rest, .perWorker => some { s with pending := rest, dispatcher := .offering task 0 }
      | task :: rest, .shared =>
          some { s with pending := rest, queue := s.queue ++ [task], dispatcher := .ringing }
  | .offering task offset =>
      let w := (s.next + offset) % c.workers
      if c.workers ≤ offset then some { s with dispatcher := .waiting task }
      else if s.deaf w || s.full c w then
        some { s with dispatcher := .offering task (offset + 1) }
      else some (s.send c w task)
  | .waiting task =>
      if s.deaf s.next then
        some { s with dispatcher := .ready, next := (s.next + 1) % c.workers }
      else if s.full c s.next then none
      else some (s.send c s.next task)
  | .ringing =>
      if (List.range c.workers).all s.deaf then some { s with dispatcher := .finished }
      else if c.capacity ≤ s.tokens then none
      else some { s with tokens := s.tokens + 1, dispatcher := .ready }
  | .finished => none

/-- Change what a worker is doing. -/
def become (s : State τ ρ) (w : Nat) (what : Worker τ) : State τ ρ :=
  { s with workers := s.workers.setIfInBounds w what }

/-- Whether the dispatcher has hung up. -/
def closed (s : State τ ρ) : Bool :=
  match s.dispatcher with
  | .finished => true
  | _ => false

/-- A step of an idle worker: it takes a task or a token, or stops if none will come. -/
def receive? (c : Setup) (s : State τ ρ) (w : Nat) : Option (State τ ρ) :=
  match c.kind with
  | .perWorker =>
      match s.channels.getD w [] with
      | task :: rest =>
          some ({ s with channels := s.channels.setIfInBounds w rest }.become w (.busy task))
      | [] => if s.closed then some (s.become w .stopped) else none
  | .shared =>
      match s.tokens with
      | left + 1 => some ({ s with tokens := left }.become w .called)
      | 0 => if s.closed then some (s.become w .stopped) else none

/-- A step of a worker. -/
def work? (c : Setup) (f : τ → ρ) (s : State τ ρ) (w : Nat) : Option (State τ ρ) :=
  match s.workers[w]? with
  | some .idle => s.receive? c w
  | some .called =>
      match s.queue with
      | task :: rest => some ({ s with queue := rest }.become w (.busy task))
      | [] => some (s.become w .stopped)
  | some (.busy task) => some ({ s with results := s.results ++ [f task] }.become w .idle)
  | _ => none

/-- One step. -/
def step? (c : Setup) (f : τ → ρ) (s : State τ ρ) : Move → Option (State τ ρ)
  | .dispatch => s.dispatch? c
  | .work w => s.work? c f w

/-- The state after a sequence of steps, if each of them can be taken. -/
def follow? (c : Setup) (f : τ → ρ) (s : State τ ρ) : List Move → Option (State τ ρ)
  | [] => some s
  | m :: ms => do follow? c f (← s.step? c f m) ms

/-- Whether everybody has stopped. -/
def isFinal (c : Setup) (s : State τ ρ) : Bool :=
  s.closed && (List.range c.workers).all s.deaf

end State

/-- Everybody who may take a step, the dispatcher first. -/
def moves (c : Setup) : List Move := .dispatch :: (List.range c.workers).map .work

/-- Take up to `fuel` steps, each time the first one that can be taken. -/
def runFrom (c : Setup) (f : τ → ρ) : Nat → State τ ρ → State τ ρ
  | 0, s => s
  | fuel + 1, s =>
      match (moves c).findSome? (s.step? c f) with
      | none => s
      | some s => runFrom c f fuel s

/-- More steps than can be taken: those for each task, and one for everybody who stops. -/
def stepBound (c : Setup) (tasks : List τ) : Nat :=
  tasks.length * (c.workers + 6) + c.workers + 2

/-- The results of working on all tasks, in the order in which they came. -/
def run (c : Setup) (f : τ → ρ) (tasks : List τ) : List ρ :=
  (runFrom c f (stepBound c tasks) (start c tasks)).results

end BayesCircuit.Pool
