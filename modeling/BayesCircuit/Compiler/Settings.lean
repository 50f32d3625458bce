import BayesCircuit.Compiler.Diagram
import BayesCircuit.Ordering.Generate
import BayesCircuit.Parallel.Compile

/-!
# Settings

Everything about a compilation that can be chosen. `Settings.standard` holds what applies unless
something else is chosen. Times are counted in nanoseconds.
-/

namespace BayesCircuit.Compiler

/-- Everything that can be chosen. -/
structure Settings where
  diagram : Diagram
  method : Method
  /-- Leave out the literals of a chain that say nothing new. -/
  collapse : Bool
  /-- Rows of probability zero end in `false'`, and weights of one are left out. -/
  determinism : Bool
  /-- Equal probabilities of a table have one weight. -/
  sharing : Bool
  /-- The edges of multigraphs carry probabilities instead of weights. -/
  probabilities : Bool
  ordering : Option Ordering.Strategy
  orderingTime : Nat
  /-- How many levels the lookahead considers. -/
  lookahead : Nat
  annealing : Ordering.Annealing
  /-- Search for the cheapest composition instead of taking the partitions in order. -/
  cheapestComposition : Bool
  showScore : Bool
  /-- Stop when the orderings are there. -/
  orderOnly : Bool
  /-- The number of workers; zero stands for one for each processor. -/
  workers : Nat
  queue : Pool.QueueKind
  queueCapacity : Nat
  grain : Parallel.Grain
  /-- Room for `2 ^ memoBits` products is reserved. -/
  memoBits : Nat
  /-- A unique table starts with room for `2 ^ tableBits` nodes. -/
  tableBits : Nat
  /-- The bytes that are there for a multigraph. -/
  memoryBudget : Nat
  /-- The part of these bytes that a spanning tree may ask for. -/
  memoryShare : Float
  timeLimit : Option Nat
  /-- The number of processors of the machine. -/
  processors : Nat

namespace Settings

/-- A second in nanoseconds. -/
def second : Nat := Nat.pow 10 9

/-- What applies unless something else is chosen. -/
def standard : Settings where
  diagram := .tree
  method := .hybrid
  collapse := false
  determinism := false
  sharing := false
  probabilities := false
  ordering := none
  orderingTime := 2 * second
  lookahead := 3
  annealing := .standard
  cheapestComposition := false
  showScore := false
  orderOnly := false
  workers := 1
  queue := .perWorker
  queueCapacity := 64
  grain := .layer
  memoBits := 14
  tableBits := 12
  memoryBudget := 8 * Nat.pow 2 30
  memoryShare := 1.0
  timeLimit := none
  processors := 1

/-- The strategy that orders the partitions. -/
def strategy (s : Settings) : Ordering.Strategy := s.ordering.getD s.diagram.defaultOrdering

def isParallel (s : Settings) : Bool := s.workers != 1

/-- Whether the time is over before anything has been done. -/
def expired (s : Settings) : Bool := s.timeLimit == some 0

/-- How weights are chosen. -/
def encoding (s : Settings) : EncodingOptions := ⟨s.determinism, s.sharing⟩

/-- How work is spread. -/
def parallel (s : Settings) : Parallel.Options :=
  ⟨s.workers, s.queue, s.grain, s.queueCapacity, s.processors⟩

/-- The time for searching an ordering. -/
def searchTime (s : Settings) : Nat := s.timeLimit.elim s.orderingTime (min s.orderingTime)

/-- How partitions are ordered. -/
def orderingOptions (s : Settings) : Ordering.Options :=
  ⟨s.strategy, s.lookahead, s.annealing, s.processors, s.searchTime == 0⟩

/-- The bytes that a spanning tree may ask for. -/
def memoryLimit (s : Settings) : Float := Float.ofNat s.memoryBudget * s.memoryShare

/-- Refuse combinations that cannot be carried out. -/
def validate (s : Settings) : Outcome Unit :=
  if s.isParallel && s.sharing then
    fail (.unsupported "local structure with parallel compilation")
  else .ok ()

/-- The clock can tell the end of a period. -/
def checkClock (nanoseconds : Nat) : Outcome Unit :=
  ensure .overflow (nanoseconds < Nat.pow 2 63 * second)

end Settings
end BayesCircuit.Compiler
