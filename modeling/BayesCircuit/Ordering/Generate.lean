import BayesCircuit.Ordering.Annealing
import BayesCircuit.Ordering.Branching
import BayesCircuit.Ordering.Strategy
import BayesCircuit.PseudoTree.Basic

/-!
# Ordering a partition

`generate` carries out a strategy. Annealing starts from the topological ordering and lowers the
bound on weights, or starts from the min-fill ordering and lowers the bound along the branches.
-/

namespace BayesCircuit.Ordering

/-- How a partition is to be ordered. -/
structure Options where
  strategy : Strategy
  /-- How many levels the lookahead considers. -/
  lookahead : Nat
  annealing : Annealing
  /-- How many walks go on side by side when annealing is parallel. -/
  processors : Nat
  /-- Whether the time for searching is over from the start. -/
  expired : Bool

namespace Task

/-- The min-fill ordering. -/
def minFill (t : Task) : List Variable := InteractionGraph.minFill t.net t.partition

/-- Anneal an ordering, or all variables in their order if it is empty. -/
def annealFrom (t : Task) (options : Options) (energy : Energy) (initial : List Variable) :
    List Variable :=
  anneal options.annealing t.bound energy options.processors t.expired
    (if initial.isEmpty then t.scope else initial)

/-- Carry out a strategy. -/
def run (t : Task) (options : Options) : List Variable :=
  match options.strategy with
  | .topological => t.topological
  | .breadthFirst => t.breadthFirst
  | .reverseTopological => t.topological.reverse
  | .bestFirst => t.bestFirst
  | .bruteForce => t.bruteForce
  | .components => t.components
  | .lookahead => t.lookahead options.lookahead
  | .anneal => t.annealFrom options .ratio t.topological
  | .allTopological => t.allTopological
  | .annealMinFill => t.annealFrom options .treeNodes t.minFill
  | .minFill => t.minFill

/-- Carry out a strategy, which must place every variable. -/
def generate (t : Task) (options : Options) : Outcome (List Variable) := do
  let ordering := t.run options
  require (ordering.length == t.size)
  return ordering

end Task

/-- An ordering of a partition. -/
def generate (net : Network) (p : Partition) (options : Options) : Outcome (List Variable) :=
  (Task.ofPartition net p options.expired).generate options

end BayesCircuit.Ordering
