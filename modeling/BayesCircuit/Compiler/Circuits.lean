import BayesCircuit.Decision.Text
import BayesCircuit.Multigraph.Text

/-!
# Compiled diagrams

The result of a compilation is one diagram for each partition. Decision diagrams share one manager.
-/

namespace BayesCircuit.Compiler

open Decision (Manager Handle)

/-- The diagrams of all partitions. -/
inductive Circuits where
  | decision (manager : Manager) (roots : List Handle)
  | symbolic (graphs : List (Multigraph Weights))
  | probability (graphs : List (Multigraph Probability))

namespace Circuits

/-- The number of diagrams. -/
def size : Circuits → Nat
  | decision _ roots => roots.length
  | symbolic graphs => graphs.length
  | probability graphs => graphs.length

def isEmpty (c : Circuits) : Bool := c.size == 0

/-- What there is, in one line. -/
def summary : Circuits → String
  | decision _ roots =>
      "Wpbdd \x7b roots: [" ++ Text.join ", " (roots.map fun r => s!"Ref({r})") ++ "] \x7d"
  | symbolic graphs => s!"Symbolic({graphs.length} multigraphs)"
  | probability graphs => s!"Probability({graphs.length} multigraphs)"

/-- The diagram of a partition. -/
def pick {α : Type} (diagrams : List α) (i : Nat) : Outcome α := expect .outOfRange diagrams[i]?

/-- The circuit file of the diagram of a partition. -/
def circuitText (c : Circuits) (i : Nat) : Outcome String := do
  match c with
  | decision m roots => m.toCircuitText (← pick roots i)
  | symbolic graphs => return (← pick graphs i).toDumpText Weights.label
  | probability graphs => return (← pick graphs i).toDumpText Probability.label

/-- The drawing of the diagram of a partition. -/
def dotText (c : Circuits) (e : Encoding) (i : Nat) : Outcome String := do
  match c with
  | decision m roots => m.toDotText .standard [← pick roots i]
  | symbolic graphs => (← pick graphs i).toDotText Weights.label e
  | probability graphs => (← pick graphs i).toDotText Probability.label e

end Circuits
end BayesCircuit.Compiler
