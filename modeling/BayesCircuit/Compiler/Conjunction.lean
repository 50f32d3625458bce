import BayesCircuit.Bound.Basic
import BayesCircuit.Compiler.Settings
import BayesCircuit.Compiler.Stats
import BayesCircuit.Decision.Clause
import BayesCircuit.Decision.Conjoin
import BayesCircuit.Decision.Measure
import BayesCircuit.Decision.Rows
import BayesCircuit.Ordering.Text

/-!
# Decision diagrams of partitions

The diagram of a partition is the product of the tables of the variables that it owns. The diagrams
of the tables are conjoined pairwise, those that are there first before their products.
-/

namespace BayesCircuit.Compiler

open Decision

/-- The manager, and the sizes of the diagrams of all tables so far. -/
structure Workshop where
  manager : Manager
  tableNodes : Nat
  tableOperators : Nat

/-- Work on decision diagrams. What was done before a failure stays done. -/
abbrev Work := EStateM Failure Workshop

namespace Work

/-- Use the manager. -/
def act {α : Type} (action : Action α) : Work α := fun ⟨manager, nodes, operators⟩ =>
  match action.run manager with
  | .ok a manager => .ok a ⟨manager, nodes, operators⟩
  | .error f manager => .error f ⟨manager, nodes, operators⟩

/-- The numbers of nodes and operators of a diagram. -/
def measure (root : Handle) : Work (Nat × Nat) := act do
  let nodes ← Action.lift ((← get).size root)
  let operators ← Action.lift ((← get).operators root)
  return (nodes, operators)

end Work

/-- The diagram of a table along an ordering. -/
def tableDiagram (s : Settings) (e : Encoding) (f : Factor) (ordering : List Literal) :
    Action Handle := do
  let own := Ordering.restrict f Literal.index ordering
  match s.method with
  | .hybrid =>
      let rows ← Action.lift (Rows.start f e.literalVariables s.determinism)
      solve rows own s.collapse s.expired
  | .bottomUp | .topDown =>
      let queue ← clauses f own (DomainClosure.ofEncoding e) s.determinism
      let root ← conjoinAll queue own false s.expired
      if s.collapse then collapse root else return root

/-- Make and measure the diagram of the table of a variable. -/
def addTable (s : Settings) (e : Encoding) (ordering : List Literal) (v : Variable) :
    Work Handle := do
  if s.expired then throw (.error .timeout)
  let root ← Work.act do tableDiagram s e (← Action.lift (e.factor v)) ordering
  let (nodes, operators) ← Work.measure root
  modify fun w =>
    { w with tableNodes := w.tableNodes + nodes, tableOperators := w.tableOperators + operators }
  return root

/-- The literals of an ordering. -/
def literalOrdering (e : Encoding) (ordering : List Variable) : Outcome (List Literal) := do
  let numbers ← Ordering.expand e ordering
  numbers.mapM fun n => Literal.of (Int.ofNat n)

/-- Conjoin the tables of a partition along an ordering. -/
def conjoinPartition (s : Settings) (net : Network) (e : Encoding) (p : Partition)
    (ordering : List Variable) : Work (Handle × PartitionStats) := do
  let literals ← Work.act (Action.lift (literalOrdering e ordering))
  let queue ← p.owned.mapM (addTable s e literals)
  let root ← Work.act (conjoinAll queue literals s.collapse s.expired)
  let (nodes, operators) ← Work.measure root
  let bound := (Bound.ofPartition net p).compute .nodes ordering
  return (root, ⟨ordering.length, bound, nodes, 2 * nodes, operators, 0, 0⟩)

/-- Conjoin the tables of all partitions along their orderings. -/
def conjoinPartitions (s : Settings) (net : Network) (e : Encoding)
    (parts : List (Partition × List Variable)) : Work (List (Handle × PartitionStats)) :=
  parts.mapM fun (p, ordering) => conjoinPartition s net e p ordering

end BayesCircuit.Compiler
