import BayesCircuit.Decimal.Layout
import BayesCircuit.Failure

/-!
# Statistics of a compilation

Sizes are counted for each partition and, for decision diagrams, over the diagrams of single tables
before they are conjoined. The report adds how long the stages took. It leaves out stages that took
no time at all, since these are the stages that did not run. Sums over the partitions have to fit a
machine word.
-/

namespace BayesCircuit.Compiler

/-- The size of the diagram of a partition. -/
structure PartitionStats where
  variableCount : Nat
  /-- The most nodes that the ordering allows. -/
  bound : Nat
  nodes : Nat
  edges : Nat
  operators : Nat
  andNodes : Nat
  orNodes : Nat
  deriving Repr, DecidableEq

/-- The sizes of all diagrams. -/
structure Stats where
  partitions : List PartitionStats
  /-- The nodes of the diagrams of single tables. -/
  tableNodes : Nat
  tableOperators : Nat
  deriving Repr, DecidableEq

/-- How long the stages took, in nanoseconds. -/
structure Durations where
  ordering : Nat
  spanning : Nat
  tables : Nat
  total : Nat
  deriving Repr, DecidableEq

namespace Stats

/-- Nothing has been compiled. -/
def empty : Stats := ⟨[], 0, 0⟩

/-- The sum of a size over all partitions. -/
def sum (s : Stats) (size : PartitionStats → Nat) : Nat := sumOf (s.partitions.map size)

/-- The sum of a size over all partitions, if it fits. -/
def total (s : Stats) (size : PartitionStats → Nat) : Outcome Nat := word (s.sum size)

/-- A duration in seconds. -/
def seconds (nanoseconds : Nat) : Float :=
  Float.ofNat (nanoseconds / Nat.pow 10 9) + Float.ofNat (nanoseconds % Nat.pow 10 9) / 1e9

/-- The line of a partition. -/
def partitionLine (p : PartitionStats) (i : Nat) : String :=
  let number := toString i
  "partition " ++ number ++ String.ofList (List.replicate (7 - number.length) ' ') ++
    s!" : {p.variableCount} variables, bound {p.bound}, {p.nodes} nodes, {p.edges} edges, " ++
    s!"{p.operators} operators"

/-- The lines on the stages. -/
def stageLines (s : Stats) (d : Durations) : List String :=
  ["ordering          : " ++ Decimal.fixed 3 (seconds d.ordering) ++ "s"] ++
    (if d.spanning == 0 then []
    else ["spanning trees    : " ++ Decimal.fixed 3 (seconds d.spanning * 1e3) ++ "ms"]) ++
    (if d.tables == 0 then []
    else ["compiled CPTs in  : " ++ Decimal.fixed 3 (seconds d.tables) ++ "s",
      s!"CPT #nodes        : {s.tableNodes}", s!"CPT #operators    : {s.tableOperators}"]) ++
    ["total time        : " ++ Decimal.fixed 3 (seconds d.total) ++ "s"]

/-- The lines on all partitions together. -/
def totalLines (s : Stats) : Outcome (List String) := do
  let andNodes ← s.total (·.andNodes)
  let orNodes ← s.total (·.orNodes)
  let kinds ← word (andNodes + orNodes)
  let byKind := [s!"total or #nodes   : {orNodes}", s!"total and #nodes  : {andNodes}"]
  return (if kinds == 0 then [] else byKind) ++
    [s!"total #nodes      : {← s.total (·.nodes)}", s!"total #edges      : {← s.total (·.edges)}",
      s!"total #operators  : {← s.total (·.operators)}"]

/-- The report. -/
def toText (s : Stats) (d : Durations) : Outcome String := do
  let partitions := s.partitions.zipIdx.map fun (p, i) => partitionLine p i
  return String.intercalate "\n" (s.stageLines d ++ partitions ++ (← s.totalLines))

end Stats
end BayesCircuit.Compiler
