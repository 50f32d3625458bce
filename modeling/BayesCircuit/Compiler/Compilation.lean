import BayesCircuit.Compiler.Artifact
import BayesCircuit.Compiler.Circuits
import BayesCircuit.Compiler.Conjunction
import BayesCircuit.Composition
import BayesCircuit.Multigraph.Compile

/-!
# Compilations

A compilation is a network with everything that has been derived from it so far. `order` orders the
partitions, `compose` joins them, `compile` makes the diagrams. Partitions and orderings can also be
given from outside. What a step did before it failed stays done.
-/

namespace BayesCircuit.Compiler

/-- A network and what has been derived from it. -/
structure Compilation where
  settings : Settings
  files : FileNames
  network : Network
  encoding : Encoding
  partitions : Partitions
  /-- The orderings of the partitions, if they have been ordered. -/
  orderings : Array (List Variable)
  /-- The pseudo-trees of the partitions, if they were given. -/
  pseudoTrees : Array PseudoTree
  /-- The composition ordering to be followed. -/
  composing : Option (List Nat)
  composition : Option (Composition × Composition.Tree)
  /-- The spanning trees of the partitions, if there are multigraphs. -/
  spanning : Array SpanningTree
  circuits : Option Circuits
  stats : Stats

namespace Compilation

/-- A network as one partition, from which nothing has been derived. -/
def start (settings : Settings) (files : FileNames) (network : Network) : Outcome Compilation := do
  settings.validate
  Settings.checkClock (settings.timeLimit.getD 0)
  return {
    settings, files, network
    encoding := ← Encoding.ofNetwork settings.encoding network
    partitions := ← Partitions.one network
    orderings := #[]
    pseudoTrees := #[]
    composing := none
    composition := none
    spanning := #[]
    circuits := none
    stats := .empty }

/-- A step of a compilation. -/
abbrev Step := EStateM Failure Compilation

/-- Use an outcome in a step. -/
def liftOutcome {α : Type} : Outcome α → Step α
  | .ok a => pure a
  | .error f => throw f

/-- Divide the network differently. Orderings are lost. -/
def setPartitions (ps : Partitions) : Step Unit := do
  liftOutcome (ps.verify (← get).network)
  modify fun c => { c with partitions := ps, orderings := #[], pseudoTrees := #[] }

/-- Check that there is an ordering of each partition. -/
def verifyOrderings (c : Compilation) (orderings : List (List Variable)) : Outcome Unit := do
  if orderings.length != c.partitions.size then
    fail (.invalidOrdering
      s!"{orderings.length} orderings for {c.partitions.size} partitions")
  orderings.zipIdx.forM fun (o, i) => c.partitions.verifyOrdering c.network i o

/-- Give the orderings of all partitions. -/
def setOrderings (orderings : List (List Variable)) : Step Unit := do
  liftOutcome ((← get).verifyOrderings orderings)
  modify fun c => { c with orderings := orderings.toArray }

/-! ## Orderings and composition -/

/-- Search an ordering of a partition. -/
def searchOrdering (c : Compilation) (p : Partition) (i : Nat) : Outcome (List Variable) := do
  if c.settings.expired then fail .timeout
  Settings.checkClock c.settings.searchTime
  let ordering ← Ordering.generate c.network p c.settings.orderingOptions
  c.partitions.verifyOrdering c.network i ordering
  return ordering

/-- Order the partitions unless they are ordered. -/
def order : Step Unit := do
  let c ← get
  if c.orderings.size != c.partitions.size then
    let found ← liftOutcome
      (c.partitions.parts.toList.zipIdx.mapM fun (p, i) => c.searchOrdering p i)
    modify fun c => { c with orderings := found.toArray }

/-- The ordering in which partitions are joined. -/
def compositionOrdering (c : Compilation) (composition : Composition) : Outcome (List Nat) :=
  match c.composing with
  | some ordering => .ok ordering
  | none =>
      if c.settings.cheapestComposition then composition.findOrdering
      else .ok (List.range c.partitions.size)

/-- Join several partitions unless they are joined. A given ordering that does not fit is lost. The
tree has to be one that can be drawn. -/
def compose : Step Unit := do
  let c ← get
  if 1 < c.partitions.size && c.composition.isNone then
    let composition := Composition.ofPartitions c.network.dims c.partitions
    modify fun c => { c with composing := none }
    let ordering ← liftOutcome (c.compositionOrdering composition)
    let tree ← liftOutcome (composition.build ordering (c.settings.diagram == .chain))
    discard (liftOutcome (composition.toAscii tree))
    modify fun c => { c with composing := some ordering, composition := some (composition, tree) }

/-- Order and join the partitions. -/
def prepare : Step Unit := do
  order
  compose

/-! ## Decision diagrams -/

/-- The partitions with their orderings. -/
def orderedParts (c : Compilation) : Outcome (List (Partition × List Variable)) :=
  c.partitions.parts.toList.zipIdx.mapM fun (p, i) => return (p, ← fetch c.orderings i)

/-- Compile to decision diagrams. The sizes of the tables add up over all attempts. -/
def conjoin : Step Circuits := do
  let c ← get
  let parts ← liftOutcome c.orderedParts
  let work := conjoinPartitions c.settings c.network c.encoding parts
  let manager ← liftOutcome
    (Decision.Manager.sized c.encoding.literalVariables c.settings.tableBits c.settings.memoBits)
  match work.run ⟨manager, c.stats.tableNodes, c.stats.tableOperators⟩ with
  | .ok results w =>
      modify fun c => { c with stats := ⟨results.map (·.2), w.tableNodes, w.tableOperators⟩ }
      return .decision w.manager (results.map (·.1))
  | .error f w =>
      modify fun c => { c with stats := ⟨c.stats.partitions, w.tableNodes, w.tableOperators⟩ }
      throw f

/-! ## Multigraphs -/

/-- The pseudo-tree of a partition: the given one, or that of its ordering. -/
def pseudoTree (c : Compilation) (i : Nat) : Outcome PseudoTree := do
  if let some t := c.pseudoTrees[i]? then return t
  let p ← c.partitions.get i
  let ordering ← fetch c.orderings i
  match c.settings.diagram with
  | .tree => PseudoTree.ofOrdering c.network p ordering
  | .decision | .chain => PseudoTree.chain c.network p ordering

/-- The spanning tree of a partition. -/
def spanningTree (c : Compilation) (i : Nat) : Outcome SpanningTree := do
  let bound := Bound.ofPartition c.network (← c.partitions.get i)
  SpanningTree.ofPseudoTree bound (← c.pseudoTree i) c.encoding

/-- A number of bytes in millions. -/
def inMegabytes (bytes : Float) : String := Decimal.fixed 1 (bytes / 1e6) ++ "MB"

/-- The spanning tree of a partition, if there is memory for it. -/
def affordableTree (c : Compilation) (i : Nat) : Outcome SpanningTree := do
  if c.settings.expired then fail .timeout
  let t ← c.spanningTree i
  let labelling := if c.settings.probabilities then .probability else .symbolic
  let required := Float.ofNat (t.requiredBytes labelling)
  let limit := c.settings.memoryLimit
  if limit < required then
    fail (.unsupported (s!"partition {i} needs about " ++ inMegabytes required ++
      ", over the limit of " ++ inMegabytes limit))
  return t

/-- Make the spanning trees of all partitions. -/
def span : Step Unit := do
  let c ← get
  let trees ← liftOutcome ((List.range c.partitions.size).mapM c.affordableTree)
  modify fun c => { c with spanning := trees.toArray }

variable {W : Type} [DecidableEq W] [Hashable W]

/-- Compile a spanning tree. Only chains are compiled in parallel. -/
def compileTree (c : Compilation) (labels : LabelAlgebra W) (t : SpanningTree) :
    Outcome (Multigraph W) :=
  let source : Multigraph.Source W := ⟨t, c.encoding, labels, c.settings.sharing⟩
  if c.settings.isParallel && !t.branches then
    Parallel.compile? c.settings.parallel source c.settings.expired
  else Multigraph.compile source c.settings.expired

/-- Compile all spanning trees. -/
def compileTrees (c : Compilation) (labels : LabelAlgebra W) : Outcome (List (Multigraph W)) :=
  let s := c.settings
  if s.isParallel && s.grain == .partition then
    Parallel.compileAll? s.parallel labels c.encoding s.sharing c.spanning.toList s.expired
  else c.spanning.toList.mapM (c.compileTree labels)

/-- The statistics of a multigraph. -/
def graphStats (label : EdgeLabel W) (g : Multigraph W) (ordering : List Variable)
    (t : SpanningTree) : PartitionStats :=
  let size := g.size label.weightCount
  ⟨ordering.length, t.nodeBound, size.nodes, size.edges, size.operators, size.andNodes,
    size.orNodes⟩

/-- Compile to multigraphs. -/
def unfold (label : EdgeLabel W) : Step (List (Multigraph W)) := do
  let c ← get
  let graphs ← liftOutcome (c.compileTrees label.toLabelAlgebra)
  let stats := (graphs.zip (c.orderings.toList.zip c.spanning.toList)).map
    fun (g, ordering, t) => graphStats label g ordering t
  modify fun c => { c with stats := { c.stats with partitions := stats } }
  return graphs

/-! ## Everything -/

/-- Make the diagrams of all partitions. -/
def compileCircuits : Step Circuits := do
  let c ← get
  match c.settings.diagram with
  | .decision => conjoin
  | .chain | .tree =>
      span
      if c.settings.probabilities then return .probability (← unfold Probability.label)
      else return .symbolic (← unfold Weights.label)

/-- Carry out all steps, except that the diagrams are not made if only orderings are asked for. -/
def compile : Step Unit := do
  prepare
  if !(← get).settings.orderOnly then
    let circuits ← compileCircuits
    modify fun c => { c with circuits := some circuits }

end Compilation
end BayesCircuit.Compiler
