import BayesCircuit.Multigraph.Compile
import BayesCircuit.Parallel.Pool

/-!
# Compiling multigraphs in parallel

Without sharing, the or node of context `c` of a chain is node `c` of its level, and its edges
follow from `c` alone. So the contexts can be worked on in any order. A task is a whole partition,
a whole layer or a range of the contexts of a layer. The results are put in order when all of them
are there. `compile` and `compileAll` say what the result is for any pool; `compile?` and
`compileAll?` ask first whether the pool can be set up.
-/

namespace BayesCircuit.Parallel

open Multigraph

/-- What a task is. -/
inductive Grain where
  | partition
  | layer
  | node
  deriving DecidableEq, Repr

namespace Grain

/-- The number of a grain. -/
def number : Grain → Nat
  | partition => 1
  | layer => 2
  | node => 3

/-- The grain with a given number. -/
def ofNumber? : Nat → Option Grain
  | 1 => some partition
  | 2 => some layer
  | 3 => some node
  | _ => none

end Grain

/-- How work is spread. -/
structure Options where
  /-- The number of workers; zero stands for one for each processor. -/
  workers : Nat
  queue : Pool.QueueKind
  grain : Grain
  /-- The number of tasks that a channel holds. -/
  capacity : Nat
  processors : Nat
  deriving DecidableEq, Repr

namespace Options

def workerCount (o : Options) : Nat := if o.workers == 0 then max o.processors 1 else o.workers

/-- The pool of workers. -/
def pool (o : Options) : Pool.Setup := ⟨o.queue, o.workerCount, max o.capacity 1⟩

end Options

/-- Contexts of a layer, from `first` up to `last`, which is not one of them. -/
structure Range where
  layer : Layer
  first : Nat
  last : Nat

/-- The number of contexts of a task. -/
def chunkSize (o : Options) (contexts : Nat) : Nat :=
  match o.grain with
  | .node => max ((contexts + (o.workerCount * 4 - 1)) / (o.workerCount * 4)) 1
  | _ => max contexts 1

/-- Cut the contexts of a layer into ranges of `size` contexts. -/
def chunks (l : Layer) (size : Nat) : List Range :=
  (List.range ((l.contexts + (size - 1)) / size)).map fun i =>
    ⟨l, i * size, min ((i + 1) * size) l.contexts⟩

variable {W : Type} [DecidableEq W] [Hashable W]

/-- The node of a layer below that an edge leads to: the one of the context's number. -/
def directTarget (s : Source W) (context : List Nat) (value child : Nat) : Outcome NodeId := do
  if child == s.tree.terminal then return terminalOf s.tree
  let below ← s.tree.layer child
  let c := childContext below.address context value
  ensure .outOfRange (c < below.contexts)
  return ⟨child, c⟩

/-- An edge of an or node. -/
def directEdge (s : Source W) (l : Layer) (context : List Nat) (value : Nat) :
    Outcome (Edge W) := do
  match ← edgeLabel? s.labels s.encoding l context value with
  | none => return ⟨terminalOf s.tree, s.labels.zero⟩
  | some label => return ⟨← directTarget s context value (l.children.headD 0), label⟩

/-- The or node of a context of a chain. -/
def orNode (s : Source W) (l : Layer) (c : Nat) : Outcome (Node W) := do
  let context := (l.counter.withValue c).digits
  return ⟨l.label, .or, ← (List.range l.dim).mapM (directEdge s l context)⟩

/-- The or nodes of the contexts of a range. -/
def orNodes (s : Source W) (r : Range) : Outcome (List (Node W)) :=
  (List.range (r.last - r.first)).mapM fun i => orNode s r.layer (r.first + i)

/-- A finished task. -/
structure Piece (W : Type) where
  layer : Nat
  first : Nat
  nodes : List (Node W)

/-- Whether a piece belongs before another one. -/
def Piece.before (a b : Piece W) : Bool :=
  a.layer < b.layer || a.layer == b.layer && a.first ≤ b.first

/-- Work on a range. -/
def workOn (s : Source W) (expired : Bool) (r : Range) : Outcome (Piece W) := do
  if expired then fail .timeout
  return ⟨r.layer.index, r.first, ← orNodes s r⟩

/-- The level of a layer, made of the pieces that belong to it. -/
def levelOf (pieces : List (Piece W)) (l : Layer) : Outcome (Level W) :=
  let nodes := ((pieces.filter (·.layer == l.index)).flatMap (·.nodes)).toArray
  if nodes.size != l.contexts then
    fail (.internal (s!"layer {l.index} has {nodes.size} of {l.contexts} nodes after " ++
      "parallel compilation") none)
  else .ok ⟨l.label, nodes, Array.range nodes.size⟩

/-- The multigraph of a chain, given the results of its tasks in any order. -/
def assemblePieces (s : Source W) (results : List (Outcome (Piece W))) :
    Outcome (Multigraph W) := do
  let pieces := (← results.mapM id).mergeSort Piece.before
  assemble s.labels s.tree (← (innerLayers s.tree).mapM (levelOf pieces))

/-- Fail if equal nodes are to be shared. -/
def checkSharing (sharing : Bool) : Outcome Unit :=
  if sharing then fail (.unsupported "parallel multigraph compilation with local structure")
  else .ok ()

/-- The tasks of a tree. -/
def tasks (o : Options) (t : SpanningTree) : List Range :=
  (innerLayers t).flatMap fun l => chunks l (chunkSize o l.contexts)

/-- Fail if a tree cannot be compiled in parallel. -/
def checkTree (s : Source W) : Outcome Unit := do
  checkSharing s.sharing
  if s.tree.branches then fail (.unsupported "parallel multigraph compilation of a tree")

/-- Compile a chain. -/
def compile (o : Options) (s : Source W) (expired : Bool) : Outcome (Multigraph W) := do
  checkTree s
  assemblePieces s (Pool.run o.pool (workOn s expired) (tasks o s.tree))

/-- Put numbered results in order. -/
def inOrder {α : Type} (results : List (Outcome (Nat × α))) : Outcome (List α) := do
  return ((← results.mapM id).mergeSort fun a b => a.1 ≤ b.1).map (·.2)

/-- Compile several trees, each of them as one task. -/
def compileAll (o : Options) (labels : LabelAlgebra W) (e : Encoding) (sharing : Bool)
    (trees : List SpanningTree) (expired : Bool) : Outcome (List (Multigraph W)) := do
  checkSharing sharing
  let work := fun ((t, i) : SpanningTree × Nat) => do
    return (i, ← Multigraph.compile ⟨t, e, labels, false⟩ expired)
  inOrder (Pool.run o.pool work trees.zipIdx)

/-! ## Requirements

A pool has to be set up before it works. The functions below check that this is possible before
they do what the ones above do. -/

/-- The bytes of a task that is a range of contexts. -/
def rangeBytes : Nat := 24

/-- The bytes of a task that is the number of a tree. -/
def treeBytes : Nat := 8

/-- Compile a chain with a pool that can be set up. -/
def compile? (o : Options) (s : Source W) (expired : Bool) : Outcome (Multigraph W) := do
  checkTree s
  o.pool.admit rangeBytes
  compile o s expired

/-- Compile several trees with a pool that can be set up. -/
def compileAll? (o : Options) (labels : LabelAlgebra W) (e : Encoding) (sharing : Bool)
    (trees : List SpanningTree) (expired : Bool) : Outcome (List (Multigraph W)) := do
  checkSharing sharing
  o.pool.admit treeBytes
  compileAll o labels e sharing trees expired

end BayesCircuit.Parallel
