import BayesCircuit.Multigraph.Basic
import Std.Data.HashMap

/-!
# Compiling multigraphs

The layers of a spanning tree are compiled from the deepest to the first. On each layer the
contexts are walked through in order. With sharing, every new node is looked up among those of its
layer first, and an equal one takes its place; without it, the or node of context `c` of a chain is
node `c` of its level.
-/

namespace BayesCircuit.Multigraph

variable {W : Type} [DecidableEq W] [Hashable W]

/-- What all layers of a multigraph are compiled from. -/
structure Source (W : Type) where
  tree : SpanningTree
  encoding : Encoding
  labels : LabelAlgebra W
  /-- Whether equal nodes of a layer are shared. -/
  sharing : Bool

/-- A level while its contexts are walked through. -/
structure Filling (W : Type) [DecidableEq W] [Hashable W] where
  nodes : Array (Node W)
  /-- The numbers of the nodes, if they are shared. -/
  known : Std.HashMap (Node W) Nat
  slots : Array Nat

/-- A level without nodes. -/
def Filling.start (l : Layer) : Filling W := ⟨#[], ∅, Array.replicate l.contexts 0⟩

/-- Store a node unless an equal one can be shared; its number and the level. -/
def Filling.add (sharing : Bool) (l : Layer) (n : Node W) (f : Filling W) :
    Outcome (Nat × Filling W) :=
  match if sharing then f.known[n]? else none with
  | some i => .ok (i, f)
  | none =>
      let i := f.nodes.size
      if l.nodes ≤ i then fail (.boundExceeded l.index l.nodes)
      else .ok (i, { f with
        nodes := f.nodes.push n, known := if sharing then f.known.insert n i else f.known })

/-- The node of a layer below that an edge leads to. `below` are the levels after that of the
layer. -/
def target (s : Source W) (l : Layer) (below : List (Level W)) (context : List Nat) (value : Nat)
    (child : Nat) : Outcome NodeId := do
  if child == s.tree.terminal then return terminalOf s.tree
  let level ← expect .outOfRange below[child - (l.index + 1)]?
  let address := (← s.tree.layer child).address
  return ⟨child, ← fetch level.slots (childContext address context value)⟩

/-- The edges of the or node of a context for the given values, and the level with their and
nodes. -/
def edgesFor (s : Source W) (l : Layer) (below : List (Level W)) (context : List Nat) :
    List Nat → Filling W → Outcome (List (Edge W) × Filling W)
  | [], f => .ok ([], f)
  | value :: values, f => do
      match ← edgeLabel? s.labels s.encoding l context value with
      | none =>
          let (edges, f) ← edgesFor s l below context values f
          return (⟨terminalOf s.tree, s.labels.zero⟩ :: edges, f)
      | some label =>
          let targets ← l.children.mapM (target s l below context value)
          match targets with
          | [only] =>
              let (edges, f) ← edgesFor s l below context values f
              return (⟨only, label⟩ :: edges, f)
          | _ =>
              let joint : Node W := ⟨l.label, .and, targets.map fun id => ⟨id, s.labels.unit⟩⟩
              let (i, f) ← f.add s.sharing l joint
              let (edges, f) ← edgesFor s l below context values f
              return (⟨⟨l.index, i⟩, label⟩ :: edges, f)

/-- Make the node of a context. -/
def fillContext (s : Source W) (l : Layer) (below : List (Level W)) (f : Filling W) (c : Counter) :
    Outcome (Filling W) := do
  let (edges, f) ← edgesFor s l below c.digits (List.range l.dim) f
  let (i, f) ← f.add s.sharing l ⟨l.label, .or, edges⟩
  return { f with slots := f.slots.setIfInBounds c.value i }

/-- Compile a layer on top of the levels after it. -/
def compileLayer (s : Source W) (expired : Bool) (l : Layer) (below : List (Level W)) :
    Outcome (Level W) := do
  if expired then fail .timeout
  let f ← l.counter.walk.foldlM (fillContext s l below) (.start l)
  return ⟨l.label, f.nodes, f.slots⟩

/-- Compile layers that follow each other. -/
def compileLayers (s : Source W) (expired : Bool) : List Layer → Outcome (List (Level W))
  | [] => .ok []
  | l :: ls => do
      let below ← compileLayers s expired ls
      return (← compileLayer s expired l below) :: below

/-- The layers of the variables. -/
def innerLayers (t : SpanningTree) : List Layer := (t.layers.toList.drop 1).take t.variableCount

/-- Compile a spanning tree. -/
def compile (s : Source W) (expired : Bool) : Outcome (Multigraph W) := do
  assemble s.labels s.tree (← compileLayers s expired (innerLayers s.tree))

end BayesCircuit.Multigraph
