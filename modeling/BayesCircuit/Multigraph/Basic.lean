import BayesCircuit.Multigraph.Label
import BayesCircuit.SpanningTree.Basic

/-!
# Multigraphs

A multigraph is an and-or diagram whose nodes lie on the layers of a spanning tree. On the layer
of a variable there is an *or* node for each context, with one edge for each value of the
variable; several contexts may share a node. If the layer branches, an edge leads to an *and* node
of the same layer, which has one edge to each layer below. The nodes of a layer are stored in the
order of their creation, so and nodes come before the or nodes that use them.

* `childContext` finds the context of a layer below that an edge leads to.
* `edgeLabel?` multiplies the rows that an edge completes. It has no result if one of them has the
  reserved weight zero; then the edge leads to the terminal.
-/

namespace BayesCircuit

namespace Multigraph

/-- The layer of a node and its number there. -/
structure NodeId where
  layer : Nat
  index : Nat
  deriving DecidableEq, Hashable, Repr

instance : ToString NodeId := ⟨fun id => s!"{id.layer}:{id.index}"⟩

/-- Whether a node adds up or multiplies what its edges lead to. -/
inductive Kind where
  | or
  | and
  deriving DecidableEq, Hashable, Repr

structure Edge (W : Type) where
  target : NodeId
  label : W
  deriving DecidableEq, Hashable, Repr

/-- A node, the variable of its layer and its edges. -/
structure Node (W : Type) where
  owner : Variable
  kind : Kind
  edges : List (Edge W)
  deriving DecidableEq, Hashable, Repr

/-- The nodes of a layer and, for each of its contexts, the number of the context's node. -/
structure Level (W : Type) where
  owner : Variable
  nodes : Array (Node W)
  slots : Array Nat

/-- The terminal node. -/
def terminalNode {W : Type} : Node W := ⟨terminalLabel, .or, []⟩

/-- The level of the terminal. -/
def terminalLevel {W : Type} : Level W := ⟨terminalLabel, #[terminalNode], #[0]⟩

/-! ## Where edges lead and what they are labelled with -/

/-- The digits of the context of a layer below, given those of the layer above it and the value of
the variable there. -/
def childDigits (a : Address) (context : List Nat) (value : Nat) : List Nat :=
  a.sources.zipIdx.map fun (source?, i) =>
    match source? with
    | some p => context.getD p 0
    | none => if !a.expand && i == a.position then value else 0

/-- The number of the context of a layer below. -/
def childContext (a : Address) (context : List Nat) (value : Nat) : Nat :=
  ((Counter.zero a.dims).withDigits (childDigits a context value)).value

/-- The digits of the row that an edge selects in the table of a message. -/
def rowDigits (m : Message) (context : List Nat) (value : Nat) : List Nat :=
  m.sources.zipIdx.map fun (source?, i) =>
    if i == m.position then value else source?.elim 0 (context.getD · 0)

/-- The row that an edge selects in the table of a message. -/
def rowOf (f : Factor) (m : Message) (context : List Nat) (value : Nat) : Nat :=
  (f.counter.withDigits (rowDigits m context value)).value

variable {W : Type}

/-- Multiply a label by the rows of messages, unless one of them has the weight zero. -/
def multiplyRows (labels : LabelAlgebra W) (e : Encoding) (context : List Nat) (value : Nat) :
    List Message → W → Outcome (Option W)
  | [], label => .ok (some label)
  | m :: ms, label => do
      let f ← e.factor m.owner
      let row := rowOf f m context value
      if (← fetch f.weights row) == 0 then return none
      multiplyRows labels e context value ms (labels.multiply f row label)

/-- The label of the edge for a value. -/
def edgeLabel? (labels : LabelAlgebra W) (e : Encoding) (l : Layer) (context : List Nat)
    (value : Nat) : Outcome (Option W) :=
  multiplyRows labels e context value l.messages labels.unit

end Multigraph

/-- An and-or diagram on the layers of a spanning tree. -/
structure Multigraph (W : Type) where
  /-- The levels in the order of the layers, the terminal last. -/
  levels : Array (Multigraph.Level W)
  /-- Nothing if there is no variable. -/
  root : Option Multigraph.NodeId
  /-- Whether some layer branches. -/
  branches : Bool

namespace Multigraph

variable {W : Type}

/-- The terminal of a tree. -/
def terminalOf (t : SpanningTree) : NodeId := ⟨t.terminal, 0⟩

/-- The terminal. -/
def terminal (g : Multigraph W) : NodeId := ⟨g.levels.size - 1, 0⟩

/-- The multigraph with the given levels below the root. Of several trees the roots are joined by
an and node. -/
def assemble (labels : LabelAlgebra W) (t : SpanningTree) (levels : List (Level W)) :
    Outcome (Multigraph W) := do
  let top ← t.layer 0
  let trees ← (top.children.filter (· != t.terminal)).mapM fun c => do
    let level ← expect .outOfRange levels[c - 1]?
    return NodeId.mk c (← fetch level.slots 0)
  let joint : Node W := ⟨top.label, .and, trees.map fun id => ⟨id, labels.unit⟩⟩
  let (nodes, root) := match trees with
    | [] => ([], none)
    | [only] => ([], some only)
    | _ => ([joint], some (NodeId.mk 0 0))
  let first : Level W := ⟨top.label, nodes.toArray, #[]⟩
  return { levels := (first :: levels ++ [terminalLevel]).toArray, root, branches := t.branches }

/-- The node with a given number. -/
def node? (g : Multigraph W) (id : NodeId) : Option (Node W) := do
  (← g.levels[id.layer]?).nodes[id.index]?

/-- The edges of a node. -/
def edgesOf (g : Multigraph W) (id : NodeId) : List (Edge W) := (g.node? id).elim [] Node.edges

/-! ## The nodes below the root -/

/-- The number of edges of all nodes. -/
def edgeCount (g : Multigraph W) : Nat :=
  sumOf (g.levels.toList.map fun l => sumOf (l.nodes.toList.map (·.edges.length)))

/-- Visit the nodes of a stack and those below them, each once; `seen` holds those visited before,
the last one first, and `marks` tells them apart. -/
def visitFrom (g : Multigraph W) :
    Nat → List NodeId → Array (Array Bool) → List NodeId → List NodeId
  | 0, _, _, seen => seen.reverse
  | _ + 1, [], _, seen => seen.reverse
  | fuel + 1, id :: stack, marks, seen =>
      if (marks.getD id.layer #[]).getD id.index true then visitFrom g fuel stack marks seen
      else
        visitFrom g fuel ((g.edgesOf id).map (·.target) ++ stack)
          (marks.modify id.layer (·.setIfInBounds id.index true)) (id :: seen)

/-- The nodes below the root in preorder, each where it is met first, without the terminal. -/
def descendants (g : Multigraph W) : List NodeId :=
  match g.root with
  | none => []
  | some root =>
      let marks := g.levels.map fun l => Array.replicate l.nodes.size false
      visitFrom g (g.edgeCount + 1) [root] (marks.modify g.terminal.layer (·.map fun _ => true)) []

/-- What is counted in a multigraph. -/
structure Size where
  nodes : Nat
  andNodes : Nat
  orNodes : Nat
  edges : Nat
  weights : Nat
  operators : Nat
  deriving DecidableEq, Repr

instance : ToString Size :=
  ⟨fun s => s!"{s.nodes} nodes ({s.orNodes} or, {s.andNodes} and), {s.edges} edges, " ++
    s!"{s.weights} weights, {s.operators} operators"⟩

/-- Count a node. -/
def Size.add (weightCount : W → Nat) (s : Size) (n : Node W) : Size :=
  let edges := n.edges.length
  match n.kind with
  | .and => { s with
      nodes := s.nodes + 1, edges := s.edges + edges, andNodes := s.andNodes + 1
      operators := s.operators + (edges - 1) }
  | .or =>
      let weights := sumOf (n.edges.map fun e => weightCount e.label)
      { s with
        nodes := s.nodes + 1, edges := s.edges + edges, orNodes := s.orNodes + 1
        weights := s.weights + weights
        operators := s.operators + (2 * edges + weights) }

/-- The size of the part below the root. -/
def size (weightCount : W → Nat) (g : Multigraph W) : Size :=
  (g.descendants.filterMap g.node?).foldl (Size.add weightCount) ⟨0, 0, 0, 0, 0, 0⟩

end Multigraph
end BayesCircuit
