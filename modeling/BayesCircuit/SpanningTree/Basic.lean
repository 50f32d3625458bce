import BayesCircuit.Bound.Basic
import BayesCircuit.Encoding.Basic
import BayesCircuit.PseudoTree.Basic

/-!
# Spanning trees

A spanning tree is a pseudo-tree that has been prepared for compilation layer by layer. Each
variable has a *layer*. The spanning variables of a layer are those above it on which something at
or below it still depends; a *context* of the layer is an assignment to them. Tables travel as
*messages* to the deepest layer that mentions them, where all their variables are known.

| quantity  | per layer                                                |
|-----------|----------------------------------------------------------|
| or nodes  | one for each context                                     |
| and nodes | one for each context and value if the layer branches     |
| or edges  | one for each context and value                           |
| and edges | and nodes times branches                                 |
| weights   | or edges times messages                                  |

Layers are numbered in preorder. Number zero is the root that joins the components, and the last
number is that of the terminal layer, which is below every leaf.
-/

namespace BayesCircuit

open Collection

/-- The variable of the terminal layer. -/
def terminalLabel : Variable := PseudoTree.joiner - 1

/-- A table at the layer that completes it. -/
structure Message where
  /-- The variable whose table it is. -/
  owner : Variable
  /-- For each variable of the table its position among the spanning variables of the layer. -/
  sources : Projection
  /-- The position of the layer's variable among the variables of the table. -/
  position : Nat
  deriving DecidableEq, Repr

/-- How the contexts of a layer follow from those of the layer above it. -/
structure Address where
  /-- The position of the variable above among the spanning variables; their number if it is not
  one of them. -/
  position : Nat
  /-- Whether the variable above is no spanning variable, so that its value does not matter. -/
  expand : Bool
  /-- The domain sizes of the spanning variables. -/
  dims : List Nat
  /-- For each spanning variable its position in the layer above. -/
  sources : Projection
  deriving DecidableEq, Repr

/-- A variable of a pseudo-tree with what its compilation needs. -/
structure Layer where
  label : Variable
  index : Nat
  /-- The domain size of the variable; zero for the joining root and the terminal layer. -/
  dim : Nat
  /-- The number of contexts. -/
  contexts : Nat
  /-- The spanning variables, ascending. -/
  spanning : List Variable
  messages : List Message
  /-- The numbers of the layers below. -/
  children : List Nat
  address : Address
  deriving DecidableEq, Repr

namespace Layer

/-- Whether this is the root that joins the components. -/
def isJoiner (l : Layer) : Bool := l.label == PseudoTree.joiner

def isTerminal (l : Layer) : Bool := l.children.isEmpty

/-- Whether there are several layers below. -/
def branches (l : Layer) : Bool := 1 < l.children.length

def orNodes (l : Layer) : Nat := l.contexts

def andNodes (l : Layer) : Nat := if l.branches then l.contexts * l.dim else 0

def nodes (l : Layer) : Nat := l.orNodes + l.andNodes

def orEdges (l : Layer) : Nat := l.contexts * l.dim

def andEdges (l : Layer) : Nat := l.andNodes * l.children.length

def edges (l : Layer) : Nat := l.orEdges + l.andEdges

def weights (l : Layer) : Nat := l.orEdges * l.messages.length

/-- A counter over the contexts. -/
def counter (l : Layer) : Counter := .zero l.address.dims

end Layer

/-- Upper bounds over all layers. -/
structure LayerTotals where
  orNodes : Nat
  andNodes : Nat
  orEdges : Nat
  andEdges : Nat
  weights : Nat
  /-- The largest number of contexts of a layer. -/
  contexts : Nat
  deriving DecidableEq, Repr

/-- A count that is replaced by the greatest number of a machine word where it does not fit. -/
def saturate (n : Nat) : Nat := min n saturated

/-- The totals of a list of layers. -/
def LayerTotals.ofLayers (ls : List Layer) : LayerTotals where
  orNodes := saturate (sumOf (ls.map Layer.orNodes))
  andNodes := saturate (sumOf (ls.map Layer.andNodes))
  orEdges := saturate (sumOf (ls.map Layer.orEdges))
  andEdges := saturate (sumOf (ls.map Layer.andEdges))
  weights := saturate (sumOf (ls.map Layer.weights))
  contexts := (ls.map Layer.contexts).foldl max 0

/-- The layers of a pseudo-tree. -/
structure SpanningTree where
  /-- The layers in preorder, the terminal layer last. -/
  layers : Array Layer
  totals : LayerTotals
  /-- The variables below the root, each before those below it. -/
  preorder : List Variable
  width : Nat
  height : Nat
  deriving DecidableEq, Repr

namespace SpanningTree

/-- What all layers of a tree are made from. -/
structure Source where
  bound : Bound
  encoding : Encoding
  /-- The number of the terminal layer. -/
  terminal : Nat

/-- The constraints of a list that are still waiting for their layer, and those that wait
afterwards. -/
def collect : List Nat → Array Bool → List Nat × Array Bool
  | [], waiting => ([], waiting)
  | c :: cs, waiting =>
      if waiting.getD c false then
        let (taken, waiting) := collect cs (waiting.setIfInBounds c false)
        (c :: taken, waiting)
      else collect cs waiting

/-- The constraints that the layer of a variable completes. -/
def completed (b : Bound) (v : Variable) (waiting : Array Bool) : List Nat × Array Bool :=
  if v == PseudoTree.joiner then ([], waiting) else collect (b.constraintsOf.getD v []) waiting

/-- The number of contexts of the layer of a variable. It must be possible to number them. -/
def contextCount (b : Bound) (v : Variable) (spanning : List Variable) : Outcome Nat :=
  if v == PseudoTree.joiner then .ok 0
  else
    match (spanning.map b.dim).foldlM Tally.word.mul? 1 with
    | some n =>
        if n < halfWordSize - 1 then .ok n
        else fail (.unsupported (s!"layer of variable {v} has too many contexts"))
    | none => fail (.unsupported (s!"layer of variable {v} has too many contexts"))

/-- The table of a variable at the layer of `v`. -/
def messageAt (e : Encoding) (v : Variable) (spanning : List Variable) (owner : Variable) :
    Outcome Message := do
  let f ← e.factor owner
  return ⟨owner, Counter.projection spanning f.scope, (f.scope.findIdx? (· == v)).getD 0⟩

/-- How the contexts of a layer follow from those of the layer of `v`. -/
def addressBelow (b : Bound) (v : Variable) (above spanning : List Variable) : Address where
  position := (spanning.findIdx? (· == v)).getD spanning.length
  expand := !spanning.contains v
  dims := spanning.map b.dim
  sources := Counter.projection above spanning

/-- Tell the first of a list of layers how its contexts follow from those of the layer of `v`. -/
def connect (b : Bound) (v : Variable) (above : List Variable) : List Layer → List Layer
  | [] => []
  | l :: ls => { l with address := addressBelow b v above l.spanning } :: ls

/-- The numbers of the first layers of lists that are numbered from `index` on. -/
def firstIndices (index : Nat) : List (List Layer) → List Nat
  | [] => []
  | ls :: rest => index :: firstIndices (index + ls.length) rest

/-- The layer of a variable over the layers below it, which are numbered from `index + 1` on, and
these layers. -/
def layersOver (s : Source) (index : Nat) (v : Variable) (below : List (List Layer))
    (waiting : Array Bool) : Outcome (List Layer × Array Bool) := do
  let (cs, waiting) := completed s.bound v waiting
  let inherited := below.foldl (fun u ls => Ascending.union u (ls.head?.elim [] Layer.spanning)) []
  let mentioned := cs.foldl (fun u c => Ascending.union u (s.bound.scopes.getD c [])) inherited
  let spanning := Ascending.erase v mentioned
  let contexts ← contextCount s.bound v spanning
  let messages ← cs.mapM (messageAt s.encoding v spanning)
  let layer : Layer :=
    { label := v, index, dim := s.bound.dim v, contexts, spanning, messages
      children := if below.isEmpty then [s.terminal] else firstIndices (index + 1) below
      address := ⟨0, false, [], []⟩ }
  return (layer :: (below.map (connect s.bound v spanning)).flatten, waiting)

mutual

/-- The layers of a tree, the first of which has the given number, and the constraints that wait
for a layer above. -/
def layersOf (s : Source) (index : Nat) (waiting : Array Bool) :
    PseudoTree.Node → Outcome (List Layer × Array Bool)
  | .mk v children => do
      let (below, waiting) ← layersOfAll s (index + 1) waiting children
      layersOver s index v below waiting

/-- The layers of trees from left to right. -/
def layersOfAll (s : Source) (index : Nat) (waiting : Array Bool) :
    List PseudoTree.Node → Outcome (List (List Layer) × Array Bool)
  | [] => .ok ([], waiting)
  | n :: ns => do
      let (ls, waiting) ← layersOf s index waiting n
      let (rest, waiting) ← layersOfAll s (index + ls.length) waiting ns
      return (ls :: rest, waiting)

end

/-- The layer below every leaf. -/
def terminalLayer (index : Nat) : Layer :=
  { label := terminalLabel, index, dim := 0, contexts := 1, spanning := [], messages := []
    children := [], address := ⟨0, true, [], []⟩ }

/-- The layers of a pseudo-tree. The root has no contexts. -/
def ofPseudoTree (b : Bound) (t : PseudoTree) (e : Encoding) : Outcome SpanningTree := do
  let labels := t.root.preorder
  ensure .outOfRange (labels.all fun v => v == PseudoTree.joiner || v < b.dims.size)
  let terminal := labels.length
  let (ls, _) ← layersOf ⟨b, e, terminal⟩ 0 b.enabled t.root
  let layers := (ls ++ [terminalLayer terminal]).toArray.modify 0 fun l => { l with contexts := 0 }
  return { layers, totals := .ofLayers ls, preorder := t.preorder, width := t.width
           height := t.height }

/-! ## What a tree shows -/

/-- The number of layers. -/
def size (t : SpanningTree) : Nat := t.layers.size

def layer (t : SpanningTree) (i : Nat) : Outcome Layer := fetch t.layers i

/-- The number of the terminal layer. -/
def terminal (t : SpanningTree) : Nat := t.size - 1

/-- The number of variables that have a layer. -/
def variableCount (t : SpanningTree) : Nat := t.size - 2

def isEmpty (t : SpanningTree) : Bool := t.variableCount == 0

/-- Whether some layer branches. -/
def branches (t : SpanningTree) : Bool := t.layers.any Layer.branches

/-- The message that carries the table of a variable. -/
def message? (t : SpanningTree) (owner : Variable) : Option Message :=
  t.layers.toList.findSome? fun l => l.messages.find? (·.owner == owner)

/-- An upper bound on the number of nodes, the terminal included. -/
def nodeBound (t : SpanningTree) : Nat := saturate (t.totals.orNodes + t.totals.andNodes + 1)

/-- An upper bound on the number of edges. -/
def edgeBound (t : SpanningTree) : Nat := saturate (t.totals.orEdges + t.totals.andEdges)

/-- The number of contexts for each variable that has a layer. -/
def averageContexts (t : SpanningTree) : Float :=
  Float.ofNat t.totals.orNodes / Float.ofNat (max t.variableCount 1)

/-- What an edge of a diagram is labelled with. -/
inductive Labelling where
  | symbolic
  | probability
  deriving DecidableEq, Repr

/-- An estimate of the memory for a diagram: a node takes 29 bytes and a slot of its layer 8, an
edge 8 bytes besides its label, a context 4 bytes. A label is a probability of 8 bytes or a list of
24 bytes with 4 bytes for each weight. -/
def requiredBytes (t : SpanningTree) (labelling : Labelling) : Nat :=
  let nodes := t.totals.orNodes + t.totals.andNodes
  let label := match labelling with
    | .symbolic => 24
    | .probability => 8
  let weights := match labelling with
    | .symbolic => t.totals.weights * 4
    | .probability => 0
  saturate (nodes * 29 + t.edgeBound * (8 + label) + nodes * 8 + t.totals.orNodes * 4 + weights)

/-- The estimate in millions of bytes, for weights as labels. -/
def requiredMegabytes (t : SpanningTree) : Float :=
  Float.ofNat (t.requiredBytes .symbolic) / 1e6

/-! ## Drawing -/

/-- The line that draws a layer. -/
def drawLayer (l : Layer) : String :=
  s!"    {l.index} [ fontsize=8, label = \"Variable {l.label}\\nSpanning: \x7b" ++
    String.intercalate "," (l.spanning.map toString) ++
    s!"\x7d\\nCardinality: {l.contexts}\" ];\n"

/-- The lines that draw the edges from a layer to those below it, except the terminal one. -/
def drawEdges (t : SpanningTree) (l : Layer) : String :=
  String.join ((l.children.filter (· != t.terminal)).map fun c => s!"    {l.index} -> {c};\n")

/-- The layers as a graph drawing. -/
def toDotText (t : SpanningTree) : String :=
  "digraph SPANNINGTREE \x7b\n    forcelabels = true;\n    center = true;\n    rankdir = TB;\n" ++
    "    edge [arrowsize=.5,dir = normal];\n\n" ++
    "    0 [ label = \"order\", shape = plaintext ];\n" ++
    String.join (((t.layers.toList.drop 1).take t.variableCount).map drawLayer) ++ "\n" ++
    String.join (t.layers.toList.map t.drawEdges) ++ "\x7d\n"

end SpanningTree
end BayesCircuit
