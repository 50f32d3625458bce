import BayesCircuit.Multigraph.Basic
import BayesCircuit.Text.Blank

/-!
# Multigraphs as text

A dump starts with a header that says whether some layer branches and how many nodes and edges
there are, the terminal included. The terminal is line zero, and node number `k` in preorder is
line `k`: its kind, its variable, the number of its edges, and for each edge the line it leads to
and its label.
-/

namespace BayesCircuit.Multigraph

variable {W : Type}

/-- The line of each node, by layer. -/
def lineNumbers (g : Multigraph W) : Array (Array Nat) :=
  g.descendants.zipIdx.foldl
    (fun lines (id, i) => lines.modify id.layer (·.setIfInBounds id.index (i + 1)))
    (g.levels.map fun l => Array.replicate l.nodes.size 0)

/-- The line of a node. -/
def lineOf (lines : Array (Array Nat)) (id : NodeId) : Nat :=
  (lines.getD id.layer #[]).getD id.index 0

/-- The words of the line that describes a node. -/
def nodeWords (label : EdgeLabel W) (lines : Array (Array Nat)) (n : Node W) : List String :=
  let kind := match n.kind with
    | .and => "*"
    | .or => "+"
  kind :: toString n.owner :: toString n.edges.length ::
    n.edges.flatMap fun e => toString (lineOf lines e.target) :: label.dump e.label

/-- The dump. -/
def toDumpText (label : EdgeLabel W) (g : Multigraph W) : String :=
  let lines := g.lineNumbers
  let size := g.size label.weightCount
  let shape := if g.branches then "tree" else "chain"
  (g.descendants.filterMap g.node?).foldl
    (fun text n => text ++ Text.join " " (nodeWords label lines n) ++ "\n")
    (s!"multigraph {shape} {size.nodes + 1} {size.edges}\n0 0\n")

/-! ## Drawing -/

/-- The name of a node in a drawing. -/
def drawingName (id : NodeId) : String := s!"n{id.layer}_{id.index}"

/-- The line that draws a node. -/
def drawNode (g : Multigraph W) (e : Encoding) (id : NodeId) : Outcome String := do
  let n ← expect .outOfRange (g.node? id)
  match n.kind with
  | .and => return "    " ++ drawingName id ++ " [shape=circle,label=\"*\"];\n"
  | .or => return "    " ++ drawingName id ++ " [label=\"+\\n" ++ (← e.name n.owner) ++ "\"];\n"

/-- The lines that draw the edges of a node. -/
def drawEdges (label : EdgeLabel W) (g : Multigraph W) (e : Encoding) (id : NodeId) :
    Outcome String := do
  let n ← expect .outOfRange (g.node? id)
  let lines := n.edges.zipIdx.map fun (edge, value) =>
    let arrow := "    " ++ drawingName id ++ " -> " ++ drawingName edge.target
    match n.kind with
    | .and => arrow ++ ";\n"
    | .or => arrow ++ " [fontsize=8,label=\"" ++ e.valueName n.owner value ++ "\\n" ++
        label.caption edge.label ++ "\"];\n"
  return String.join lines

/-- The part below the root as a graph drawing. -/
def toDotText (label : EdgeLabel W) (g : Multigraph W) (e : Encoding) : Outcome String := do
  let order := g.descendants
  let nodes ← order.mapM (g.drawNode e)
  let edges ← order.mapM (drawEdges label g e)
  return "digraph MULTIGRAPH \x7b\n    center = true;\n    rankdir = TB;\n" ++
    "    edge [arrowsize=.5,dir = normal];\n    " ++ drawingName g.terminal ++
    " [shape=square,label=\"T\"];\n" ++ String.join nodes ++ String.join edges ++ "\x7d\n"

end BayesCircuit.Multigraph
