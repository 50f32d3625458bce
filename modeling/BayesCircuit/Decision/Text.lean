import BayesCircuit.Decision.Measure
import BayesCircuit.Text.Blank
import Std.Data.HashSet

/-!
# Decision diagrams as text

A circuit file starts with the number of nodes and one line for each terminal. Then every decision
node has a line, in preorder, with its literal, the lines of its high and low child, the number of
its weights and the weights.

In a drawing, the decision nodes that test one variable stand beside each other. High edges are
solid and carry weights, low edges are dashed.
-/

namespace BayesCircuit.Decision.Manager

open Collection

/-- The line of each node: its position behind the terminals. -/
def circuitLines (m : Manager) (order : List Handle) : Array Nat :=
  order.zipIdx.foldl (fun lines (h, i) => lines.setIfInBounds h (i + 2))
    ((Array.replicate m.arena.size 0).setIfInBounds Handle.true' 1)

/-- The circuit file of a diagram. -/
def toCircuitText (m : Manager) (root : Handle) : Outcome String := do
  let order ← m.decisions root
  let lines := m.circuitLines order
  let texts ← order.mapM fun h => do
    let n ← m.node h
    let words := [toString n.literal, toString (lines.getD n.high 0), toString (lines.getD n.low 0),
      toString n.weights.length] ++ n.weights.map toString
    return Text.join " " words ++ "\n"
  return s!"wpbdd {← m.size root}\n0 0 0 0\n0 0 0 0\n" ++ String.join texts

/-! ## Drawing -/

/-- How a drawing looks. -/
structure Style where
  /-- The shape of decision nodes. -/
  shape : String
  showWeights : Bool

/-- Circles with weights. -/
def Style.standard : Style := ⟨"circle", true⟩

/-- The decision nodes of a list by variable, both ascending. -/
def groups (m : Manager) (nodes : List Handle) : Outcome (List (List (Handle × Node))) := do
  let tested ← nodes.mergeSort.mapM fun h => do
    let n ← m.node h
    return ((m.variableOf? n.literal).getD 0, h, n)
  let scope := Ascending.ofList (tested.map (·.1))
  return scope.map fun v => (tested.filter (·.1 == v)).map (·.2)

/-- The lines that draw the nodes of one variable. -/
def drawGroup (group : List (Handle × Node)) : String :=
  "\x7b rank=same\n" ++
    String.join (group.map fun (h, n) => s!"{h} [label=\"{n.literal}\"];\n") ++ "\x7d\n"

/-- Where an edge is drawn to. -/
def drawTarget (shown : Std.HashSet Handle) (h : Handle) : String :=
  if shown.contains h then toString h else "more"

/-- The lines that draw the edges of a node. -/
def drawEdges (style : Style) (shown : Std.HashSet Handle) (h : Handle) (n : Node) : String :=
  let label := if style.showWeights && !n.weights.isEmpty
    then ", label=\"" ++ Weights.toText n.weights ++ "\"" else ""
  s!"{h} -> " ++ drawTarget shown n.high ++ " [style=solid" ++ label ++ "];\n" ++
    s!"{h} -> " ++ drawTarget shown n.low ++ " [style=dashed];\n"

/-- Draw some nodes of the diagrams of roots. Edges to other nodes are drawn to a placeholder. -/
def draw (m : Manager) (style : Style) (roots : List Handle) (shown : Std.HashSet Handle) :
    Outcome String := do
  let groups ← m.groups (shown.toList.filter (!·.isTerminal))
  let drawn := groups.flatten
  let truncated := drawn.any fun (_, n) => !shown.contains n.high || !shown.contains n.low
  return "digraph \x7b\nnode [shape=" ++ style.shape ++ ", fixedsize=true];\n" ++
    "\x7b rank=sink\n0 [shape=square, label=\"F\"];\n1 [shape=square, label=\"T\"];\n\x7d\n" ++
    String.join (groups.map drawGroup) ++
    String.join (drawn.map fun (h, n) => drawEdges style shown h n) ++
    (if truncated then "more [shape=none, label=\"...\"];\n" else "") ++ "\x7b rank=source\n" ++
    String.join (roots.zipIdx.map fun (r, i) =>
      s!"r{i} [shape=rect, label=\"" ++ r.display ++ "\"];\n") ++ "\x7d\n" ++
    String.join (roots.zipIdx.map fun (r, i) => s!"r{i} -> {r};\n") ++ "\x7d\n"

/-- The diagrams of roots as a drawing. -/
def toDotText (m : Manager) (style : Style) (roots : List Handle) : Outcome String := do
  let reached ← roots.mapM m.reach
  m.draw style roots (.ofList reached.flatten)

/-- Choose at most `width` nodes on each of the first levels of a queue, which pairs nodes with
their levels; `counts` says how many have been chosen on each level. -/
def nearFrom (m : Manager) (depth width : Nat) :
    Nat → List (Handle × Nat) → Array Nat → Std.HashSet Handle → Outcome (Std.HashSet Handle)
  | 0, _, _, chosen => .ok chosen
  | _ + 1, [], _, chosen => .ok chosen
  | fuel + 1, (h, level) :: queue, counts, chosen => do
      if depth < level || chosen.contains h || width ≤ counts.getD level 0 then
        nearFrom m depth width fuel queue counts chosen
      else
        let counts := counts.modify level (· + 1)
        if h.isTerminal then nearFrom m depth width fuel queue counts (chosen.insert h)
        else
          let n ← m.node h
          nearFrom m depth width fuel (queue ++ [(n.high, level + 1), (n.low, level + 1)]) counts
            (chosen.insert h)

/-- The nodes near the roots as a drawing: on each of the levels from zero to `depth` at most
`width` of them. There are no more levels with nodes than there are nodes. -/
def toContextText (m : Manager) (roots : List Handle) (depth width : Nat) : Outcome String := do
  reserve 8 (depth + 1)
  let levels := min depth m.arena.size + 1
  let shown ← m.nearFrom depth width (2 * m.arena.used + roots.length + 1) (roots.map (·, 0))
    (Array.replicate levels 0) (.ofList [Handle.true', Handle.false'])
  m.draw .standard roots shown

end BayesCircuit.Decision.Manager
