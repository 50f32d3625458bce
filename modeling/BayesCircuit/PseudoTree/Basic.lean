import BayesCircuit.InteractionGraph

/-!
# Pseudo-trees

A pseudo-tree arranges the variables of a partition so that the variables of each table lie on one
path from the root. Eliminating the variables in reverse order puts every variable below the
neighbour that is eliminated soonest after it; a chain puts it below its predecessor. Components
that do not interact hang below a root that is no variable.
-/

namespace BayesCircuit

open Collection

/-- A variable and the trees below it. -/
inductive PseudoTree.Node where
  | mk (label : Variable) (children : List PseudoTree.Node)
  deriving Inhabited, Repr

namespace PseudoTree.Node

/-- The variable of a node. -/
def label : Node → Variable
  | mk v _ => v

def children : Node → List Node
  | mk _ cs => cs

def isLeaf (n : Node) : Bool := n.children.isEmpty

mutual

/-- The variables of a tree, each before those below it. -/
def preorder : Node → List Variable
  | mk v cs => v :: preorderAll cs

/-- The variables of trees from left to right. -/
def preorderAll : List Node → List Variable
  | [] => []
  | n :: ns => preorder n ++ preorderAll ns

end

mutual

/-- The number of variables on the longest path from the root. -/
def height : Node → Nat
  | mk _ cs => heightAll cs + 1

/-- The height of the highest tree. -/
def heightAll : List Node → Nat
  | [] => 0
  | n :: ns => max (height n) (heightAll ns)

end

mutual

/-- Equality of trees. -/
def same : Node → Node → Bool
  | mk v cs, mk w ds => v == w && sameAll cs ds

/-- Equality of lists of trees. -/
def sameAll : List Node → List Node → Bool
  | [], [] => true
  | n :: ns, m :: ms => same n m && sameAll ns ms
  | _, _ => false

end

instance : BEq Node := ⟨same⟩

end PseudoTree.Node

/-- A tree with what is known about it. -/
structure PseudoTree where
  root : PseudoTree.Node
  /-- The variables below the root, each before those below it. -/
  preorder : List Variable
  /-- The ordering from which the tree was made, if it was. -/
  ordering : List Variable
  /-- The largest number of neighbours that a variable had when it was eliminated. -/
  width : Nat
  /-- The number of variables on the longest path below the root. -/
  height : Nat

namespace PseudoTree

/-- The root that joins the components. -/
def joiner : Nat := Nat.pow 2 32 - 1

/-- The tree with a given root. -/
def ofRoot (root : Node) (ordering : List Variable) (width : Nat) : PseudoTree :=
  ⟨root, Node.preorderAll root.children, ordering, width, Node.heightAll root.children⟩

/-- The number of variables below the root. -/
def size (t : PseudoTree) : Nat := t.preorder.length

def isEmpty (t : PseudoTree) : Bool := t.root.isLeaf

/-- How variables are put below each other. -/
inductive Shape where
  | tree
  | chain
  deriving DecidableEq, Repr

/-- The variables of a list that come latest in an ordering. -/
def latest? (ordering neighbours : List Variable) : Option Variable :=
  ordering.reverse.find? neighbours.contains

/-- The neighbours that each variable of a list has when the variables are eliminated in turn. -/
def eliminated : InteractionGraph → List Variable → List (Variable × List Variable)
  | _, [] => []
  | g, v :: vs => (v, g.adjacent v) :: eliminated (g.eliminate v) vs

/-- The predecessor of each variable. -/
def predecessors : List Variable → List (Variable × Option Variable)
  | [] => []
  | v :: vs => (v, none) :: vs.zip ((v :: vs).map some)

/-- Collect the nodes of a reversed ordering. Those below a variable are all finished when the
variable is reached, the last one first. -/
def collect (parents : List (Variable × Option Variable)) :
    List Variable → List (Option Variable × Node) → List (Option Variable × Node)
  | [], done => done
  | v :: vs, done =>
      let below := done.filter (·.1 == some v)
      let rest := done.filter (·.1 != some v)
      collect parents vs (((parents.lookup v).join, .mk v (below.map (·.2))) :: rest)

/-- The tree of a partition along an ordering of its variables. -/
def build (net : Network) (p : Partition) (ordering : List Variable) (shape : Shape) :
    Outcome PseudoTree := do
  let scope := p.scope
  if Ascending.ofList ordering != scope || ordering.length != scope.length then
    fail (.invalidOrdering
      (s!"pseudo-tree ordering lists {ordering.length} variables, partition has {scope.length}"))
  let steps := eliminated (.ofPartition net p) ordering.reverse
  let width := (steps.map (·.2.length)).foldl max 0
  let parents := match shape with
    | .tree => steps.map fun (v, ns) => (v, latest? ordering ns)
    | .chain => predecessors ordering
  let roots := (collect parents ordering.reverse []).map (·.2)
  return ofRoot (.mk joiner roots) ordering width

/-- The tree along an ordering. -/
def ofOrdering (net : Network) (p : Partition) (ordering : List Variable) : Outcome PseudoTree :=
  build net p ordering .tree

/-- The chain along an ordering. -/
def chain (net : Network) (p : Partition) (ordering : List Variable) : Outcome PseudoTree :=
  build net p ordering .chain

/-- The tree along the min-fill ordering. -/
def generate (net : Network) (p : Partition) : Outcome PseudoTree :=
  ofOrdering net p (InteractionGraph.minFill net p)

end PseudoTree
end BayesCircuit
