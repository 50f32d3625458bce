import BayesCircuit.Collection.Ascending
import BayesCircuit.Decision.Manager
import BayesCircuit.Encoding.Basic

/-!
# Size and value of decision diagrams

`reach` lists the nodes of a diagram, `evaluate` walks along the path of an assignment.
-/

namespace BayesCircuit.Decision.Manager

open Collection

/-- Visit the nodes of a stack and those below them, each once, high before low; `seen` holds those
visited before, the last one first, and `marks` tells them apart. -/
def reachFrom (m : Manager) :
    Nat → List Handle → Array Bool → List Handle → Outcome (List Handle)
  | 0, _, _, seen => .ok seen.reverse
  | _ + 1, [], _, seen => .ok seen.reverse
  | fuel + 1, h :: stack, marks, seen => do
      if marks.getD h false then reachFrom m fuel stack marks seen
      else
        let marks := marks.setIfInBounds h true
        if h.isTerminal then reachFrom m fuel stack marks (h :: seen)
        else
          let n ← m.node h
          reachFrom m fuel (n.high :: n.low :: stack) marks (h :: seen)

/-- The nodes of a diagram in preorder, each where it is met first. -/
def reach (m : Manager) (root : Handle) : Outcome (List Handle) :=
  reachFrom m (2 * m.arena.used + 1) [root] (Array.replicate m.arena.size false) []

/-- The decision nodes of a diagram in preorder. -/
def decisions (m : Manager) (root : Handle) : Outcome (List Handle) :=
  return (← m.reach root).filter (!·.isTerminal)

/-- The number of nodes of a diagram, with the terminals that it has. -/
def size (m : Manager) (root : Handle) : Outcome Nat := return (← m.reach root).length

/-- The number of operations to evaluate a diagram: for each decision node a product, a sum and a
product for each weight. -/
def operators (m : Manager) (root : Handle) : Outcome Nat := do
  let counts ← (← m.decisions root).mapM fun h => return 2 + (← m.node h).weights.length
  return sumOf counts

/-- The variables that a diagram tests, ascending. -/
def support (m : Manager) (root : Handle) : Outcome (List Variable) := do
  let tested ← (← m.decisions root).mapM fun h => return m.variableOf? (← m.node h).literal
  return Ascending.ofList (tested.filterMap id)

/-! ## Evaluation -/

/-- Where a walk along a path stands: the node, the weights so far, and the node of the current
chain that was left through its low edge last. -/
structure Walk where
  current : Handle
  weights : Weights
  left : Option Handle

/-- Take the high edge of a node. -/
def takeHigh (w : Walk) (n : Node) : Walk := ⟨n.high, w.weights ++ n.weights, none⟩

/-- Walk on at a literal that holds or does not hold. -/
def walkOn (m : Manager) (collapsed : Bool) (l : Literal) (holds : Bool) (w : Walk) :
    Outcome Walk := do
  let here? ← if w.current.isTerminal then pure none else do
    let n ← m.node w.current
    pure (if n.literal == l.value then some n else none)
  match here?, w.left with
  | some n, _ =>
      if holds then return takeHigh w n
      else return { w with current := n.low, left := some w.current }
  | none, some p =>
      if holds && collapsed then
        let n ← m.node p
        if m.sameVariable n.literal l.value then return takeHigh w n
      return w
  | none, none => return w

/-- Walk along an ordering until the path ends in `true'`. -/
def walk (m : Manager) (holds : Literal → Outcome Bool) (collapsed : Bool) :
    List Literal → Walk → Outcome Walk
  | [], w => .ok w
  | l :: ls, w => do
      if w.current == Handle.true' then return w
      walk m holds collapsed ls (← m.walkOn collapsed l (← holds l) w)

/-- The weights on the path of an assignment, ascending; nothing if it ends in `false'`. With
`collapsed`, a literal that a chain does not test takes the high edge of the nearest node of the
chain above it. -/
def evaluate (m : Manager) (root : Handle) (ordering : List Literal)
    (holds : Literal → Outcome Bool) (collapsed : Bool) : Outcome (Option Weights) := do
  let w ← m.walk holds collapsed ordering ⟨root, [], none⟩
  return if w.current == Handle.true' then some w.weights.mergeSort else none

/-- The product of the values of the weights on the path of an assignment. -/
def value (m : Manager) (weigh : Weight → Outcome Float) (root : Handle) (ordering : List Literal)
    (holds : Literal → Outcome Bool) (collapsed : Bool) : Outcome Float := do
  match ← m.evaluate root ordering holds collapsed with
  | none => return 0.0
  | some ws => ws.foldlM (fun acc w => return acc * (← weigh w)) 1.0

/-- An assignment that makes the given literals hold; only positive literals may be asked for. -/
def holdsIn (literals : List Nat) (l : Literal) : Outcome Bool := do
  ensure .outOfRange l.isPositive
  return literals.contains l.index

/-- The value of a diagram for the weights of an encoding under an assignment of all variables. -/
def valueOf (m : Manager) (e : Encoding) (root : Handle) (ordering : List Literal)
    (values : List Nat) (collapsed : Bool) : Outcome Float :=
  m.value e.weightValue root ordering (holdsIn (e.literalsOf values)) collapsed

end BayesCircuit.Decision.Manager
