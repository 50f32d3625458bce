import BayesCircuit.Collection.Memo
import BayesCircuit.Collection.UniqueTable
import BayesCircuit.Decision.Node

/-!
# The manager of decision diagrams

All nodes live in one arena, whose first two slots hold the terminals. A decision node counts the
edges that lead to it and the holders outside; when a root is released, every node that nobody
refers to any more is freed. Each diagram owns its decision nodes.

Equal nodes become one during a *pass*, which makes its nodes with a unique table of its own:
`merge` replaces a finished node by an equal one that the table has.

An `Action` changes the manager. What it did before it failed stays done.
-/

namespace BayesCircuit.Decision

open Collection

/-- The nodes, the variable of each literal, and the results of the current conjunction. -/
structure Manager where
  arena : Arena Node
  /-- The variable of each literal; the entry for zero means nothing. Without any entry every
  literal is its own variable. -/
  literalVariables : Array Variable
  /-- The products of pairs of nodes. -/
  products : Memo (Handle × Handle) Handle
  /-- A unique table has room for `2 ^ tableBits` nodes. -/
  tableBits : Nat

/-- The canonical nodes of a pass. -/
abbrev Table := UniqueTable Node.Key Handle

namespace Manager

/-- The manager that has only the terminals. -/
def start (literalVariables : Array Variable) (tableBits : Nat) : Manager where
  arena := ((Arena.empty.alloc Node.falseNode).2.alloc Node.trueNode).2
  literalVariables
  products := Memo.empty
  tableBits

/-- The bytes of an entry of the products, which are three handles of four bytes. -/
def productBytes : Nat := 12

/-- The manager that has only the terminals, with room for `2 ^ memoBits` products. -/
def sized (literalVariables : Array Variable) (tableBits memoBits : Nat) : Outcome Manager := do
  let products ← Memo.sized productBytes memoBits
  return { start literalVariables tableBits with products }

/-- The node with a given handle. -/
def node (m : Manager) (h : Handle) : Outcome Node := m.arena.get h

/-- The number of decision nodes. -/
def live (m : Manager) : Nat := m.arena.used - 2

/-- The variable of a positive literal. -/
def variableOf? (m : Manager) (literal : Int) : Option Variable :=
  if literal ≤ 0 then none
  else if m.literalVariables.isEmpty then some literal.toNat
  else m.literalVariables[literal.toNat]?

/-- Whether two literals are values of one variable. -/
def sameVariable (m : Manager) (a b : Int) : Bool :=
  match m.variableOf? a, m.variableOf? b with
  | some v, some w => v == w
  | _, _ => false

end Manager

/-- A computation that changes the manager. -/
abbrev Action := EStateM Failure Manager

namespace Action

/-- The result of a computation that does not change the manager. -/
def lift {α : Type} : Outcome α → Action α
  | .ok a => pure a
  | .error f => throw f

end Action

/-- The node with a given handle. -/
def nodeAt (h : Handle) : Action Node := do Action.lift ((← get).node h)

/-- Change a node. -/
def change (h : Handle) (f : Node → Node) : Action Unit := do
  discard (nodeAt h)
  modify fun m => { m with arena := m.arena.modify h f }

/-- A table for a new pass. -/
def newTable : Action Table := do Action.lift (UniqueTable.empty (← get).tableBits)

/-! ## References -/

/-- Count one more reference. -/
def reference (h : Handle) : Action Unit :=
  if h.isTerminal then pure () else change h fun n => { n with refs := n.refs + 1 }

/-- Count one reference less. -/
def dereference (h : Handle) : Action Unit := do
  if h.isTerminal then return
  Action.lift (require (0 < (← nodeAt h).refs))
  change h fun n => { n with refs := n.refs - 1 }

/-- Make the high edge lead to a node. -/
def setHigh (h child : Handle) : Action Unit := do
  reference child
  let old := (← nodeAt h).high
  change h fun n => { n with high := child }
  dereference old

/-- Make the low edge lead to a node. -/
def setLow (h child : Handle) : Action Unit := do
  reference child
  let old := (← nodeAt h).low
  change h fun n => { n with low := child }
  dereference old

/-! ## Making and freeing nodes -/

/-- A node whose edges lead to `false'` and that nobody refers to. The literal must be positive,
and the weights must ascend. -/
def create (l : Literal) (weights : Weights) : Action Handle := do
  Action.lift (require (l.isPositive && Weights.ascends weights))
  modifyGet fun m =>
    let (h, arena) := m.arena.alloc ⟨l.value, Handle.false', Handle.false', weights, 0⟩
    (h, { m with arena })

/-- A node with the given edges. -/
def makeNode (l : Literal) (high low : Handle) (weights : Weights) : Action Handle := do
  let h ← create l weights
  setHigh h high
  setLow h low
  return h

/-- Free the slot of a node; the node comes back. -/
def free (h : Handle) : Action Node := do
  let n ← nodeAt h
  modify fun m =>
    match m.arena.free h with
    | .ok (_, arena) => { m with arena }
    | .error _ => m
  return n

/-- Free a decision node whoever refers to it. Its children lose a reference and are not freed. -/
def forceDestroy (h : Handle) : Action Unit := do
  if h.isTerminal then return
  let n ← free h
  dereference n.high
  dereference n.low

/-- Free a decision node if nobody refers to it, and say whether it was freed. -/
def destroy (h : Handle) : Action Bool := do
  if h.isTerminal then return false
  if 0 < (← nodeAt h).refs then return false
  forceDestroy h
  return true

/-- Free the decision nodes of a stack to which nobody refers, and those below them to which nobody
refers then. -/
def destroyAll : Nat → List Handle → Action Unit
  | 0, _ => pure ()
  | _ + 1, [] => pure ()
  | fuel + 1, h :: stack => do
      if h.isTerminal || !(← get).arena.isUsed h then destroyAll fuel stack
      else if 0 < (← nodeAt h).refs then destroyAll fuel stack
      else
        let n ← free h
        dereference n.high
        dereference n.low
        destroyAll fuel (n.low :: n.high :: stack)

/-- Free a decision node and all nodes below it to which nobody else refers. -/
def recursiveDestroy (h : Handle) : Action Unit := do
  destroyAll (2 * (← get).arena.used + 1) [h]

/-- Give up a reference to a root. -/
def release (root : Handle) : Action Unit := do
  dereference root
  recursiveDestroy root

/-- The canonical node that equals a finished node, which nobody may refer to yet. -/
def merge (table : Table) (h : Handle) : Action (Handle × Table) := do
  if h.isTerminal then return (h, table)
  let n ← nodeAt h
  match table.findOrInsert n.key h with
  | (some canonical, table) =>
      if canonical != h then discard (destroy h)
      return (canonical, table)
  | (none, table) => return (h, table)

end BayesCircuit.Decision
