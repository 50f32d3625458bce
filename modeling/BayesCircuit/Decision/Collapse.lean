import BayesCircuit.Decision.Manager
import Std.Data.HashSet

/-!
# Copies and collapsed chains

The literals of one variable are tested along a chain of low edges. If a node and its low child
have the same high child and the same weights, the low child says nothing new and can be left out,
unless its own low edge leads to `true'`. In a collapsed diagram, a literal that a chain does not
test takes the high edge of the nearest node of the chain above it.

* `collapse` leaves out what can be left out, from the terminals up.
* `uncollapse` puts it back.
* `copy` makes a diagram anew.
-/

namespace BayesCircuit.Decision

open Collection

/-- The results for the nodes that a pass has finished, and its canonical nodes. -/
structure Pass where
  table : Table
  finished : Std.HashMap Handle Handle

/-- Enough fuel to walk down from any node. -/
def depthBound : Action Nat := return (← get).arena.size + 1

/-! ## Collapsing -/

/-- Whether the low child of a node can be left out. -/
def Manager.canCollapse (m : Manager) (h : Handle) : Outcome Bool := do
  if h.isTerminal then return false
  let n ← m.node h
  if n.low.isTerminal then return false
  let low ← m.node n.low
  return low.low != Handle.true' && n.high == low.high && n.weights == low.weights &&
    m.sameVariable n.literal low.literal

/-- Forget a node that will be freed. -/
def forget (table : Table) (h : Handle) : Action Table := do
  let key := (← nodeAt h).key
  let table := if table.get? key == some h then (table.erase key).2 else table
  modify fun m => { m with products := m.products.eraseValue h }
  return table

/-- Leave out low children of a node while that is possible, and say whether there were any. -/
def collapseNode : Nat → Table → Handle → Action (Bool × Table)
  | 0, table, _ => return (false, table)
  | fuel + 1, table, h => do
      if !(← Action.lift ((← get).canCollapse h)) then return (false, table)
      let skipped := (← nodeAt h).low
      setLow h (← nodeAt skipped).low
      let table ← if (← nodeAt skipped).refs == 0 then do
          let table ← forget table skipped
          forceDestroy skipped
          pure table
        else pure table
      let (_, table) ← collapseNode fuel table h
      return (true, table)

/-- Make the high edge lead to a node, and free the node that it led to if nobody refers to it. -/
def redirectHigh (h child : Handle) : Action Unit := do
  let old := (← nodeAt h).high
  setHigh h child
  discard (destroy old)

/-- Make the low edge lead to a node, and free the node that it led to if nobody refers to it. -/
def redirectLow (h child : Handle) : Action Unit := do
  let old := (← nodeAt h).low
  setLow h child
  discard (destroy old)

/-- Collapse the diagram of a node. -/
def collapseFrom : Nat → Handle → Pass → Action (Handle × Pass)
  | 0, h, p => return (h, p)
  | fuel + 1, h, p => do
      if h.isTerminal then return (h, p)
      if let some r := p.finished[h]? then return (r, p)
      let (high, p) ← collapseFrom fuel (← nodeAt h).high p
      if high != (← nodeAt h).high then redirectHigh h high
      let (low, p) ← collapseFrom fuel (← nodeAt h).low p
      if low != (← nodeAt h).low then redirectLow h low
      let (_, table) ← collapseNode (fuel + 1) p.table h
      let (found, table) := table.findOrInsert (← nodeAt h).key h
      let canonical := found.getD h
      return (canonical, ⟨table, p.finished.insert h canonical⟩)

/-- Collapse a diagram. The caller's reference moves to the root that comes back. -/
def collapse (root : Handle) : Action Handle := do
  let (result, _) ← collapseFrom (← depthBound) root ⟨← newTable, ∅⟩
  if result != root then
    reference result
    release root
  return result

/-! ## Copying -/

/-- Make the diagram of a node anew. -/
def copyFrom : Nat → Handle → Pass → Action (Handle × Pass)
  | 0, h, p => return (h, p)
  | fuel + 1, h, p => do
      if h.isTerminal then return (h, p)
      if let some r := p.finished[h]? then return (r, p)
      let n ← nodeAt h
      let (high, p) ← copyFrom fuel n.high p
      let (low, p) ← copyFrom fuel n.low p
      let l ← Action.lift (Literal.of n.literal)
      let (c, table) ← merge p.table (← makeNode l high low n.weights)
      return (c, ⟨table, p.finished.insert h c⟩)

/-- Make a diagram anew with a table. Nobody refers to the root that comes back. -/
def copy (table : Table) (root : Handle) : Action (Handle × Table) := do
  let (c, p) ← copyFrom (← depthBound) root ⟨table, ∅⟩
  return (c, p.table)

/-! ## Putting back what was left out -/

/-- The literal that is tested after a given one in its chain; of several the last one counts. -/
def followers (m : Manager) : List Literal → List (Int × Literal)
  | a :: b :: rest =>
      let later := followers m (b :: rest)
      if m.sameVariable a.value b.value then later ++ [(a.value, b)] else later
  | _ => []

/-- Put back the nodes that the chains of a stack lack. -/
def uncollapseFrom (next : List (Int × Literal)) :
    Nat → List Handle → Std.HashSet Handle → Action Unit
  | 0, _, _ => pure ()
  | _ + 1, [], _ => pure ()
  | fuel + 1, h :: stack, visited => do
      if h.isTerminal || visited.contains h then uncollapseFrom next fuel stack visited
      else
        let n ← nodeAt h
        if let some l := next.lookup n.literal then
          if (← nodeAt n.low).literal != l.value then
            setLow h (← makeNode l n.high n.low n.weights)
        let n ← nodeAt h
        uncollapseFrom next fuel (n.high :: n.low :: stack) (visited.insert h)

/-- Put back the nodes that the chains of a diagram lack along an ordering. -/
def uncollapse (root : Handle) (ordering : List Literal) : Action Unit := do
  let m ← get
  let fuel := 2 * (m.arena.used + 1) * (ordering.length + 2) + 1
  uncollapseFrom (followers m ordering) fuel [root] ∅

end BayesCircuit.Decision
