import BayesCircuit.Decision.Build

/-!
# Conjunction of diagrams

The product of two diagrams is built by conditioning both on the literals of an ordering. The
engine keeps the pair of nodes that every step has reached.

In a collapsed diagram, a literal that a chain does not test takes the high edge of the nearest
node of the chain above. So a side that has left a node through its low edge can still *jump* to
the high child of that node at a later literal of the same variable. A side at `false'` that can
jump is not dead, and a diagram is no trivial result while its side can jump.

The product of each pair is recorded after a literal that holds, where no side can jump.
-/

namespace BayesCircuit.Decision

open Collection

/-- One of the two diagrams. -/
inductive Side where
  | left
  | right
  deriving DecidableEq, Repr

/-- Something for both sides. -/
structure Both (α : Type) where
  left : α
  right : α
  deriving DecidableEq, Repr

namespace Both

variable {α : Type}

/-- What belongs to a side. -/
def at' (b : Both α) : Side → α
  | .left => b.left
  | .right => b.right

end Both

/-- The nodes that a step has reached, and whether it has taken the low edge on each side. -/
structure Step where
  nodes : Both Handle
  viaLow : Both Bool
  deriving DecidableEq, Repr

/-- The engine of a conjunction. -/
structure Product where
  /-- The steps, the last one first. The start counts as a step. -/
  steps : List Step
  collapsed : Bool
  /-- The last product that was found among those recorded. -/
  found : Handle

namespace Product

/-- No literal has been conditioned on. -/
def start (a b : Handle) (collapsed : Bool) : Product :=
  ⟨[⟨⟨a, b⟩, ⟨false, false⟩⟩], collapsed, Handle.false'⟩

/-- The last step. -/
def top (p : Product) : Outcome Step := expect .overflow p.steps.head?

/-- The node that a side left last, if that was through its low edge and the literal belongs to the
same variable. The steps come with the last one first. -/
def jumpFrom (m : Manager) (side : Side) (l : Literal) : List Step → Outcome (Option Handle)
  | step :: previous :: rest => do
      let h := previous.nodes.at' side
      if step.nodes.at' side == h then jumpFrom m side l (previous :: rest)
      else if step.viaLow.at' side then
        return if m.sameVariable (← m.node h).literal l.value then some h else none
      else return none
  | _ => .ok none

/-- The pair under which a product is recorded. -/
def key (b : Both Handle) : Handle × Handle := (min b.left b.right, max b.left b.right)

/-- Where a side goes if the literal holds, and the weights on the way; nothing if the literal does
not matter to it. -/
def advance (m : Manager) (p : Product) (l : Literal) (side : Side) (h : Handle) :
    Outcome (Option (Handle × Weights)) := do
  let tested ← if h.isTerminal then pure false else do pure ((← m.node h).literal == l.value)
  if tested then
    let n ← m.node h
    return some (n.high, n.weights)
  if p.collapsed && h != Handle.true' then
    match ← jumpFrom m side l p.steps with
    | some parent =>
        let n ← m.node parent
        return some (n.high, n.weights)
    | none => return none
  return none

/-- Look up the product of a pair. -/
def lookup (nodes : Both Handle) : Action (Option Handle) :=
  modifyGet fun ⟨arena, literalVariables, products, tableBits⟩ =>
    let (r, products) := products.find (key nodes)
    (r, ⟨arena, literalVariables, products, tableBits⟩)

/-- Condition on a literal that holds. -/
def conditionHigh (p : Product) (l : Literal) : Action (Cofactor × Weights × Product) := do
  let m ← get
  let top ← Action.lift p.top
  let left ← Action.lift (p.advance m l .left top.nodes.left)
  let right ← Action.lift (p.advance m l .right top.nodes.right)
  if left.isNone && right.isNone then return (.redundant, [], p)
  let weights := Weights.union (left.elim [] (·.2)) (right.elim [] (·.2))
  let a := left.elim top.nodes.left (·.1)
  let b := right.elim top.nodes.right (·.1)
  let p := { p with steps := ⟨⟨a, b⟩, ⟨false, false⟩⟩ :: p.steps }
  if a == Handle.false' || b == Handle.false' then return (.unsatisfiable, weights, p)
  if a == Handle.true' && b == Handle.true' then return (.satisfiable, weights, p)
  match ← lookup ⟨a, b⟩ with
  | some c => return (.cached, weights, { p with found := c })
  | none =>
      if a == Handle.true' || b == Handle.true' then return (.trivial, weights, p)
      return (.unsatisfied, weights, p)

/-- Where a side goes if the literal does not hold, and whether it takes a low edge. -/
def descend (m : Manager) (l : Literal) (h : Handle) : Outcome (Handle × Bool) := do
  if h.isTerminal then return (h, false)
  let n ← m.node h
  return if n.literal == l.value then (n.low, true) else (h, false)

/-- Whether a side can jump at the following literal. -/
def canJump (m : Manager) (p : Product) (following : Option Literal) (side : Side) :
    Outcome Bool := do
  if !p.collapsed then return false
  match following with
  | none => return false
  | some next => return (← jumpFrom m side next p.steps).isSome

/-- Condition on a literal that does not hold. -/
def conditionLow (m : Manager) (p : Product) (l : Literal) (following : Option Literal) :
    Outcome (Cofactor × Product) := do
  let top ← p.top
  let (a, lowA) ← descend m l top.nodes.left
  let (b, lowB) ← descend m l top.nodes.right
  let p := { p with steps := ⟨⟨a, b⟩, ⟨lowA, lowB⟩⟩ :: p.steps }
  let jumpA ← p.canJump m following .left
  let jumpB ← p.canJump m following .right
  let found : Cofactor :=
    if a == Handle.false' && !jumpA || b == Handle.false' && !jumpB then .unsatisfiable
    else if a == Handle.true' && b == Handle.true' then .satisfiable
    else if a == Handle.true' && !jumpB || b == Handle.true' && !jumpA then .trivial
    else .unsatisfied
  return (found, p)

/-- Condition on a literal or its negation. -/
def condition (p : Product) (l : Literal) (following : Option Literal) (holds : Bool) :
    Action (Cofactor × Weights × Product) := do
  if holds then p.conditionHigh l
  else
    let (found, p) ← Action.lift (p.conditionLow (← get) l following)
    return (found, [], p)

/-- Go back one step. -/
def undo (p : Product) : Product := { p with steps := p.steps.tail }

/-- The other diagram, if one side has reached `true'`. -/
def trivial (p : Product) : Outcome Handle := do
  let nodes := (← p.top).nodes
  return if nodes.left == Handle.true' then nodes.right else nodes.left

/-- Record the product of the pair that has been reached, unless it is known. -/
def record (p : Product) (result : Handle) : Action Unit := do
  let nodes := (← Action.lift p.top).nodes
  modify fun ⟨arena, literalVariables, products, tableBits⟩ =>
    ⟨arena, literalVariables, products.insertIfNew (key nodes) result, tableBits⟩

/-- The engine. -/
def engine : Engine Product := ⟨condition, undo, trivial, found, record⟩

end Product

/-- The product of two diagrams along an ordering. They stay with the caller, who holds a reference
to the result. -/
def conjoin (a b : Handle) (ordering : List Literal) (collapse expired : Bool) : Action Handle := do
  if a == Handle.false' || b == Handle.false' then return Handle.false'
  if a == Handle.true' || b == Handle.true' then
    let (c, _) ← copy (← newTable) (if a == Handle.true' then b else a)
    reference c
    return c
  modify fun m => { m with products := m.products.clear }
  build Product.engine (.start a b collapse) ordering collapse expired

/-- Release several roots. -/
def releaseAll : List Handle → Action Unit
  | [] => pure ()
  | h :: hs => do
      release h
      releaseAll hs

/-- Conjoin a queue of diagrams pairwise, up to `fuel` times, and release the operands. -/
def conjoinFrom (ordering : List Literal) (collapse expired : Bool) :
    Nat → List Handle → Action Handle
  | fuel + 1, a :: b :: queue => do
      let c ← tryCatch (conjoin a b ordering collapse expired) fun f => do
        if let .error _ := f then releaseAll (a :: b :: queue)
        throw f
      release a
      release b
      conjoinFrom ordering collapse expired fuel (queue ++ [c])
  | _, queue => return queue.headD Handle.true'

/-- The product of a queue of diagrams, which it takes over. The caller holds a reference to the
result. -/
def conjoinAll (queue : List Handle) (ordering : List Literal) (collapse expired : Bool) :
    Action Handle :=
  conjoinFrom ordering collapse expired queue.length queue

end BayesCircuit.Decision
