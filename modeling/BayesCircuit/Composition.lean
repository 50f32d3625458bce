import BayesCircuit.Bound.Basic
import BayesCircuit.Collection.Permutation

/-!
# Composition of partitions

The diagrams of partitions are joined in the reverse of a composition ordering. A variable is
*shared* if more than one partition mentions it. A join goes on top of the earlier ones whose
context it shares a variable with; its context has the variables of their contexts and its own
shared ones, without those that no partition still to be joined mentions. Joins that end up beside
each other hang below a common root. The score of an ordering adds up, over all joins, the number
of assignments of the context.
-/

namespace BayesCircuit

open Collection

/-- A partition joined on top of others, and its context. -/
inductive Composition.Join where
  | mk (partition : Nat) (context : List Variable) (joins : List Composition.Join)
  deriving Inhabited, Repr

/-- The variables that partitions share. -/
structure Composition where
  /-- The number of values of every variable. -/
  dims : Array Nat
  /-- The number of partitions that mention each variable. -/
  occurrences : Array Nat
  /-- The shared variables of each partition, ascending. -/
  shared : Array (List Variable)

namespace Composition

/-- The composition of no partitions. -/
def empty (dims : Array Nat) : Composition := ⟨dims, #[], #[]⟩

/-- The composition of the given partitions. -/
def ofPartitions (dims : Array Nat) (ps : Partitions) : Composition :=
  let scopes := ps.parts.map Partition.scope
  let occurrences := (Array.range dims.size).map fun v =>
    sumOf (scopes.toList.map fun scope => if scope.contains v then 1 else 0)
  { dims, occurrences
    shared := scopes.map fun scope => scope.filter fun v => 1 < occurrences.getD v 0 }

/-- The number of partitions. -/
def size (c : Composition) : Nat := c.shared.size

def isEmpty (c : Composition) : Bool := c.shared.isEmpty

/-- The shared variables of a partition. -/
def sharedOf (c : Composition) (p : Nat) : List Variable := c.shared.getD p []

/-! ## Contexts -/

/-- Join a partition with the given shared variables: the number of partitions still to be joined
that mention each variable, and the context. -/
def close : List Variable → Array Nat → List Variable → Array Nat × List Variable
  | [], open', context => (open', context)
  | v :: vs, open', context =>
      let left := open'.getD v 0 - 1
      let context := if left == 0 then Ascending.erase v context else Ascending.insert v context
      close vs (open'.setIfInBounds v left) context

/-- Whether a context has a variable of a list. -/
def related (shared context : List Variable) : Bool := shared.any context.contains

/-- The variables of several contexts. -/
def unite (contexts : List (List Variable)) : List Variable := contexts.foldl Ascending.union []

/-- Divide contexts, the last joined one last, into those that a join takes up and the others. -/
def takeUp {α : Type} (context : α → List Variable) (chain : Bool) (shared : List Variable)
    (roots : List α) : List α × List α :=
  if chain then (roots, []) else roots.partition fun r => related shared (context r)

/-! ## Scores -/

/-- The number of assignments of a context. -/
def width {α : Type} (tally : Tally α) (c : Composition) (context : List Variable) : Option α :=
  (context.map (c.dims.getD · 0)).foldlM tally.mul? tally.one

/-- Join partitions in turn and add up the numbers of assignments. -/
def scoreFrom {α : Type} (tally : Tally α) (c : Composition) (chain : Bool) :
    List Nat → Array Nat → List (List Variable) → α → Option α
  | [], _, _, acc => some acc
  | p :: ps, open', roots, acc => do
      let (below, rest) := takeUp id chain (c.sharedOf p) roots
      let (open', context) := close (c.sharedOf p) open' (unite below)
      let acc ← tally.add? acc (← width tally c context)
      scoreFrom tally c chain ps open' (rest ++ [context]) acc

/-- The score of an ordering. With `chain`, every join goes on top of the one before. -/
def scoreWith {α : Type} (tally : Tally α) (c : Composition) (ordering : List Nat)
    (chain : Bool) : Option α :=
  scoreFrom tally c chain ordering.reverse c.occurrences [] tally.zero

/-- The score in floating point. -/
def score (c : Composition) (ordering : List Nat) (chain : Bool) : Float :=
  (c.scoreWith .float ordering chain).getD 0.0

/-- The score of an ordering of existing partitions. -/
def score? (c : Composition) (ordering : List Nat) (chain : Bool) : Outcome Float := do
  ensure .outOfRange (ordering.all (· < c.size))
  return c.score ordering chain

/-! ## The search for an ordering -/

/-- The search walks through all orderings of at most this many partitions. -/
def maxPartitions : Nat := 12

/-- The search looks at no more than this many orderings. -/
def maxOrderings : Nat := 10000000

/-- Look at up to `fuel` further orderings after `current`, and keep the first of those with the
least cost. -/
def improve {α : Type} (less : α → α → Bool) (cost : List Nat → α) :
    Nat → List Nat → List Nat → α → List Nat
  | 0, _, best, _ => best
  | fuel + 1, current, best, least =>
      match Permutation.next current with
      | none => best
      | some current =>
          let here := cost current
          if less here least then improve less cost fuel current current here
          else improve less cost fuel current best least

/-- The cheapest ordering of `n` partitions. -/
def cheapest {α : Type} (less : α → α → Bool) (cost : List Nat → α) (n : Nat) : List Nat :=
  let first := List.range n
  improve less cost (maxOrderings - 1) first first (cost first)

/-- An ordering with the least score. -/
def findOrdering (c : Composition) : Outcome (List Nat) :=
  if maxPartitions < c.size then
    fail (.unsupported
      (s!"composition ordering over {c.size} partitions (at most {maxPartitions})"))
  else .ok (cheapest (fun a b => a < b) (c.score · false) c.size)

/-! ## The tree of an ordering -/

namespace Join

def partition : Join → Nat
  | mk p _ _ => p

def context : Join → List Variable
  | mk _ vs _ => vs

/-- The joins that this one is on top of. -/
def operands : Join → List Join
  | mk _ _ js => js

end Join

/-- Join partitions in turn. -/
def joinFrom (c : Composition) (chain : Bool) : List Nat → Array Nat → List Join → List Join
  | [], _, roots => roots
  | p :: ps, open', roots =>
      let (below, rest) := takeUp Join.context chain (c.sharedOf p) roots
      let (open', context) := close (c.sharedOf p) open' (unite (below.map Join.context))
      joinFrom c chain ps open' (rest ++ [.mk p context below])

/-- A join or the common root in the numbered tree. -/
structure Node where
  /-- The number in preorder. -/
  id : Nat
  /-- The partition; the root has none. -/
  partition : Option Nat
  parent : Option Nat
  context : List Variable
  children : List Nat
  deriving DecidableEq, Repr

def Node.isRoot (n : Node) : Bool := n.parent.isNone

def Node.isLeaf (n : Node) : Bool := n.children.isEmpty

mutual

/-- The nodes of a join and those below it in preorder, the first of which has the given number. -/
def number (id parent : Nat) : Join → List Node
  | .mk p context js =>
      let (children, below) := numberAll (id + 1) id js
      ⟨id, some p, some parent, context, children⟩ :: below

/-- The numbers of joins with a common parent, and their nodes and those below them. -/
def numberAll (id parent : Nat) : List Join → List Nat × List Node
  | [] => ([], [])
  | j :: js =>
      let first := number id parent j
      let (children, rest) := numberAll (id + first.length) parent js
      (id :: children, first ++ rest)

end

/-- The tree of an ordering. -/
structure Tree where
  ordering : List Nat
  /-- The joins below the common root. -/
  roots : List Join

/-- The nodes of a tree in preorder, the root first. -/
def Tree.nodes (t : Tree) : Array Node :=
  let (children, nodes) := numberAll 1 0 t.roots
  (⟨0, none, none, [], children⟩ :: nodes).toArray

/-- Check that an ordering lists each of `n` partitions once. -/
def checkOrdering (n : Nat) (ordering : List Nat) : Outcome Unit :=
  if ordering.any (n ≤ ·) || !ordering.Nodup then
    fail (.invalidOrdering
      (s!"composition ordering {ordering} is not a permutation of 0..{n}"))
  else if ordering.length != n then
    fail (.invalidOrdering
      (s!"composition ordering lists {ordering.length} of {n} partitions"))
  else .ok ()

/-- The tree of an ordering. -/
def build (c : Composition) (ordering : List Nat) (chain : Bool) : Outcome Tree := do
  checkOrdering c.size ordering
  return ⟨ordering, joinFrom c chain ordering.reverse c.occurrences []⟩

/-- The node of a partition. -/
def Tree.nodeOf (t : Tree) (p : Nat) : Outcome Node :=
  expect .outOfRange (t.nodes.find? (·.partition == some p))

/-! ## Drawing -/

/-- The line of a join behind a margin; `last` says that nothing follows beside it. -/
def drawJoin (c : Composition) (margin : String) (last : Bool) (p : Nat)
    (context : List Variable) : Outcome String := do
  let label := margin ++ (if last then "└" else "├") ++ "──(" ++ toString p ++ ")"
  let width ← expect .overflow (width .word c context)
  return label ++ String.ofList (List.replicate (60 - label.length) ' ') ++ "\x7b" ++
    String.intercalate "," (context.map toString) ++ "\x7d : " ++ toString width ++ "\n"

mutual

/-- The lines of a join and those below it. -/
def draw (c : Composition) (margin : String) (last : Bool) : Join → Outcome String
  | .mk p context js => do
      let line ← drawJoin c margin last p context
      return line ++ (← drawAll c (margin ++ if last then "    " else "│   ") js)

/-- The lines of joins beside each other. -/
def drawAll (c : Composition) (margin : String) : List Join → Outcome String
  | [] => .ok ""
  | j :: js => do
      let lines ← draw c margin js.isEmpty j
      return lines ++ (← drawAll c margin js)

end

/-- A tree as a drawing. -/
def toAscii (c : Composition) (t : Tree) : Outcome String := do
  return "(*)\n" ++ (← drawAll c "" t.roots)

end Composition
end BayesCircuit
