import BayesCircuit.Bound.Basic

/-!
# Bounds along the branches of a tree

An ordering induces a forest: walking backwards, the trees whose spanning variables include the
current variable become its subtrees. A level costs its width, and where a variable has several
subtrees their joint nodes are counted too. The result is at most the bound along the chain.
-/

namespace BayesCircuit

open Collection

/-- How the widths and costs of levels are computed and added up. -/
structure LevelArithmetic (α : Type) where
  zero : α
  add? : α → α → Option α
  /-- The cost of a level with spanning variables of the given domain sizes. -/
  width? : List Nat → Option α
  /-- The cost of a level of the given width whose variable has several subtrees. -/
  branch? : α → Nat → Option α

namespace LevelArithmetic

/-- Machine words. -/
def word : LevelArithmetic Nat where
  zero := 0
  add? := Tally.word.add?
  width? dims := dims.foldlM Tally.word.mul? 1
  branch? level dim := (Tally.word? (level * dim)).bind fun n => Tally.word? (n + level)

/-- Floating-point numbers. -/
def float : LevelArithmetic Float where
  zero := 0.0
  add? a b := some (a + b)
  width? dims := some (dims.foldl (fun acc d => acc * Float.ofNat d) 1.0)
  branch? level dim := some (level * Float.ofNat dim + level)

/-- Logarithms of widths. -/
def logarithm : LevelArithmetic Float where
  zero := 0.0
  add? a b := some (a + b)
  width? dims := some (dims.foldl (fun acc d => acc + (Float.ofNat d).log) 0.0)
  branch? level dim := some (level + (1.0 + Float.ofNat dim).log)

end LevelArithmetic

namespace Bound

variable {α : Type}

/-- A tree of the forest: the cost of its levels and the spanning variables of its root. -/
structure Tree (α : Type) where
  cost : α
  spanning : List Variable

/-- The spanning variables that the new constraints of a variable add, and the constraints that
are still to come. -/
def takeConstraints (b : Bound) : List Nat → List Variable → Array Bool →
    List Variable × Array Bool
  | [], spanning, waiting => (spanning, waiting)
  | c :: cs, spanning, waiting =>
      if waiting.getD c false then
        takeConstraints b cs (Ascending.union spanning (b.scopes.getD c []))
          (waiting.setIfInBounds c false)
      else takeConstraints b cs spanning waiting

/-- Put a variable on top of the trees that mention it. -/
def graft (arith : LevelArithmetic α) (b : Bound) (v : Variable) (waiting : Array Bool)
    (forest : List (Tree α)) : Option (List (Tree α) × Array Bool) := do
  let (below, others) := forest.partition (·.spanning.contains v)
  let inherited := below.foldl (fun s t => Ascending.union s t.spanning) []
  let (mentioned, waiting) := takeConstraints b (b.constraintsOf.getD v []) inherited waiting
  let spanning := Ascending.erase v mentioned
  let cost ← below.foldlM (fun acc t => arith.add? acc t.cost) arith.zero
  let level ← arith.width? (spanning.map b.dim)
  let level ← if 1 < below.length then arith.branch? level (b.dim v) else some level
  return (others ++ [⟨← arith.add? cost level, spanning⟩], waiting)

/-- Put variables on top of each other. -/
def graftAll (arith : LevelArithmetic α) (b : Bound) :
    List Variable → Array Bool → List (Tree α) → Option (List (Tree α))
  | [], _, forest => some forest
  | v :: vs, waiting, forest => do
      let (forest, waiting) ← graft arith b v waiting forest
      graftAll arith b vs waiting forest

/-- The bound along the branches of an ordering. -/
def treeSum? (arith : LevelArithmetic α) (b : Bound) (ordering : List Variable) : Option α := do
  let forest ← graftAll arith b ordering.reverse b.enabled []
  forest.foldlM (fun acc t => arith.add? acc t.cost) arith.zero

/-- The bound on nodes along the branches, saturated where it does not fit. -/
def treeNodes (b : Bound) (ordering : List Variable) : Nat :=
  (b.treeSum? .word ordering).getD saturated

/-- The bound on nodes along the branches in floating point. -/
def treeNodesApprox (b : Bound) (ordering : List Variable) : Float :=
  (b.treeSum? .float ordering).getD 0.0

/-- The logarithms of the widths along the branches, added up. -/
def treeScore (b : Bound) (ordering : List Variable) : Float :=
  (b.treeSum? .logarithm ordering).getD 0.0

end Bound
end BayesCircuit
