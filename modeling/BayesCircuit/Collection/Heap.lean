/-!
# Priority queues

A leftist heap: every subtree holds its least element at its root, and no right spine is longer
than a left one, so that merging walks along short spines.
-/

namespace BayesCircuit.Collection

/-- A tree with a rank, which is the length of its right spine. -/
inductive Heap (α : Type) where
  | leaf
  | node (rank : Nat) (left : Heap α) (value : α) (right : Heap α)

namespace Heap

variable {α : Type}

instance : Inhabited (Heap α) := ⟨leaf⟩

def rank : Heap α → Nat
  | leaf => 0
  | node r _ _ _ => r

/-- The number of elements. -/
def size : Heap α → Nat
  | leaf => 0
  | node _ l _ r => l.size + r.size + 1

/-- A node whose subtree of greater rank is the left one. -/
def join (x : α) (a b : Heap α) : Heap α :=
  if b.rank ≤ a.rank then node (b.rank + 1) a x b else node (a.rank + 1) b x a

/-- All elements of two heaps; `before` says which of two elements comes first. -/
def merge (before : α → α → Bool) : Heap α → Heap α → Heap α
  | leaf, b => b
  | a, leaf => a
  | node ra la x rb, node sa ma y mb =>
      if before y x then join y ma (merge before (node ra la x rb) mb)
      else join x la (merge before rb (node sa ma y mb))
termination_by a b => a.size + b.size
decreasing_by all_goals simp only [size]; omega

/-- Add an element. -/
def push (before : α → α → Bool) (x : α) (h : Heap α) : Heap α :=
  merge before (node 1 leaf x leaf) h

/-- The first element and the others. -/
def pop? (before : α → α → Bool) : Heap α → Option (α × Heap α)
  | leaf => none
  | node _ l x r => some (x, merge before l r)

end Heap
end BayesCircuit.Collection
