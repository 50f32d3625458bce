import BayesCircuit.Failure

/-!
# Arenas

An arena keeps values in numbered slots. The number of a slot stays valid until the slot is
freed; freed slots are handed out again, the last freed one first, before a new slot is made.
-/

namespace BayesCircuit.Collection

/-- Values in numbered slots, the freed slots and the number of slots in use. -/
structure Arena (α : Type) where
  slots : Array (Option α)
  vacant : List Nat
  used : Nat

namespace Arena

variable {α : Type}

/-- An arena without slots. -/
def empty : Arena α := ⟨#[], [], 0⟩

instance : Inhabited (Arena α) := ⟨empty⟩

/-- The largest number of bits for which room can be reserved in advance. -/
def maxBits : Nat := 31

/-- An arena with room for `2 ^ bits` values, none of which is there yet. -/
def reserve (bits : Nat) : Outcome (Arena α) := do
  require (bits ≤ maxBits)
  return empty

/-- The number of slots ever made. -/
def size (a : Arena α) : Nat := a.slots.size

/-- The value in a slot that is in use. -/
def get? (a : Arena α) (i : Nat) : Option α := (a.slots[i]?).join

def isUsed (a : Arena α) (i : Nat) : Bool := (a.get? i).isSome

/-- The value in a slot, which must be in use. -/
def get (a : Arena α) (i : Nat) : Outcome α := expect .requirement (a.get? i)

/-- Put a value into a slot, and say which one. -/
def alloc (a : Arena α) (x : α) : Nat × Arena α :=
  match a.vacant with
  | i :: rest => (i, ⟨a.slots.setIfInBounds i (some x), rest, a.used + 1⟩)
  | [] => (a.slots.size, ⟨a.slots.push (some x), [], a.used + 1⟩)

/-- Empty a slot that is in use; its value comes back. -/
def free (a : Arena α) (i : Nat) : Outcome (α × Arena α) := do
  let x ← a.get i
  return (x, ⟨a.slots.setIfInBounds i none, i :: a.vacant, a.used - 1⟩)

/-- Replace the value in a slot that is in use. -/
def set (a : Arena α) (i : Nat) (x : α) : Outcome (Arena α) := do
  require (a.isUsed i)
  return { a with slots := a.slots.setIfInBounds i (some x) }

/-- Change the value in a slot; nothing happens if the slot is not in use. -/
def modify (a : Arena α) (i : Nat) (f : α → α) : Arena α :=
  { a with slots := a.slots.modify i (·.map f) }

/-- The slots in use with their values, in ascending order. -/
def toList (a : Arena α) : List (Nat × α) :=
  a.slots.toList.zipIdx.filterMap fun (x?, i) => x?.map (i, ·)

end Arena
end BayesCircuit.Collection
