import BayesCircuit.Collection.Arena
import BayesCircuit.Collection.Pairing

/-!
# Unique tables

A unique table stores one value for each key. `findOrInsert` returns the value of an equal key if
there is one and stores the offered value otherwise, which is how equal nodes of a diagram become
one. The cells of the table form an arena. The cells of a bucket form a chain, in the order in which
they were added: the bucket knows the first of them and each cell knows the next one. A cell whose
key is erased is taken out of its chain, and can be used again in any other.
-/

namespace BayesCircuit.Collection

/-- A key with its value, and the next cell of the chain. -/
structure Entry (κ υ : Type) where
  key : κ
  value : υ
  next : Option Nat

/-- Cells in chains, and for each bucket the first cell of its chain. -/
structure UniqueTable (κ υ : Type) where
  cells : Arena (Entry κ υ)
  heads : Array (Option Nat)

/-- Where the search for a key in a chain ends: at its cell, which follows another one unless it is
the first; or at the end of the chain, after its last cell if there is one. -/
inductive Place (κ υ : Type) where
  | found (before : Option Nat) (cell : Nat) (entry : Entry κ υ)
  | absent (last : Option Nat)

namespace UniqueTable

variable {κ υ : Type}

/-- A table never has more than `2 ^ maxBucketBits` buckets. -/
def maxBucketBits : Nat := 16

/-- The table with some buckets, whose chains are all empty. -/
def ofBuckets (n : Nat) : UniqueTable κ υ := ⟨Arena.empty, Array.replicate n none⟩

/-- The empty table with room for `2 ^ bits` cells. -/
def empty (bits : Nat) : Outcome (UniqueTable κ υ) := do
  require (bits ≤ Arena.maxBits)
  return ofBuckets (Nat.pow 2 (min bits maxBucketBits))

/-- The number of stored keys. -/
def size (t : UniqueTable κ υ) : Nat := t.cells.used

/-- The empty table with the same number of buckets. -/
def clear (t : UniqueTable κ υ) : UniqueTable κ υ := ofBuckets t.heads.size

/-- The stored pairs in the order of their cells. -/
def toList (t : UniqueTable κ υ) : List (κ × υ) :=
  t.cells.toList.map fun (_, entry) => (entry.key, entry.value)

/-- The first cell of a bucket. -/
def head (t : UniqueTable κ υ) (b : Nat) : Option Nat := t.heads.getD b none

/-- Let the chain of a bucket go on with another cell, after a given cell or from the start. -/
def link (t : UniqueTable κ υ) (b : Nat) (before next : Option Nat) : UniqueTable κ υ :=
  match before with
  | none => { t with heads := t.heads.setIfInBounds b next }
  | some i => { t with cells := t.cells.modify i fun entry => { entry with next } }

variable [Fingerprint κ] [BEq κ]

/-- The bucket of a key. The number of buckets is a power of two. -/
def bucketOf (t : UniqueTable κ υ) (key : κ) : Nat :=
  (fingerprint key).toNat &&& (t.heads.size - 1)

/-- Follow a chain to the cell of a key; `last` is the cell before. Every cell that a chain leads to
must be in use, and `fuel` bounds the number of cells that it has. -/
def follow (t : UniqueTable κ υ) (key : κ) : Nat → Option Nat → Option Nat → Outcome (Place κ υ)
  | _, last, none => return .absent last
  | 0, _, some _ => abort .requirement
  | fuel + 1, last, some i => do
      let entry ← t.cells.get i
      if entry.key == key then return .found last i entry
      else follow t key fuel (some i) entry.next

/-- Where a key is in the chain of its bucket. -/
def locate (t : UniqueTable κ υ) (key : κ) : Outcome (Place κ υ) :=
  t.follow key t.cells.size none (t.head (t.bucketOf key))

/-- The value stored for a key. -/
def get? (t : UniqueTable κ υ) (key : κ) : Option υ :=
  match t.locate key with
  | .ok (.found _ _ entry) => some entry.value
  | _ => none

/-- Store a pair in a new cell at the end of its chain. -/
def append (t : UniqueTable κ υ) (key : κ) (value : υ) (last : Option Nat) : UniqueTable κ υ :=
  let (i, cells) := t.cells.alloc ⟨key, value, none⟩
  { t with cells }.link (t.bucketOf key) last (some i)

/-- The value stored for a key, if there is one; otherwise the offered value is stored. -/
def findOrInsert (t : UniqueTable κ υ) (key : κ) (value : υ) : Option υ × UniqueTable κ υ :=
  match t.locate key with
  | .ok (.found _ _ entry) => (some entry.value, t)
  | .ok (.absent last) => (none, t.append key value last)
  | .error _ => (none, t)

/-- Take a cell out of its chain, and empty it. -/
def remove (t : UniqueTable κ υ) (b : Nat) (before : Option Nat) (i : Nat) (entry : Entry κ υ) :
    UniqueTable κ υ :=
  let t := t.link b before entry.next
  match t.cells.free i with
  | .ok (_, cells) => { t with cells }
  | .error _ => t

/-- Forget a key; the value that was stored for it comes back. -/
def erase (t : UniqueTable κ υ) (key : κ) : Option υ × UniqueTable κ υ :=
  match t.locate key with
  | .ok (.found before i entry) => (some entry.value, t.remove (t.bucketOf key) before i entry)
  | _ => (none, t)

end UniqueTable
end BayesCircuit.Collection
