import BayesCircuit.Failure
import Std.Data.HashMap

/-!
# Memo tables

A memo table keeps the results of finished computations and counts how often one was asked for
and found. Forgetting results does not forget these counts. Room for results can be reserved in
advance, which changes nothing but has to be possible.
-/

namespace BayesCircuit.Collection

/-- Results by key, the number of lookups and the number of them that succeeded. -/
structure Memo (κ υ : Type) [BEq κ] [Hashable κ] where
  entries : Std.HashMap κ υ
  lookups : Nat
  hits : Nat

namespace Memo

variable {κ υ : Type} [BEq κ] [Hashable κ]

def empty : Memo κ υ := ⟨∅, 0, 0⟩

instance : Inhabited (Memo κ υ) := ⟨empty⟩

/-- The empty table with room for `2 ^ bits` entries of some bytes each. Twice as many places are
reserved, and each of them takes one more byte. -/
def sized (bytes bits : Nat) : Outcome (Memo κ υ) := do
  ensure .overflow (bits < 64)
  reserve (bytes + 1) (Nat.pow 2 (bits + 1))
  return empty

/-- The number of stored results. -/
def size (m : Memo κ υ) : Nat := m.entries.size

/-- The number of lookups that failed. -/
def misses (m : Memo κ υ) : Nat := m.lookups - m.hits

/-- Look a result up. -/
def find (m : Memo κ υ) (key : κ) : Option υ × Memo κ υ :=
  match m.entries[key]? with
  | some v => (some v, { m with lookups := m.lookups + 1, hits := m.hits + 1 })
  | none => (none, { m with lookups := m.lookups + 1 })

/-- Store a result, whatever was stored before. -/
def insert (m : Memo κ υ) (key : κ) (value : υ) : Memo κ υ :=
  { m with entries := m.entries.insert key value }

/-- Store a result unless there is one already. -/
def insertIfNew (m : Memo κ υ) (key : κ) (value : υ) : Memo κ υ :=
  { m with entries := m.entries.insertIfNew key value }

/-- Forget every key whose result is the given one. -/
def eraseValue [BEq υ] (m : Memo κ υ) (value : υ) : Memo κ υ :=
  { m with entries := m.entries.filter fun _ v => !(v == value) }

/-- Forget every result. -/
def clear (m : Memo κ υ) : Memo κ υ := { m with entries := ∅ }

end Memo
end BayesCircuit.Collection
