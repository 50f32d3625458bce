import BayesCircuit.Failure

/-!
# Sets of variables of a fixed capacity

The ordering searches tell their states apart by the set of variables that have been visited. A set
is a list of words, each with room for 64 numbers: the number `64 * i + j` is a member if bit `j` of
word `i` is set. The number of members is kept beside the words. As the number of words never
changes, two sets of one capacity are equal exactly if they have the same members.
-/

namespace BayesCircuit.Collection

/-- The words with the bits of the members of a set, and the number of members. -/
structure VariableSet where
  words : Array (BitVec 64)
  card : Nat
  deriving Repr, DecidableEq, Hashable

namespace VariableSet

/-- The empty set with room for the numbers below `capacity`. -/
def empty (capacity : Nat) : VariableSet := ⟨Array.replicate ((capacity + 63) / 64) 0#64, 0⟩

/-- The numbers below this one can be members. -/
def capacity (s : VariableSet) : Nat := 64 * s.words.size

/-- The word in which only the bit of a number is set. -/
def mask (v : Nat) : BitVec 64 := 1#64 <<< (v % 64)

/-- Whether the bit of a number is set in its word. -/
def marks (word : BitVec 64) (v : Nat) : Bool := word &&& mask v != 0#64

def contains (s : VariableSet) (v : Nat) : Bool := s.words[v / 64]?.any (marks · v)

instance : Membership Nat VariableSet := ⟨fun s v => s.contains v = true⟩

instance (s : VariableSet) (v : Nat) : Decidable (v ∈ s) :=
  inferInstanceAs (Decidable (s.contains v = true))

def isEmpty (s : VariableSet) : Bool := s.card == 0

/-- Add a number below the capacity, and say whether it is new. -/
def insert (s : VariableSet) (v : Nat) : Outcome (Bool × VariableSet) := do
  let word ← fetch s.words (v / 64)
  if marks word v then return (false, s)
  else return (true, ⟨s.words.setIfInBounds (v / 64) (word ||| mask v), s.card + 1⟩)

/-- Take a number out, and say whether it was a member. -/
def erase (s : VariableSet) (v : Nat) : Bool × VariableSet :=
  match s.words[v / 64]? with
  | none => (false, s)
  | some word =>
      if marks word v then
        (true, ⟨s.words.setIfInBounds (v / 64) (word &&& ~~~mask v), s.card - 1⟩)
      else (false, s)

/-- The set with one more number. -/
def adding (s : VariableSet) (v : Nat) : Outcome VariableSet :=
  (s.insert v).map (·.2)

/-- The set with more numbers. -/
def insertMany (s : VariableSet) (vs : List Nat) : Outcome VariableSet :=
  vs.foldlM (fun s v => s.adding v) s

/-- The empty set of the same capacity. -/
def clear (s : VariableSet) : VariableSet := ⟨s.words.map fun _ => 0#64, 0⟩

theorem toNat_sub_one {word : BitVec 64} (h : word ≠ 0#64) :
    (word - 1#64).toNat = word.toNat - 1 := by
  refine BitVec.toNat_sub_of_le ?_
  have hpos : word.toNat ≠ 0 := fun hzero => h (BitVec.eq_of_toNat_eq hzero)
  rw [BitVec.le_def, BitVec.toNat_ofNat]
  omega

theorem toNat_and_sub_one_lt {word : BitVec 64} (h : word ≠ 0#64) :
    (word &&& (word - 1#64)).toNat < word.toNat := by
  have hpos : word.toNat ≠ 0 := fun hzero => h (BitVec.eq_of_toNat_eq hzero)
  have hle : (word &&& (word - 1#64)).toNat ≤ word.toNat - 1 := by
    rw [BitVec.toNat_and, toNat_sub_one h]
    exact Nat.and_le_right
  omega

/-- The positions of the bits that are set in a word, in ascending order. The lowest one is taken
off the word until none is left. -/
def ones (word : BitVec 64) : List Nat :=
  if word = 0#64 then []
  else word.ctz.toNat :: ones (word &&& (word - 1#64))
termination_by word.toNat
decreasing_by exact toNat_and_sub_one_lt ‹_›

/-- The members in ascending order. -/
def toList (s : VariableSet) : List Nat :=
  s.words.toList.zipIdx.flatMap fun (word, i) => (ones word).map (64 * i + ·)

end VariableSet
end BayesCircuit.Collection
