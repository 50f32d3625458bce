/-!
# Pairing numbers of machine words

`pair` numbers the pairs of natural numbers shell by shell: the pair with larger component `m`
lies in shell `m`, whose numbers start at `m * m`. Here it is used on machine words, whose
arithmetic wraps, to choose a bucket for a key.
-/

namespace BayesCircuit.Collection

/-- The number of a pair. -/
def pair (a b : UInt64) : UInt64 :=
  if a < b then b * b + a else a * a + a + b

/-- The number of a triple. -/
def pair3 (a b c : UInt64) : UInt64 := pair (pair a b) c

/-- The number of a list. -/
def pairList (items : List UInt64) : UInt64 := items.foldl pair 0

/-- Keys that have a number by which a table finds them. -/
class Fingerprint (κ : Type) where
  fingerprint : κ → UInt64

export Fingerprint (fingerprint)

instance : Fingerprint (UInt64 × UInt64) := ⟨fun k => pair k.1 k.2⟩

instance : Fingerprint (UInt64 × UInt64 × UInt64) := ⟨fun k => pair3 k.1 k.2.1 k.2.2⟩

instance : Fingerprint (List Nat) := ⟨fun k => pairList (k.map UInt64.ofNat)⟩

end BayesCircuit.Collection
