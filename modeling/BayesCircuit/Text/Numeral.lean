/-!
# Whole numbers in decimal digits

A numeral is an optional sign and at least one ASCII digit, with nothing around it. A numeral
whose value does not fit the range asked for is no numeral of that range.
-/

namespace BayesCircuit.Text

/-- An ASCII digit. -/
def isDigit (c : Char) : Bool :=
  '0' ≤ c && c ≤ '9'

/-- The value of an ASCII digit. -/
def digitValue (c : Char) : Nat :=
  c.toNat - '0'.toNat

/-- The value of a list of digits, the first being the most significant. -/
def digitsValue (cs : List Char) : Nat :=
  cs.foldl (fun n c => 10 * n + digitValue c) 0

/-- The value of a non-empty list of digits. -/
def natural? (cs : List Char) : Option Nat :=
  if cs.isEmpty || !cs.all isDigit then none else some (digitsValue cs)

/-- A number below `limit`, which may have a plus sign. -/
def unsigned? (limit : Nat) (s : String) : Option Nat := do
  let n ← match s.toList with
    | '+' :: cs => natural? cs
    | cs => natural? cs
  if n < limit then some n else none

/-- A number from `-limit` up to but not including `limit`. -/
def signed? (limit : Nat) (s : String) : Option Int := do
  let n ← match s.toList with
    | '+' :: cs => (natural? cs).map Int.ofNat
    | '-' :: cs => (natural? cs).map fun m => -(m : Int)
    | cs => (natural? cs).map Int.ofNat
  if -(limit : Int) ≤ n && n < (limit : Int) then some n else none

/-- A variable, a weight or another number of half a machine word. -/
def u32? (s : String) : Option Nat :=
  unsigned? (Nat.pow 2 32) s

/-- A number of a machine word. -/
def u64? (s : String) : Option Nat :=
  unsigned? (Nat.pow 2 64) s

/-- A signed number of half a machine word. -/
def i32? (s : String) : Option Int :=
  signed? (Nat.pow 2 31) s

end BayesCircuit.Text
