import BayesCircuit.Decimal.Binary64

/-!
# The fewest digits that read back

Every real number strictly between the midpoints to the two neighbours of a double reads back as
that double, and so do the midpoints themselves if its significand is even. `Digits.shortest`
takes the coarsest decimal grid that has a point in this interval. If both neighbours of the
double on that grid lie in it, the nearer one is taken, and of two equally near ones the upper.
-/

namespace BayesCircuit.Decimal

/-- The decimal number `significand * 10 ^ exponent`. -/
structure Digits where
  significand : Nat
  exponent : Int
  deriving Repr, DecidableEq

/-- A quotient of natural numbers; the denominator is positive in all uses. -/
structure Quotient where
  num : Nat
  den : Nat

namespace Quotient

/-- The quotient `n * 2 ^ e`. -/
def ofBinary (n : Nat) (e : Int) : Quotient :=
  ⟨n * Nat.pow 2 e.toNat, Nat.pow 2 (-e).toNat⟩

/-- The quotient `n * 10 ^ e`. -/
def ofDecimal (n : Nat) (e : Int) : Quotient :=
  ⟨n * Nat.pow 10 e.toNat, Nat.pow 10 (-e).toNat⟩

/-- Order of quotients, by cross multiplication. -/
def le (a b : Quotient) : Bool := a.num * b.den ≤ b.num * a.den

/-- Strict order of quotients. -/
def lt (a b : Quotient) : Bool := a.num * b.den < b.num * a.den

/-- Whole part of a quotient measured in steps of `10 ^ e`. -/
def floorAt (a : Quotient) (e : Int) : Nat :=
  a.num * Nat.pow 10 (-e).toNat / (a.den * Nat.pow 10 e.toNat)

/-- Half of a quotient. -/
def half (a : Quotient) : Quotient := ⟨a.num, 2 * a.den⟩

/-- The number `k` with `10 ^ (k - 1) ≤ a < 10 ^ k`, for a positive quotient. It is searched
upwards from a lower estimate. -/
def magnitudeFrom (a : Quotient) : Nat → Int → Int
  | 0, k => k
  | fuel + 1, k => if a.lt (ofDecimal 1 k) then k else magnitudeFrom a fuel (k + 1)

/-- A lower estimate of the magnitude from the lengths of the two numbers in binary: a number
with `l` more bits is at least `2 ^ (l - 1)`. -/
def magnitude (a : Quotient) : Int :=
  let l : Int := (Nat.log2 a.num : Int) - Nat.log2 a.den - 1
  magnitudeFrom a 8 (l * 30103 / 100000)

end Quotient

/-- The reals that read back as one double: `low` and `high` are its midpoints. -/
structure Rounding where
  value : Quotient
  low : Quotient
  high : Quotient
  closed : Bool

namespace Rounding

/-- The interval of a positive number. Below a power of two the numbers lie twice as close. -/
def ofBinary (significand : Nat) (exponent : Int) : Rounding :=
  let narrow := significand == Binary64.implicitBit && exponent != Binary64.minExponent
  let e := exponent - 2
  { value := .ofBinary (4 * significand) e
    low := .ofBinary (4 * significand - if narrow then 1 else 2) e
    high := .ofBinary (4 * significand + 2) e
    closed := significand % 2 == 0 }

/-- A point of the interval. -/
def contains (r : Rounding) (x : Quotient) : Bool :=
  if r.closed then r.low.le x && x.le r.high else r.low.lt x && x.lt r.high

/-- The point of the grid of step `10 ^ e` that is taken, if there is one. -/
def pick? (r : Rounding) (e : Int) : Option Nat :=
  let below := r.value.floorAt e
  let above := below + 1
  let hasBelow := below != 0 && r.contains (.ofDecimal below e)
  let hasAbove := r.contains (.ofDecimal above e)
  if hasBelow && hasAbove then
    some (if r.value.lt (Quotient.ofDecimal (below + above) e).half then below else above)
  else if hasBelow then some below
  else if hasAbove then some above
  else none

end Rounding

namespace Digits

/-- The same number without zeros at the end of its significand. -/
def normalizeWith : Nat → Digits → Digits
  | 0, d => d
  | fuel + 1, d =>
      if d.significand != 0 && d.significand % 10 == 0 then
        normalizeWith fuel ⟨d.significand / 10, d.exponent + 1⟩
      else d

/-- The first grid with a point, from `count` digits on; seventeen digits always suffice. -/
def search (r : Rounding) (magnitude : Int) : Nat → Nat → Digits
  | 0, count => ⟨r.value.floorAt (magnitude - count), magnitude - count⟩
  | fuel + 1, count =>
      match r.pick? (magnitude - count) with
      | some n => ⟨n, magnitude - count⟩
      | none => search r magnitude fuel (count + 1)

/-- The digits of the double `significand * 2 ^ exponent`. -/
def shortest (significand : Nat) (exponent : Int) : Digits :=
  if significand == 0 then ⟨0, 0⟩
  else
    let r := Rounding.ofBinary significand exponent
    normalizeWith 20 (search r r.value.magnitude 17 1)

end Digits

end BayesCircuit.Decimal
