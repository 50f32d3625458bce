/-!
# Binary floating-point numbers of 64 bits

A finite number is `significand * 2 ^ exponent` with a sign. `Binary64.decode?` reads the three
parts from the bits, and `Binary64.nearest` finds the bits of the number nearest to a quotient of
natural numbers; a quotient halfway between two numbers goes to the one with an even significand.
-/

namespace BayesCircuit.Decimal

/-- Quotient rounded to the nearest whole number, a half to the even one. -/
def roundHalfEven (num den : Nat) : Nat :=
  let q := num / den
  let r := num % den
  if 2 * r < den then q
  else if den < 2 * r then q + 1
  else q + q % 2

/-- The parts of a finite number. -/
structure Binary64 where
  negative : Bool
  significand : Nat
  exponent : Int
  deriving Repr, DecidableEq

namespace Binary64

/-- The exponent of the smallest positive number. -/
def minExponent : Int := -1074

/-- The number of significands without an implicit leading bit. -/
def implicitBit : Nat := Nat.pow 2 52

/-- The parts of a number given by its bits; infinities and NaN have none. -/
def decode? (bits : UInt64) : Option Binary64 :=
  let n := bits.toNat
  let negative := n / Nat.pow 2 63 == 1
  let biased : Nat := n / Nat.pow 2 52 % Nat.pow 2 11
  let fraction := n % Nat.pow 2 52
  if biased == 2047 then none
  else if biased == 0 then some ⟨negative, fraction, minExponent⟩
  else some ⟨negative, fraction + implicitBit, (biased : Int) - 1075⟩

/-- The bits of positive infinity. -/
def infinityBits : UInt64 := 0x7FF0000000000000

/-- The exponent with which `num / den` has a significand of 53 bits, or the smallest exponent. -/
def exponentOf (num den : Nat) : Int :=
  let q : Int := (Nat.log2 num : Int) - Nat.log2 den - 53
  let tooSmall := den * Nat.pow 2 (53 + q).toNat ≤ num * Nat.pow 2 (-(53 + q)).toNat
  max minExponent (if tooSmall then q + 1 else q)

/-- The bits of the number nearest to `num / den`. -/
def nearest (num den : Nat) : UInt64 :=
  if num == 0 then 0
  else
    let q := exponentOf num den
    let s := roundHalfEven (num * Nat.pow 2 (-q).toNat) (den * Nat.pow 2 q.toNat)
    if s < implicitBit then UInt64.ofNat s
    else
      let bits := (q + 1075).toNat * Nat.pow 2 52 + (s - implicitBit)
      if infinityBits.toNat ≤ bits then infinityBits else UInt64.ofNat bits

end Binary64

end BayesCircuit.Decimal
