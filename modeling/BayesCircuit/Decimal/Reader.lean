import BayesCircuit.Decimal.Double
import BayesCircuit.Text.Numeral

/-!
# Reading floating-point numbers

A number is an optional sign followed by `inf`, `infinity` or `nan` in any case, or by digits with
at most one point among them and an optional exponent. The value is the nearest double. A minus
sign changes the sign of every value, also that of NaN.
-/

namespace BayesCircuit.Decimal

open BayesCircuit.Text (isDigit digitsValue)

/-- The parts of an unsigned decimal number: all its digits, how many follow the point, and the
exponent. -/
structure Numeral where
  digits : List Char
  places : Nat
  exponent : Int

/-- An exponent: a sign and at least one digit, up to the end of the text. -/
def exponent? (cs : List Char) : Option Int :=
  match cs with
  | '+' :: ds => (Text.natural? ds).map Int.ofNat
  | '-' :: ds => (Text.natural? ds).map fun n => -(n : Int)
  | ds => (Text.natural? ds).map Int.ofNat

/-- The parts of an unsigned number; there must be a digit before or after the point. -/
def numeral? (cs : List Char) : Option Numeral := do
  let whole := cs.takeWhile isDigit
  let rest := cs.dropWhile isDigit
  let (places, rest) := match rest with
    | '.' :: rest => (rest.takeWhile isDigit, rest.dropWhile isDigit)
    | rest => ([], rest)
  if whole.isEmpty && places.isEmpty then none
  else
    let exponent ← match rest with
      | [] => some 0
      | c :: rest => if c == 'e' || c == 'E' then exponent? rest else none
    some ⟨whole ++ places, places.length, exponent⟩

/-- The value of an unsigned number. Beyond the range of doubles the exponent is not expanded. -/
def Numeral.bits (n : Numeral) : UInt64 :=
  let significant := n.digits.dropWhile (· == '0')
  let e := n.exponent - n.places
  let magnitude := (significant.length : Int) + e
  if significant.isEmpty || magnitude < -400 then 0
  else if 400 < magnitude then Binary64.infinityBits
  else Binary64.nearest (digitsValue significant * Nat.pow 10 e.toNat) (Nat.pow 10 (-e).toNat)

/-- An ASCII letter in lower case. -/
def lower (c : Char) : Char :=
  if 'A' ≤ c && c ≤ 'Z' then Char.ofNat (c.toNat + 32) else c

/-- The value of an unsigned number, an infinity or NaN. -/
def magnitude? (cs : List Char) : Option Double :=
  match numeral? cs with
  | some n => some ⟨n.bits⟩
  | none =>
      let word := String.ofList (cs.map lower)
      if word == "inf" || word == "infinity" then some .infinity
      else if word == "nan" then some .nan
      else none

/-- The number that a text spells. -/
def read? (s : String) : Option Double :=
  match s.toList with
  | '+' :: cs => magnitude? cs
  | '-' :: cs => (magnitude? cs).map Double.neg
  | cs => magnitude? cs

end BayesCircuit.Decimal
