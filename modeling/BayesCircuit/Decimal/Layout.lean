import BayesCircuit.Decimal.Double
import BayesCircuit.Decimal.Shortest

/-!
# Writing floating-point numbers

A `Layout` records the decisions of an output format. Two layouts write the digits of
`Digits.shortest`:

* `Layout.source`, in which a number is always recognisable as one with a fraction, uses an
  exponent for numbers of at least `10 ^ 16` or below `10 ^ (-4)`;
* `Layout.plain` never uses an exponent and writes whole numbers without a fraction.

`fixed` writes the exact value with a given number of places; a half goes to the even digit.
-/

namespace BayesCircuit.Decimal

/-- The decisions of an output format. -/
structure Layout where
  /-- Numbers of this many digits before the point are written with an exponent. -/
  maxWhole : Option Nat
  /-- Numbers with this many zeros after the point are written with an exponent. -/
  maxZeros : Option Nat
  /-- Whether a whole number gets the fraction zero. -/
  keepPoint : Bool

namespace Layout

/-- Digits with a fraction or an exponent. -/
def source : Layout := ⟨some 16, some 4, true⟩

/-- Digits without an exponent. -/
def plain : Layout := ⟨none, none, false⟩

end Layout

/-- A run of zeros. -/
def zeros (n : Nat) : String :=
  String.ofList (List.replicate n '0')

/-- Positional text of digits of which the first `point` stand before the point. -/
def positional (keepPoint : Bool) (digits : String) (point : Int) : String :=
  let n : Int := digits.length
  if point ≤ 0 then "0." ++ zeros (-point).toNat ++ digits
  else if n ≤ point then
    digits ++ zeros (point - n).toNat ++ if keepPoint then ".0" else ""
  else
    let cs := digits.toList
    String.ofList (cs.take point.toNat) ++ "." ++ String.ofList (cs.drop point.toNat)

/-- Text with one digit before the point and an exponent. -/
def scientific (digits : String) (point : Int) : String :=
  let mantissa := match digits.toList with
    | [] => "0"
    | [c] => String.ofList [c]
    | c :: cs => String.ofList (c :: '.' :: cs)
  mantissa ++ "e" ++ toString (point - 1)

/-- Text of a number that is not negative. -/
def Layout.magnitude (layout : Layout) (d : Digits) : String :=
  if d.significand == 0 then if layout.keepPoint then "0.0" else "0"
  else
    let digits := toString d.significand
    let point : Int := digits.length + d.exponent
    let tooLong := layout.maxWhole.any fun m => (m : Int) < point
    let tooShort := layout.maxZeros.any fun z => point ≤ -(z : Int)
    if tooLong || tooShort then scientific digits point
    else positional layout.keepPoint digits point

/-- The sign of a number that is not NaN. -/
def isNegative (x : Float) : Bool :=
  x.toBits.toNat / Nat.pow 2 63 == 1

/-- Text of an infinity or NaN. -/
def notFinite (x : Float) : String :=
  if x.isNaN then "NaN" else if isNegative x then "-inf" else "inf"

/-- Text of a number in a layout. -/
def Layout.write (layout : Layout) (x : Float) : String :=
  match Binary64.decode? x.toBits with
  | none => notFinite x
  | some b =>
      (if b.negative then "-" else "") ++
        layout.magnitude (Digits.shortest b.significand b.exponent)

/-- Text of a number with exactly `places` digits after the point. -/
def fixed (places : Nat) (x : Float) : String :=
  match Binary64.decode? x.toBits with
  | none => notFinite x
  | some b =>
      let v := Quotient.ofBinary b.significand b.exponent
      let n := roundHalfEven (v.num * Nat.pow 10 places) v.den
      let digits := toString n
      let padded := zeros (places + 1 - digits.length) ++ digits
      let whole := padded.length - places
      let cs := padded.toList
      (if b.negative then "-" else "") ++ String.ofList (cs.take whole) ++
        if places == 0 then "" else "." ++ String.ofList (cs.drop whole)

/-- Text with a fraction or an exponent. -/
def source (x : Float) : String :=
  Layout.source.write x

/-- Text without an exponent. -/
def plain (x : Float) : String :=
  Layout.plain.write x

/-- Text with a fraction or an exponent. The sign of NaN is not shown. -/
def Double.source (x : Double) : String := Decimal.source x.toFloat

/-- Text without an exponent. The sign of NaN is not shown. -/
def Double.plain (x : Double) : String := Decimal.plain x.toFloat

end BayesCircuit.Decimal
