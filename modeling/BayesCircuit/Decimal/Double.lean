import BayesCircuit.Decimal.Binary64

/-!
# Numbers told apart by their bits

A `Double` is a floating-point number that equals another one only if all bits agree: zero differs
from negative zero, and NaN, which has a sign too, is equal to itself.

* `nearest` is the double next to a quotient, with a sign.
* `mul` multiplies. A factor that is NaN is the product, the first one if both are; a product that
  has no value, such as zero times infinity, is the negative NaN.
-/

namespace BayesCircuit.Decimal

/-- A floating-point number with its bits. -/
structure Double where
  bits : UInt64
  deriving DecidableEq, Hashable, Repr

namespace Double

def ofFloat (x : Float) : Double := ⟨x.toBits⟩

def toFloat (x : Double) : Float := Float.ofBits x.bits

def zero : Double := ⟨0⟩

def one : Double := ⟨0x3FF0000000000000⟩

def infinity : Double := ⟨Binary64.infinityBits⟩

/-- The NaN without a sign. -/
def nan : Double := ⟨0x7FF8000000000000⟩

/-- The same number with the other sign. -/
def neg (x : Double) : Double := ⟨x.bits ^^^ 0x8000000000000000⟩

instance : Neg Double := ⟨neg⟩

def isNaN (x : Double) : Bool := x.toFloat.isNaN

/-- The number nearest to `num / den`, with a sign. -/
def nearest (negative : Bool) (num den : Nat) : Double :=
  let x : Double := ⟨Binary64.nearest num den⟩
  if negative then -x else x

/-- The product of two numbers. -/
def mul (a b : Double) : Double :=
  if a.isNaN then a
  else if b.isNaN then b
  else
    let x := a.toFloat * b.toFloat
    if x.isNaN then -nan else ofFloat x

end Double
end BayesCircuit.Decimal
