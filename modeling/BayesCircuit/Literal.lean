import BayesCircuit.Failure

/-!
# Literals

The values of all variables are numbered from one; a literal is such a number with a sign, which
says whether the variable has the value or has not. Zero is no literal.
-/

namespace BayesCircuit

/-- A number other than zero. -/
structure Literal where
  value : Int
  value_ne_zero : value ≠ 0
  deriving DecidableEq, Repr

namespace Literal

/-- The literal with a given number, which must not be zero. -/
def of (n : Int) : Outcome Literal :=
  if h : n ≠ 0 then .ok ⟨n, h⟩ else abort .requirement

/-- The position of a literal in the numbering. -/
def index (l : Literal) : Nat := l.value.natAbs

def isNegative (l : Literal) : Bool := l.value < 0

def isPositive (l : Literal) : Bool := 0 < l.value

/-- The literal of the same position with the other sign. -/
def neg (l : Literal) : Literal := ⟨-l.value, by have := l.value_ne_zero; omega⟩

/-- The literal with the other sign, if that fits half a machine word, one value of which has no
negation. -/
def neg? (l : Literal) : Outcome Literal := do
  ensure .overflow (l.index < halfWordSize / 2)
  return l.neg

/-- The positive literal of the same position. -/
def abs (l : Literal) : Literal := ⟨l.value.natAbs, by have := l.value_ne_zero; omega⟩

instance : Neg Literal := ⟨neg⟩

end Literal
end BayesCircuit
