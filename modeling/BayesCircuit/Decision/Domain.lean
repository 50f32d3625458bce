import BayesCircuit.Decision.Cofactor
import BayesCircuit.Encoding.Basic

/-!
# Domain closure

Every variable has exactly one value. While literals are conditioned on, a closure counts for each
variable the values that are still possible and knows whether one has been chosen.
-/

namespace BayesCircuit.Decision

/-- The values left and whether one has been chosen, for each variable. -/
structure DomainClosure where
  literalVariables : Array Variable
  valuesLeft : Array Nat
  chosen : Array Bool
  deriving DecidableEq, Repr

namespace DomainClosure

/-- Nothing has been conditioned on. -/
def start (literalVariables : Array Variable) (dims : Array Nat) : DomainClosure :=
  ⟨literalVariables, dims, Array.replicate dims.size false⟩

/-- The closure over the literals of an encoding. -/
def ofEncoding (e : Encoding) : DomainClosure := start e.literalVariables e.dims

/-- The variable of a literal. -/
def variableOf (d : DomainClosure) (l : Literal) : Outcome Variable :=
  fetch d.literalVariables l.index

/-- Whether the variable of a literal has a value. -/
def isDecided (d : DomainClosure) (l : Literal) : Outcome Bool := do
  fetch d.chosen (← d.variableOf l)

/-- Condition on a literal. -/
def condition (d : DomainClosure) (l : Literal) : Outcome (Cofactor × DomainClosure) := do
  let v ← d.variableOf l
  if ← fetch d.chosen v then return (.redundant, d)
  if l.isNegative then
    let left ← minus (← fetch d.valuesLeft v) 1
    let found : Cofactor := if left == 0 then .unsatisfiable else .satisfiable
    return (found, { d with valuesLeft := d.valuesLeft.setIfInBounds v left })
  else return (.satisfiable, { d with chosen := d.chosen.setIfInBounds v true })

/-- Take back a literal that was conditioned on and was not redundant. -/
def undo (d : DomainClosure) (l : Literal) : Outcome DomainClosure := do
  let v ← d.variableOf l
  if l.isNegative then
    let left := (← fetch d.valuesLeft v) + 1
    ensure .overflow (left < halfWordSize)
    return { d with valuesLeft := d.valuesLeft.setIfInBounds v left }
  else
    discard (fetch d.chosen v)
    return { d with chosen := d.chosen.setIfInBounds v false }

end DomainClosure
end BayesCircuit.Decision
