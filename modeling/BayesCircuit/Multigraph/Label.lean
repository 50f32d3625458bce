import BayesCircuit.Decimal.Layout
import BayesCircuit.Weights

/-!
# Labels of edges

The label of an edge is the product of the table rows that the edge completes. It is kept as the
list of their weights or multiplied out into one probability.
-/

namespace BayesCircuit

/-- How labels are multiplied. -/
structure LabelAlgebra (W : Type) where
  /-- The label without any row. -/
  unit : W
  /-- The label of an edge that cannot be taken. -/
  zero : W
  /-- Multiply a label by a row of a table. -/
  multiply : Factor → Nat → W → W

/-- How labels are multiplied, counted, evaluated and written. -/
structure EdgeLabel (W : Type) extends LabelAlgebra W where
  isZero : W → Bool
  /-- The number of weights that a label is written with. -/
  weightCount : W → Nat
  value : Encoding → W → Float
  /-- The number of weights and the weights. -/
  dump : W → List String
  caption : W → String

namespace Weights

/-- Multiply weights by a row. The weight one is left out. -/
def multiply (f : Factor) (row : Nat) (ws : Weights) : Weights :=
  let w := f.weights.getD row 0
  if w == 1 then ws else insert w ws

/-- Edges with lists of weights. -/
def label : EdgeLabel Weights where
  unit := []
  zero := [0]
  multiply := multiply
  isZero ws := ws.head? == some 0
  weightCount := List.length
  value := product
  dump ws := toString ws.length :: ws.map toString
  caption := toText

end Weights

namespace Probability

/-- Edges with one probability. -/
def label : EdgeLabel Probability where
  unit := .one
  zero := .zero
  multiply f row p := p.mul (f.probabilities.getD row .zero)
  isZero p := p.toFloat == 0.0
  weightCount p := if p.toFloat == 1.0 then 0 else 1
  value _ p := p.toFloat
  dump p := if p.toFloat == 1.0 then ["0"] else ["1", p.source]
  caption p := Decimal.fixed 4 p.toFloat

end Probability
end BayesCircuit
