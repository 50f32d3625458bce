import BayesCircuit.Encoding.Basic

/-!
# Lists of weights

A list of weights stands for their product. The weights of a list ascend, and one that occurs
several times counts as often.
-/

namespace BayesCircuit

/-- Ascending weights. -/
abbrev Weights := List Weight

namespace Weights

/-- Whether the weights ascend. -/
def ascends : Weights → Bool
  | a :: b :: ws => a ≤ b && ascends (b :: ws)
  | _ => true

/-- Add a weight in front of the first one that is not less. -/
def insert (w : Weight) : Weights → Weights
  | [] => [w]
  | x :: xs => if x < w then x :: insert w xs else w :: x :: xs

/-- The weights of two lists. -/
def union (a b : Weights) : Weights := List.merge a b (· ≤ ·)

/-- The weights with commas between them. -/
def toText (ws : Weights) : String := String.intercalate "," (ws.map toString)

/-- The value of a weight; zero for a number that stands for nothing. -/
def valueOf (e : Encoding) (w : Weight) : Float :=
  if e.isProbability w then (e.weightValues.getD (w - e.literalCount - 1) .zero).toFloat
  else Float.ofNat w

/-- The product of the values of weights. -/
def product (e : Encoding) (ws : Weights) : Float :=
  ws.foldl (fun acc w => acc * valueOf e w) 1.0

end Weights
end BayesCircuit
