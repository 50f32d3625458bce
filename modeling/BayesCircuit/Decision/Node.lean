import BayesCircuit.Collection.Pairing
import BayesCircuit.Literal
import BayesCircuit.Weights

/-!
# Nodes of weighted decision diagrams

A decision node tests a positive literal. Its high edge is taken if the literal holds and carries
weights; its low edge is taken if it does not. A path that ends in the terminal `true'` contributes
the product of the weights on it, one that ends in `false'` contributes zero.
-/

namespace BayesCircuit.Decision

open Collection

/-- The number of a node. -/
abbrev Handle := Nat

namespace Handle

/-- The terminal that contributes zero. -/
def false' : Handle := 0

/-- The terminal that contributes what was collected before it. -/
def true' : Handle := 1

/-- Whether a handle is one of the two terminals. -/
def isTerminal (h : Handle) : Bool := h ≤ 1

/-- A handle as text. -/
def display (h : Handle) : String :=
  if h == false' then "@F" else if h == true' then "@T" else s!"@{h}"

end Handle

/-- A node with the number of edges and holders that refer to it. -/
structure Node where
  literal : Int
  high : Handle
  low : Handle
  weights : Weights
  refs : Nat
  deriving DecidableEq, Repr, Inhabited

/-- What makes two nodes equal. -/
structure Node.Key where
  literal : Int
  high : Handle
  low : Handle
  weights : Weights
  deriving DecidableEq, Repr

instance : Fingerprint Node.Key :=
  ⟨fun k => pair3
    (pair3 (UInt64.ofNat (k.literal % Int.ofNat halfWordSize).toNat) (UInt64.ofNat k.high)
      (UInt64.ofNat k.low))
    (fingerprint k.weights) (UInt64.ofNat k.weights.length)⟩

namespace Node

/-- What makes the node equal to another. -/
def key (n : Node) : Key := ⟨n.literal, n.high, n.low, n.weights⟩

/-- The node of `false'`. -/
def falseNode : Node := ⟨0, Handle.false', Handle.false', [], 0⟩

/-- The node of `true'`. -/
def trueNode : Node := ⟨-1, Handle.false', Handle.false', [], 0⟩

/-- Whether the node is that of a terminal. -/
def isTerminal (n : Node) : Bool := n.literal == 0 || n.literal == -1

end Node
end BayesCircuit.Decision
