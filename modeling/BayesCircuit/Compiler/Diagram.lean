import BayesCircuit.Ordering.Strategy

/-!
# What is compiled, and how

A network becomes one diagram for each partition: a decision diagram whose nodes carry weights, or a
multigraph of and nodes and or nodes along a chain or along a pseudo-tree.
-/

namespace BayesCircuit.Compiler

/-- The kinds of diagrams. -/
inductive Diagram where
  /-- A decision diagram. -/
  | decision
  /-- A multigraph along a chain. -/
  | chain
  /-- A multigraph along a pseudo-tree. -/
  | tree
  deriving DecidableEq, Repr

namespace Diagram

def all : List Diagram := [decision, chain, tree]

def name : Diagram → String
  | decision => "wpbdd"
  | chain => "mg"
  | tree => "tdmg"

def isMultigraph (d : Diagram) : Bool := d != decision

/-- The strategy that orders the partitions unless another one is asked for. -/
def defaultOrdering : Diagram → Ordering.Strategy
  | tree => .minFill
  | decision | chain => .anneal

/-- The kind that a text names, or what is wrong with the text. -/
def parse (text : String) : Except String Diagram :=
  match all.find? (·.name == text) with
  | some d => .ok d
  | none => .error ("unknown diagram type '" ++ text ++ "'")

end Diagram

/-- The ways to the decision diagram of a table. -/
inductive Method where
  /-- Conjoin one diagram for each row. -/
  | bottomUp
  /-- The same, under another name. -/
  | topDown
  /-- Condition on one literal after the other, and conjoin only the tables. -/
  | hybrid
  deriving DecidableEq, Repr

namespace Method

def all : List Method := [bottomUp, topDown, hybrid]

def name : Method → String
  | bottomUp => "bottomup"
  | topDown => "topdown"
  | hybrid => "hybrid"

/-- The method that a text names, or what is wrong with the text. -/
def parse (text : String) : Except String Method :=
  match all.find? (·.name == text) with
  | some m => .ok m
  | none => .error ("unknown compilation strategy '" ++ text ++ "'")

end Method
end BayesCircuit.Compiler
