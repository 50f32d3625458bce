import BayesCircuit.Failure

/-!
# What conditioning leaves

When a literal is given its truth value, what is left of a function is its *cofactor*. The kinds of
cofactors are ordered by precedence: of several findings the greatest one counts.
-/

namespace BayesCircuit.Decision

/-- What is known about a cofactor. -/
inductive Cofactor where
  /-- Nothing is left to satisfy. -/
  | satisfiable
  /-- Something is left to satisfy. -/
  | unsatisfied
  /-- The literal does not matter. -/
  | redundant
  /-- It equals a diagram that exists already. -/
  | trivial
  /-- Nothing can satisfy it. -/
  | unsatisfiable
  /-- It has been computed before. -/
  | cached
  deriving DecidableEq, Repr

namespace Cofactor

/-- The place in the order of precedence. -/
def rank : Cofactor → Nat
  | satisfiable => 0
  | unsatisfied => 1
  | redundant => 2
  | trivial => 3
  | unsatisfiable => 4
  | cached => 5

/-- The finding that counts. -/
def combine (a b : Cofactor) : Cofactor := if b.rank ≤ a.rank then a else b

/-- All kinds, from the least to the greatest. -/
def all : List Cofactor := [satisfiable, unsatisfied, redundant, trivial, unsatisfiable, cached]

/-- The name under which a kind is shown. -/
def name : Cofactor → String
  | satisfiable => "Satisfiable"
  | unsatisfied => "Unsatisfied"
  | redundant => "Redundant"
  | trivial => "Trivial"
  | unsatisfiable => "Unsatisfiable"
  | cached => "Cached"

end Cofactor
end BayesCircuit.Decision
