import BayesCircuit.Text.Blank
import BayesCircuit.Text.Numeral

/-!
# Names of the ordering strategies

A strategy has a number and a name, and is chosen by either.
-/

namespace BayesCircuit.Ordering

/-- The ways of ordering the variables of a partition. -/
inductive Strategy where
  | topological
  | breadthFirst
  | reverseTopological
  | bestFirst
  | bruteForce
  | components
  | lookahead
  | anneal
  | allTopological
  | annealMinFill
  | minFill
  deriving DecidableEq, Repr

namespace Strategy

/-- All strategies; the position of a strategy is its number. -/
def all : List Strategy :=
  [topological, breadthFirst, reverseTopological, bestFirst, bruteForce, components, lookahead,
    anneal, allTopological, annealMinFill, minFill]

/-- The number of a strategy. -/
def index (s : Strategy) : Nat := all.idxOf s

/-- The strategy with a number. -/
def ofIndex? (n : Nat) : Option Strategy := all[n]?

def name : Strategy → String
  | topological => "topological"
  | breadthFirst => "bfs"
  | reverseTopological => "reverse-topological"
  | bestFirst => "best-first"
  | bruteForce => "brute-force"
  | components => "components"
  | lookahead => "lookahead"
  | anneal => "anneal"
  | allTopological => "all-topological"
  | annealMinFill => "anneal-min-fill"
  | minFill => "min-fill"

/-- Number and name. -/
def display (s : Strategy) : String := s!"{s.index} (" ++ s.name ++ ")"

/-- The strategy that a text names, or what is wrong with the text. -/
def parse (text : String) : Except String Strategy :=
  let text := Text.trim text
  match Text.u32? text with
  | some n =>
      match ofIndex? n with
      | some s => .ok s
      | none => .error s!"unknown ordering strategy {n}"
  | none =>
      match all.find? (·.name == text) with
      | some s => .ok s
      | none => .error ("unknown ordering strategy '" ++ text ++ "'")

end Strategy
end BayesCircuit.Ordering
