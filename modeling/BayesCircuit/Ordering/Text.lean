import BayesCircuit.Encoding.Basic
import BayesCircuit.Text.Blank
import BayesCircuit.Text.Numeral

/-!
# Orderings as text and as literals

An elimination file lists the names of the variables, the last of the ordering first. An index
file lists numbers in their order. An ordering of variables is expanded to one of literals value
by value; the other way, the literals of a variable must stand together.
-/

namespace BayesCircuit.Ordering

/-- The elimination file of an ordering. -/
def toEliminationText (net : Network) (ordering : List Variable) : Outcome String :=
  return Text.join "\n" (← ordering.reverse.mapM net.name) ++ "\n"

/-- Words with the numbers of their lines. -/
def numberedWords (text : String) : List (String × Nat) :=
  ((Text.lines text).zipIdx 1).flatMap fun (l, n) => (Text.words l).map (·, n)

/-- Read the variables that words name; `seen` lists those before, the last one first. -/
def parseNames (net : Network) (file : String) :
    List (String × Nat) → List Variable → Outcome (List Variable)
  | [], seen => .ok seen
  | (name, line) :: rest, seen =>
      match net.find? name with
      | none => fail (.parse file line ("unknown variable in ordering: '" ++ name ++ "'"))
      | some v =>
          if seen.contains v then
            fail (.parse file line
              ("variable '" ++ name ++ "' appears more than once in the ordering"))
          else parseNames net file rest (v :: seen)

/-- Read an elimination file. -/
def parseElimination (net : Network) (file text : String) : Outcome (List Variable) :=
  parseNames net file (numberedWords text) []

/-- An index file. -/
def toIndexText {α : Type} [ToString α] (items : List α) : String :=
  Text.join " " (items.map toString) ++ "\n"

/-- Read numbers; `seen` lists those before, the last one first. -/
def parseNumbers (file : String) : List (String × Nat) → List Nat → Outcome (List Nat)
  | [], seen => .ok seen.reverse
  | (word, line) :: rest, seen =>
      match Text.u32? word with
      | none => fail (.parse file line ("expected a number, got '" ++ word ++ "'"))
      | some x =>
          if seen.contains x then
            fail (.parse file line (s!"'{x}' appears more than once"))
          else parseNumbers file rest (x :: seen)

/-- Read an index file. -/
def parseIndices (file text : String) : Outcome (List Nat) :=
  parseNumbers file (numberedWords text) []

/-- The literals of the variables of an ordering, values ascending. -/
def expand (e : Encoding) (ordering : List Variable) : Outcome (List Nat) := do
  let groups ← ordering.mapM fun v => do
    let dim ← fetch e.dims v
    let first ← e.firstLiteral v
    return (List.range dim).map (first + ·)
  return groups.flatten

/-- Collect the variables of literals; `placed` lists those before, the last one first. Numbers
that are no positive literal are skipped. -/
def collapseFrom (e : Encoding) : List Int → List Variable → Outcome (List Variable)
  | [], placed => .ok placed.reverse
  | l :: ls, placed => do
      if l ≤ 0 || (e.literalCount : Int) < l then collapseFrom e ls placed
      else
        let v ← fetch e.literalVariables l.toNat
        if placed.head? == some v then collapseFrom e ls placed
        else if placed.contains v then
          fail (.invalidOrdering ("literals of variable '" ++ (← e.name v) ++
            "' are interleaved with other variables"))
        else collapseFrom e ls (v :: placed)

/-- The variables of an ordering of literals, which must have one of every variable. -/
def collapse (e : Encoding) (literals : List Int) : Outcome (List Variable) := do
  let ordering ← collapseFrom e literals []
  match (List.range e.variableCount).find? fun v => !ordering.contains v with
  | none => return ordering
  | some v =>
      fail (.invalidOrdering ("variable '" ++ (← e.name v) ++
        "' is missing from the literal ordering"))

/-- The literals of an ordering, by their numbers, that belong to the variables of a factor. -/
def restrict {α : Type} (f : Factor) (index : α → Nat) (literals : List α) : List α :=
  literals.filter fun l =>
    (f.firsts.zip f.dims).any fun (first, dim) => first ≤ index l && index l < first + dim

end BayesCircuit.Ordering
