import BayesCircuit.Literal
import BayesCircuit.Network.Basic
import Std.Data.HashMap

/-!
# Literals and weights of a network

The values of all variables are numbered from one, variable by variable; these numbers are the
positive literals. Table entries are represented by weights, which are numbered after the
literals. A `Factor` is the table of one variable, arranged over its variables in ascending order
with the first one as the least significant digit of a row.

Two options change which weights there are:

* `determinism` reserves the weights 0 and 1 for entries that are exactly zero or one;
* `sharing` gives equal entries of one table the same weight.
-/

namespace BayesCircuit

/-- A number that stands for a table entry. -/
abbrev Weight := Nat

/-- The options of an encoding. -/
structure EncodingOptions where
  determinism : Bool
  sharing : Bool
  deriving Repr, DecidableEq

/-- The table of a variable over ascending variables. -/
structure Factor where
  /-- The variable whose table this is. -/
  owner : Variable
  /-- The variable and its parents, ascending. -/
  scope : List Variable
  /-- The first literal of each of them. -/
  firsts : List Nat
  /-- The domain size of each of them. -/
  dims : List Nat
  /-- The weight of each row. -/
  weights : Array Weight
  /-- The entry of each row. -/
  probabilities : Array Probability

namespace Factor

/-- The number of rows. -/
def rows (f : Factor) : Nat := f.weights.size

/-- Where the variable of the table stands among its variables. -/
def position (f : Factor) : Nat := (f.scope.findIdx? (· == f.owner)).getD 0

/-- The literals of all values of the variables, ascending. -/
def literals (f : Factor) : List Nat :=
  (f.firsts.zip f.dims).flatMap fun (first, dim) => (List.range dim).map (first + ·)

/-- A counter over the rows. -/
def counter (f : Factor) : Counter := Counter.zero f.dims

end Factor

/-- The literals, weights and factors of a network, with the names that files use. -/
structure Encoding where
  dims : Array Nat
  /-- The first literal of each variable. -/
  firstLiterals : Array Nat
  /-- The variable of each literal; the entry for zero means nothing. -/
  literalVariables : Array Variable
  /-- The value of each weight, from the first number after the literals. -/
  weightValues : Array Probability
  names : Array String
  /-- The name of the value of each literal; the entry for zero means nothing. -/
  literalNames : Array String
  factors : Array Factor

namespace Encoding

/-- The number of variables. -/
def variableCount (e : Encoding) : Nat := e.firstLiterals.size

/-- The number of literals. -/
def literalCount (e : Encoding) : Nat := e.literalVariables.size - 1

/-- The number of weights that are not reserved. -/
def weightCount (e : Encoding) : Nat := e.weightValues.size

def factor (e : Encoding) (v : Variable) : Outcome Factor := fetch e.factors v

def firstLiteral (e : Encoding) (v : Variable) : Outcome Nat := fetch e.firstLiterals v

/-- The number of the literal of a value of a variable, as a signed half of a machine word. -/
def literal (e : Encoding) (v : Variable) (value : Nat) : Outcome Int := do
  let n := (← e.firstLiteral v) + value
  ensure .overflow (n < halfWordSize)
  return Int.bmod n halfWordSize

/-- The variable of a literal. -/
def variableOf (e : Encoding) (l : Literal) : Outcome Variable := fetch e.literalVariables l.index

/-- The value that a literal stands for. -/
def valueOf (e : Encoding) (l : Literal) : Outcome Nat := do
  minus l.index (← e.firstLiteral (← e.variableOf l))

def name (e : Encoding) (v : Variable) : Outcome String := fetch e.names v

/-- The name of a value, empty if there is no such value. -/
def valueName (e : Encoding) (v : Variable) (value : Nat) : String :=
  if value < e.dims.getD v 0 then
    e.literalNames.getD (e.firstLiterals.getD v 0 + value) ""
  else ""

/-- Whether a number stands for a table entry that is not reserved. -/
def isProbability (e : Encoding) (w : Weight) : Bool := e.literalCount < w

/-- The value of a weight; a reserved weight is its own value. -/
def weightValue (e : Encoding) (w : Weight) : Outcome Float :=
  if e.isProbability w then (fetch e.weightValues (w - e.literalCount - 1)).map (·.toFloat)
  else .ok w.toFloat

/-- The literals of an assignment, which lists a value of every variable. -/
def literalsOf (e : Encoding) (values : List Nat) : List Nat :=
  List.zipWith (· + ·) e.firstLiterals.toList values

/-- All assignments, in which the last variable varies fastest. -/
def assignments (e : Encoding) : List (List Nat) :=
  let dims := e.dims.toList
  if dims.contains 0 then []
  else (Counter.zero dims.reverse).walk.map fun c => c.digits.reverse

/-! ## Encoding a network -/

/-- The first literal of each variable, when the first one is `l`. -/
def firstLiteralsFrom (l : Nat) : List Nat → List Nat
  | [] => []
  | dim :: dims => l :: firstLiteralsFrom (l + dim) dims

/-- What is known while the entries of one table get their weights: the rows, the weights handed
out so far in the whole network, and the weights of the entries of this table by their bits. -/
structure Rows where
  weights : Array Weight
  probabilities : Array Probability
  values : Array Probability
  shared : Std.HashMap Probability Weight

namespace Rows

/-- The weight of an entry, where weights are numbered after `literals`. -/
def weightOf (options : EncodingOptions) (literals : Nat) (rows : Rows) (p : Probability) :
    Weight × Rows :=
  if options.determinism && (p.toFloat == 0.0 || p.toFloat == 1.0) then
    (if p.toFloat == 1.0 then 1 else 0, rows)
  else
    let fresh := literals + rows.values.size + 1
    if options.sharing then
      match rows.shared[p]? with
      | some w => (w, rows)
      | none =>
          (fresh, { rows with
            values := rows.values.push p, shared := rows.shared.insert p fresh })
    else (fresh, { rows with values := rows.values.push p })

/-- Store an entry and its weight in a row. -/
def put (options : EncodingOptions) (literals : Nat) (rows : Rows) (row : Nat)
    (p : Probability) : Rows :=
  let (w, rows) := rows.weightOf options literals p
  { rows with
    weights := rows.weights.setIfInBounds row w
    probabilities := rows.probabilities.setIfInBounds row p }

end Rows

/-- The row of a factor that holds the entry at a position of a table. -/
def rowOf (table ascending : Counter) (p : Projection) (i : Nat) : Nat :=
  (ascending.project (table.withValueLast i) p).value

/-- The factor of a variable; `values` are the weights handed out before. -/
def factorOf (options : EncodingOptions) (net : Network) (firsts : Array Nat) (literals : Nat)
    (values : Array Probability) (v : Variable) : Outcome (Factor × Array Probability) := do
  let node ← net.node v
  let dims := net.dims
  let listed := node.parents ++ [v]
  let scope := listed.mergeSort
  let table ← Counter.ofScope dims listed
  let ascending ← Counter.ofScope dims scope
  let projection := Counter.projectionUnsorted listed scope
  ensure .divisionByZero (node.table.isEmpty || table.radices.all (· != 0))
  let size := node.table.size
  let put := fun (rows : Rows) (entry : Probability × Nat) =>
    rows.put options literals (rowOf table ascending projection entry.2) entry.1
  let rows := node.table.toList.zipIdx.foldl put
    ⟨Array.replicate size 0, Array.replicate size .zero, values, ∅⟩
  let factor : Factor :=
    { owner := v, scope
      firsts := ← scope.mapM (fetch firsts)
      dims := ascending.radices
      weights := rows.weights, probabilities := rows.probabilities }
  return (factor, rows.values)

/-- The factors of the variables from `v` on. -/
def factorsFrom (options : EncodingOptions) (net : Network) (firsts : Array Nat) (literals : Nat) :
    List Variable → Array Probability → Outcome (List Factor × Array Probability)
  | [], values => .ok ([], values)
  | v :: vs, values => do
      let (f, values) ← factorOf options net firsts literals values v
      let (fs, values) ← factorsFrom options net firsts literals vs values
      return (f :: fs, values)

/-- The encoding of a network. -/
def ofNetwork (options : EncodingOptions) (net : Network) : Outcome Encoding := do
  let dims := net.dims
  let firsts := (firstLiteralsFrom 1 dims.toList).toArray
  let literals := sumOf dims.toList
  let (factors, values) ←
    factorsFrom options net firsts literals (List.range net.size) #[]
  return {
    dims, firstLiterals := firsts
    literalVariables :=
      #[0] ++ dims.toList.zipIdx.toArray.flatMap fun (dim, v) => Array.replicate dim v
    weightValues := values
    names := net.nodes.map (·.name)
    literalNames := #[""] ++ net.nodes.flatMap (·.states)
    factors := factors.toArray }

end Encoding
end BayesCircuit
