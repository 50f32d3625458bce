import BayesCircuit.Decision.Build

/-!
# Conditioning the rows of a table

Every row of a table has one literal for each variable of the table. A literal that does not hold
kills the rows that have it; so does a literal that holds those that have another value of its
variable, and it brings the others one literal closer to completion. A completed row contributes
its weight. When no row is pending, nothing is left to satisfy.

Each literal that is conditioned on leaves an entry: the literal and the negations of the values
that it excludes. `undo` goes through the last entry backwards.
-/

namespace BayesCircuit.Decision

/-- The engine of a table. -/
structure Rows where
  determinism : Bool
  literalVariables : Array Variable
  scope : List Variable
  firsts : Array Nat
  dims : Array Nat
  /-- The rows that have a literal. -/
  rowsOf : Array (List Nat)
  weights : Array Weight
  /-- The number of literals of each row that have not been conditioned on. -/
  missing : Array Nat
  /-- The literal that completed or killed each row; zero while the row is pending. -/
  resolvedBy : Array Int
  pending : Nat
  /-- The number of values of each variable of the table that are not excluded. -/
  valuesLeft : Array Nat
  chosen : Array Bool
  /-- The literals that have been conditioned on. -/
  constrained : Array Bool
  /-- The entries, the last one first. -/
  history : List (List Literal)

namespace Rows

/-- Add a row to the literals that it has. -/
def addRow (row : Nat) : List Nat → Array (List Nat) → Outcome (Array (List Nat))
  | [], rowsOf => .ok rowsOf
  | l :: ls, rowsOf => do
      ensure .outOfRange (l < rowsOf.size)
      addRow row ls (rowsOf.modify l (· ++ [row]))

/-- Add the rows that counters show. -/
def addRows (f : Factor) :
    List Counter → Array Weight → Array (List Nat) → Outcome (Array Weight × Array (List Nat))
  | [], weights, rowsOf => .ok (weights, rowsOf)
  | c :: cs, weights, rowsOf => do
      let w ← fetch f.weights c.value
      let rowsOf ← addRow weights.size (List.zipWith (· + ·) f.firsts c.digits) rowsOf
      addRows f cs (weights.push w) rowsOf

/-- Nothing has been conditioned on. -/
def start (f : Factor) (literalVariables : Array Variable) (determinism : Bool) : Outcome Rows := do
  let literals := literalVariables.size
  let (weights, rowsOf) ← addRows f f.counter.walk #[] (Array.replicate literals [])
  let rows := weights.size
  return {
    determinism, literalVariables, scope := f.scope, firsts := f.firsts.toArray
    dims := f.dims.toArray, rowsOf, weights
    missing := Array.replicate rows f.scope.length
    resolvedBy := Array.replicate rows 0, pending := rows, valuesLeft := f.dims.toArray
    chosen := Array.replicate f.scope.length false
    constrained := Array.replicate literals false, history := [] }

/-- The position in the table of the variable of a literal, if the table has it. -/
def position? (r : Rows) (l : Literal) : Option Nat := do
  let v ← r.literalVariables[l.index]?
  let last ← r.scope.reverse.findIdx? (· == v)
  return r.scope.length - 1 - last

/-- The negations of the literals of a variable that have not been conditioned on. -/
def excluded (r : Rows) (v : Nat) : Outcome (List Literal) := do
  let first := r.firsts.getD v 0
  let free ← (List.range (r.dims.getD v 0)).filterM fun i =>
    return !(← fetch r.constrained (first + i))
  free.mapM fun i => return (← Literal.of (first + i : Nat)).neg

/-- Impose a literal on the variable at a position: what is left for the variable, and the entry
for it. -/
def impose (r : Rows) (l : Literal) (v : Nat) : Outcome (Cofactor × List Literal × Rows) := do
  let r := { r with constrained := r.constrained.setIfInBounds l.index true }
  if l.isNegative then
    let left ← minus (r.valuesLeft.getD v 0) 1
    let found : Cofactor := if left == 0 then .unsatisfiable else .unsatisfied
    return (found, [l], { r with valuesLeft := r.valuesLeft.setIfInBounds v left })
  else
    return (.satisfiable, l :: (← r.excluded v), { r with chosen := r.chosen.setIfInBounds v true })

/-- What a condition has found and collected so far. -/
structure Findings where
  found : Cofactor
  weights : Weights

/-- Resolve a row by a literal. -/
def resolve (r : Rows) (row : Nat) (l : Literal) : Rows :=
  { r with resolvedBy := r.resolvedBy.setIfInBounds row l.value, pending := r.pending - 1 }

/-- Let a literal that does not hold kill a row. -/
def kill (l : Literal) (row : Nat) (r : Rows) : Rows :=
  if r.resolvedBy.getD row 0 == 0 then r.resolve row l else r

/-- Let a literal that holds bring a row closer to completion. -/
def advance (l : Literal) (row : Nat) (r : Rows) (s : Findings) : Outcome (Rows × Findings) := do
  if r.resolvedBy.getD row 0 != 0 then return (r, s)
  let left ← minus (r.missing.getD row 0) 1
  let r := { r with missing := r.missing.setIfInBounds row left }
  if 0 < left then return (r, s)
  let r := r.resolve row l
  let w := r.weights.getD row 0
  if r.determinism && w == 0 then return (r, { s with found := s.found.combine .unsatisfiable })
  if r.determinism && w == 1 then return (r, s)
  return (r, { s with weights := s.weights ++ [w] })

/-- Propagate a literal of an entry to rows that have it. -/
def propagate (l : Literal) : List Nat → Rows → Findings → Outcome (Rows × Findings)
  | [], r, s => .ok (r, s)
  | row :: rows, r, s => do
      if l.isNegative then propagate l rows (kill l row r) s
      else
        let (r, s) ← advance l row r s
        propagate l rows r s

/-- Propagate the literals of an entry. -/
def propagateAll : List Literal → Rows → Findings → Outcome (Rows × Findings)
  | [], r, s => .ok (r, s)
  | l :: ls, r, s => do
      let (r, s) ← propagate l (r.rowsOf.getD l.index []) r s
      propagateAll ls r s

/-- Condition on a literal: what is left, and the weights of the rows that it completes. -/
def condition (r : Rows) (l : Literal) : Outcome (Cofactor × Weights × Rows) := do
  match r.position? l with
  | none => return (.redundant, [], r)
  | some v =>
      if r.chosen.getD v false then return (.redundant, [], r)
      let (found, entry, r) ← r.impose l v
      let (r, s) ← propagateAll entry { r with history := entry :: r.history } ⟨found, []⟩
      let rest : Cofactor := if r.pending == 0 then .satisfiable else .unsatisfied
      return (s.found.combine rest, s.weights.mergeSort, r)

/-- Take back what a literal of an entry did to a row. -/
def restore (l : Literal) (row : Nat) (r : Rows) : Rows :=
  let resolved := r.resolvedBy.getD row 0
  let more := (r.missing.getD row 0) + 1
  if l.isNegative then
    if resolved == l.value then
      { r with resolvedBy := r.resolvedBy.setIfInBounds row 0, pending := r.pending + 1 }
    else r
  else if resolved == l.value && r.missing.getD row 0 == 0 then
    { r with
      resolvedBy := r.resolvedBy.setIfInBounds row 0, pending := r.pending + 1
      missing := r.missing.setIfInBounds row more }
  else if resolved == 0 then { r with missing := r.missing.setIfInBounds row more }
  else r

/-- Take back an imposed literal. -/
def release (r : Rows) (l : Literal) : Rows :=
  let r := { r with constrained := r.constrained.setIfInBounds l.index false }
  match r.position? l with
  | none => r
  | some v =>
      if l.isNegative then { r with valuesLeft := r.valuesLeft.modify v (· + 1) }
      else { r with chosen := r.chosen.setIfInBounds v false }

/-- Take back the last entry. -/
def undo (r : Rows) : Rows :=
  match r.history with
  | [] => r
  | entry :: history =>
      let r := (entry.head?).elim { r with history } fun l => release { r with history } l
      entry.reverse.foldl
        (fun r l => (r.rowsOf.getD l.index []).foldl (fun r row => restore l row r) r) r

/-- The engine. -/
def engine : Engine Rows where
  condition r l _ holds := Action.lift (r.condition (if holds then l else l.neg))
  undo := undo
  trivial _ := .ok Handle.true'
  cached _ := Handle.false'
  record _ _ := pure ()

end Rows

/-- The diagram of a table along an ordering. The caller holds a reference to the root. -/
def solve (r : Rows) (ordering : List Literal) (collapse expired : Bool) : Action Handle :=
  build Rows.engine r ordering collapse expired

end BayesCircuit.Decision
