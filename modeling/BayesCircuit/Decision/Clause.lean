import BayesCircuit.Decision.Domain
import BayesCircuit.Decision.Manager

/-!
# Table rows as diagrams

A row of a table becomes the function that is the weight of the row where all its literals hold and
one elsewhere. The product of all rows is the table. Every clause tests the domains of its variables
completely.
-/

namespace BayesCircuit.Decision

/-- The part of an ordering up to the last literal of a row. -/
def upToLast (row : List Literal) (ordering : List Literal) : List Literal :=
  (ordering.reverse.dropWhile fun l => !row.contains l).reverse

/-- Condition on the literals of an ordering, on those of a row positively and on the others
negatively, and keep what was found. -/
def conditionAll (row : List Literal) :
    DomainClosure → List Literal → Outcome (List (Literal × Cofactor) × DomainClosure)
  | d, [] => .ok ([], d)
  | d, l :: ls => do
      let (found, d) ← d.condition (if row.contains l then l else l.neg)
      let (rest, d) ← conditionAll row d ls
      return ((l, found) :: rest, d)

/-- The low child for a literal of a row: `false'` if no other value is possible. -/
def lowOf (l : Literal) (d : DomainClosure) : Outcome (Handle × DomainClosure) := do
  let d ← d.undo l
  let (found, d) ← d.condition l.neg
  return (if found == .unsatisfiable then Handle.false' else Handle.true', ← d.undo l.neg)

/-- The high child and the weights at the last literal of a row. -/
def lastHigh (w : Weight) (determinism : Bool) : Handle × Weights :=
  if determinism && w == 0 then (Handle.false', [])
  else if determinism && w == 1 then (Handle.true', [])
  else (Handle.true', [w])

/-- Put nodes on top of a root, for literals in reverse order. With `last`, the first of them is
the last literal of the row. -/
def rowNodes (row : List Literal) (w : Weight) (determinism : Bool) :
    Bool → List (Literal × Cofactor) → Handle → DomainClosure → Action (Handle × DomainClosure)
  | _, [], root, d => return (root, d)
  | last, (l, found) :: rest, root, d => do
      if row.contains l then
        let (low, d) ← Action.lift (lowOf l d)
        let (high, weights) := if last then lastHigh w determinism else (root, [])
        let h ← makeNode l high low weights
        rowNodes row w determinism false rest h d
      else if found != .redundant then
        let d ← Action.lift (d.undo l.neg)
        let h ← makeNode l Handle.true' root []
        rowNodes row w determinism false rest h d
      else rowNodes row w determinism false rest root d

/-- The diagram of a row with one positive literal for each variable. With `determinism`, the weight
zero makes the matching path end in `false'` and the weight one is left out. -/
def clause (row : List Literal) (w : Weight) (ordering : List Literal) (d : DomainClosure)
    (determinism : Bool) : Action (Handle × DomainClosure) := do
  match upToLast row ordering with
  | [] => return (Handle.true', d)
  | path => do
      let (found, d) ← Action.lift (conditionAll row d path)
      let (root, d) ← rowNodes row w determinism true found.reverse Handle.true' d
      reference root
      return (root, d)

/-- The literals of a row of a factor. -/
def rowLiterals (f : Factor) (c : Counter) : Outcome (List Literal) :=
  (f.firsts.zip c.digits).mapM fun (first, digit) => Literal.of (first + digit : Nat)

/-- The diagrams of the rows that counters show. -/
def clausesOf (f : Factor) (ordering : List Literal) (determinism : Bool) :
    List Counter → DomainClosure → Action (List Handle)
  | [], _ => return []
  | c :: cs, d => do
      let row ← Action.lift (rowLiterals f c)
      let w ← Action.lift (fetch f.weights c.value)
      let (h, d) ← clause row w ordering d determinism
      return h :: (← clausesOf f ordering determinism cs d)

/-- The diagrams of all rows of a factor. -/
def clauses (f : Factor) (ordering : List Literal) (d : DomainClosure) (determinism : Bool) :
    Action (List Handle) :=
  clausesOf f ordering determinism f.counter.walk d

end BayesCircuit.Decision
