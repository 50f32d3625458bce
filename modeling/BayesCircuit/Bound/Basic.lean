import BayesCircuit.Partition

/-!
# Upper bounds on the size of a diagram

The table of every owned variable is a *constraint* over the variable and its parents. Walking
along an ordering, a visited variable is *spanning* while it occurs in a constraint that still has
a variable to come. At each level there are at most as many contexts as the spanning variables
have joint values; this number is the *width* of the level.

| measure     | cost of the level of `v`                     |
|-------------|----------------------------------------------|
| `nodes`     | width                                        |
| `edges`     | width * values of `v`                        |
| `weights`   | width * values of `v` * completed constraints |
| `operators` | width * values of `v` * (completed constraints + 2) |

The bound of an ordering adds the costs of its levels. A `Tally` says in which numbers this is
done: exactly, in machine words or in floating point.
-/

namespace BayesCircuit

open Collection

/-- What a bound counts. -/
inductive Measure where
  | nodes
  | operators
  | weights
  | edges
  deriving DecidableEq, Repr

/-- Arithmetic in which costs are added up; it has no result where a number would not fit. -/
structure Tally (α : Type) where
  zero : α
  one : α
  mul? : α → Nat → Option α
  add? : α → α → Option α

namespace Tally

/-- Natural numbers of any size. -/
def exact : Tally Nat := ⟨0, 1, fun a n => some (a * n), fun a b => some (a + b)⟩

/-- A number that fits a machine word. -/
def word? (n : Nat) : Option Nat := if n < wordSize then some n else none

/-- Natural numbers that fit a machine word. -/
def word : Tally Nat := ⟨0, 1, fun a n => word? (a * n), fun a b => word? (a + b)⟩

/-- Floating-point numbers. -/
def float : Tally Float :=
  ⟨0.0, 1.0, fun a n => some (a * Float.ofNat n), fun a b => some (a + b)⟩

end Tally

/-- The greatest number of a machine word, to which bounds that do not fit are set. -/
def saturated : Nat := wordSize - 1

/-- The constraints of a network or of one of its partitions. -/
structure Bound where
  /-- The domain size of each variable. -/
  dims : Array Nat
  /-- For each variable whether its table is a constraint. -/
  enabled : Array Bool
  /-- The constraints that mention a variable, by the number of their own variable. -/
  constraintsOf : Array (List Nat)
  /-- The variables of a constraint, its own first. -/
  scopes : Array (List Variable)
  /-- The number of variables that an ordering lists. -/
  size : Nat
  /-- The number of table entries of the network. -/
  entries : Nat

namespace Bound

/-- The scopes of the enabled constraints; those of others are empty. -/
def scopesOf (net : Network) (enabled : Array Bool) : Array (List Variable) :=
  net.nodes.mapIdx fun v n => if enabled.getD v false then v :: n.parents else []

/-- For each variable the constraints that mention it, each as often as it does. -/
def invert (scopes : Array (List Variable)) : Array (List Nat) :=
  (Array.range scopes.size).map fun v =>
    scopes.toList.zipIdx.flatMap fun (scope, c) => List.replicate (scope.count v) c

/-- The bound with the given constraints. -/
def ofEnabled (net : Network) (enabled : Array Bool) (size : Nat) : Bound :=
  let scopes := scopesOf net enabled
  { dims := net.dims, enabled, constraintsOf := invert scopes, scopes, size
    entries := net.entryCount }

/-- The bound over all tables of a network. -/
def ofNetwork (net : Network) : Bound :=
  ofEnabled net (Array.replicate net.size true) net.size

/-- The bound over the tables that a partition owns. -/
def ofPartition (net : Network) (p : Partition) : Bound :=
  ofEnabled net ((Array.range net.size).map p.owned.contains) p.size

/-- The domain size of a variable. -/
def dim (b : Bound) (v : Variable) : Nat := b.dims.getD v 0

end Bound

/-- Where a walk along an ordering stands. -/
structure Elimination where
  /-- The number of variables of each constraint that have not been visited. -/
  unvisited : Array Nat
  /-- The number of constraints of each variable that have not been completed. -/
  incomplete : Array Nat
  /-- The spanning variables, ascending. -/
  spanning : List Variable

namespace Elimination

/-- The start of a walk. -/
def start (b : Bound) : Elimination :=
  ⟨b.scopes.map (·.length), b.constraintsOf.map (·.length), []⟩

/-- Complete a constraint with the given variables. A variable without incomplete constraints
stops being spanning. -/
def complete (e : Elimination) : List Variable → Elimination
  | [] => e
  | x :: xs =>
      let left := e.incomplete.getD x 0 - 1
      let incomplete := e.incomplete.setIfInBounds x left
      let spanning := if left == 0 then Ascending.erase x e.spanning else e.spanning
      complete { e with incomplete, spanning } xs

/-- Visit the given constraints of a variable: the state, whether one of them still has a variable
to come, and how many were completed. -/
def visitConstraints (b : Bound) : List Nat → Elimination → Bool → Nat → Elimination × Bool × Nat
  | [], e, open?, done => (e, open?, done)
  | c :: cs, e, open?, done =>
      let left := e.unvisited.getD c 0 - 1
      let e := { e with unvisited := e.unvisited.setIfInBounds c left }
      if left == 0 then visitConstraints b cs (e.complete (b.scopes.getD c [])) open? (done + 1)
      else visitConstraints b cs e true done

/-- Visit a variable: the number of constraints that it completes, and the state. -/
def visit (b : Bound) (e : Elimination) (v : Variable) : Nat × Elimination :=
  let (e, open?, done) := visitConstraints b (b.constraintsOf.getD v []) e false 0
  (done, if open? then { e with spanning := Ascending.insert v e.spanning } else e)

/-- Whether a variable may be visited: no constraint has more variables visited than it has. -/
def admits (b : Bound) (e : Elimination) (v : Variable) : Bool :=
  let cs := b.constraintsOf.getD v []
  v < b.dims.size && cs.all fun c => cs.count c ≤ e.unvisited.getD c 0

/-- Visit a variable that may be visited. -/
def visit? (b : Bound) (e : Elimination) (v : Variable) : Outcome (Nat × Elimination) := do
  ensure .outOfRange (v < b.dims.size)
  ensure .overflow (e.admits b v)
  return e.visit b v

variable {α : Type}

/-- The product of domain sizes. -/
@[specialize]
def widthFrom (tally : Tally α) (b : Bound) : List Variable → α → Option α
  | [], acc => some acc
  | s :: ss, acc =>
      match tally.mul? acc (b.dim s) with
      | none => none
      | some acc => widthFrom tally b ss acc

/-- The width of the next level. -/
@[inline]
def width (tally : Tally α) (b : Bound) (e : Elimination) : Option α :=
  widthFrom tally b e.spanning tally.one

/-- The cost of the level of a variable, given its width and the number of completed
constraints. -/
@[inline]
def levelCost (tally : Tally α) (measure : Measure) (dim : Nat) (completed : Nat) (width : α) :
    Option α :=
  match measure with
  | .nodes => some width
  | .edges => tally.mul? width dim
  | .weights => (tally.mul? width dim).bind (tally.mul? · completed)
  | .operators => (tally.mul? width dim).bind (tally.mul? · (completed + 2))

/-- Visit a variable and find the cost of its level. Where the width does not fit, the variable is
not visited. -/
@[specialize]
def eliminate (tally : Tally α) (measure : Measure) (b : Bound) (e : Elimination) (v : Variable) :
    Option α × Elimination :=
  match e.width tally b with
  | none => (none, e)
  | some w =>
      let (completed, e) := e.visit b v
      (levelCost tally measure (b.dim v) completed w, e)

/-- Find the cost of the level of a variable, which must be one that may be visited if the width
fits. -/
def eliminate? (tally : Tally α) (measure : Measure) (b : Bound) (e : Elimination)
    (v : Variable) : Outcome (Option α × Elimination) := do
  if (e.width tally b).isSome then discard (e.visit? b v)
  return e.eliminate tally measure b v

/-- The sum of the logarithms of the spanning domains. -/
def logWidth (b : Bound) (log : Float → Float) (e : Elimination) : Float :=
  e.spanning.foldl (fun sum s => sum + log (Float.ofNat (b.dim s))) 0.0

end Elimination

namespace Bound

variable {α : Type}

/-- Add the costs of the levels of an ordering. -/
@[specialize]
def sumFrom (tally : Tally α) (measure : Measure) (b : Bound) :
    List Variable → Elimination → α → Option α
  | [], _, acc => some acc
  | v :: vs, e, acc =>
      match e.eliminate tally measure b v with
      | (none, _) => none
      | (some cost, e) =>
          match tally.add? acc cost with
          | none => none
          | some acc => sumFrom tally measure b vs e acc

/-- The bound of an ordering in the given arithmetic. -/
@[inline]
def sum? (tally : Tally α) (measure : Measure) (b : Bound) (ordering : List Variable) :
    Option α :=
  sumFrom tally measure b ordering (.start b) tally.zero

/-- The bound in machine words, if it fits. -/
def checked? (b : Bound) (measure : Measure) (ordering : List Variable) : Option Nat :=
  b.sum? .word measure ordering

/-- The bound in machine words, saturated where it does not fit. -/
def compute (b : Bound) (measure : Measure) (ordering : List Variable) : Nat :=
  (b.checked? measure ordering).getD saturated

/-- The bound as a natural number. -/
def exact (b : Bound) (measure : Measure) (ordering : List Variable) : Nat :=
  (b.sum? .exact measure ordering).getD 0

/-- Add the logarithms of the widths of the levels of an ordering. -/
def scoreFrom (b : Bound) (log : Float → Float) : List Variable → Elimination → Float → Float
  | [], _, acc => acc
  | v :: vs, e, acc => scoreFrom b log vs (e.visit b v).2 (acc + e.logWidth b log)

/-- The sum of the logarithms of the widths of all levels. The logarithm is a parameter, because
there is no definition of it that a proof could open. -/
def score (b : Bound) (ordering : List Variable) (log : Float → Float := Float.log) : Float :=
  scoreFrom b log ordering (.start b) 0.0

/-- The bound on weights in floating point, relative to the number of table entries. -/
def ratio (b : Bound) (ordering : List Variable) : Float :=
  (b.sum? .float .weights ordering).getD 0.0 / Float.ofNat (max b.entries 1)

/-- Whether an ordering can be walked along from a state. -/
def admitsFrom (b : Bound) : List Variable → Elimination → Bool
  | [], _ => true
  | v :: vs, e => e.admits b v && admitsFrom b vs (e.visit b v).2

/-- Check that an ordering can be walked along. -/
def check (b : Bound) (ordering : List Variable) : Outcome Unit := do
  require (ordering.length ≤ b.dims.size)
  ensure .outOfRange (ordering.all (· < b.dims.size))
  ensure .overflow (b.admitsFrom ordering (.start b))

end Bound
end BayesCircuit
