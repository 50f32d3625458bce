/-!
# Why an operation has no answer

An operation of the compiler ends in one of three ways: with a value, with an `Error` that its
caller is told about, or with a `Fault`, which says that a precondition of the operation was
broken. `Outcome` is the type of such computations. The wording of an error is fixed in one
place, `Error.message`.
-/

namespace BayesCircuit

/-- The causes that a caller is told about. -/
inductive Error where
  /-- Reading or writing the file at `path` failed for `reason`. -/
  | io (path reason : String)
  /-- The text `what` is malformed at `line`; line zero stands for the whole text. -/
  | parse (what : String) (line : Nat) (reason : String)
  /-- An ordering does not list the variables of its partition once each. -/
  | invalidOrdering (reason : String)
  /-- Partitions overlap, miss variables or disagree with an ordering. -/
  | invalidPartition (reason : String)
  /-- A layer would hold more than the `bound` entries reserved for it. -/
  | boundExceeded (layer bound : Nat)
  /-- The time limit was reached. -/
  | timeout
  /-- The requested combination of options cannot be carried out. -/
  | unsupported (reason : String)
  /-- An invariant of the library was violated; `dump` names a file that holds the context. -/
  | internal (reason : String) (dump : Option String)
  deriving Repr, DecidableEq

namespace Error

/-- The text shown for an error. -/
def message : Error → String
  | io path reason => path ++ ": " ++ reason
  | parse what 0 reason => what ++ ": " ++ reason
  | parse what (line + 1) reason => what ++ ":" ++ toString (line + 1) ++ ": " ++ reason
  | invalidOrdering reason => "invalid ordering: " ++ reason
  | invalidPartition reason => "invalid partition: " ++ reason
  | boundExceeded layer bound =>
      "layer " ++ toString layer ++ " exceeds its bound of " ++ toString bound ++ " entries"
  | timeout => "time limit reached"
  | unsupported reason => "unsupported: " ++ reason
  | internal reason none => "internal error: " ++ reason
  | internal reason (some path) =>
      "internal error: " ++ reason ++ " (context written to " ++ path ++ ")"

/-- The text of the failure underneath, which only input and output errors have. -/
def cause? : Error → Option String
  | io _ reason => some reason
  | _ => none

end Error

/-- The preconditions whose violation ends a computation. -/
inductive Fault where
  /-- A position lies outside its list. -/
  | outOfRange
  /-- A count does not fit its machine word, or would become negative. -/
  | overflow
  /-- A division or remainder by zero. -/
  | divisionByZero
  /-- A stated requirement on the arguments does not hold. -/
  | requirement
  deriving Repr, DecidableEq

/-- How a computation can fail. -/
inductive Failure where
  | error (cause : Error)
  | fault (fault : Fault)
  deriving Repr, DecidableEq

/-- A value, an error or a fault. -/
abbrev Outcome (α : Type) := Except Failure α

/-- Fail with an error. -/
def fail {α : Type} (cause : Error) : Outcome α :=
  .error (.error cause)

/-- Fail with a fault. -/
def abort {α : Type} (f : Fault) : Outcome α :=
  .error (.fault f)

/-- Continue only if a condition holds, and report a given fault otherwise. -/
def ensure (f : Fault) (condition : Bool) : Outcome Unit :=
  if condition then .ok () else abort f

/-- Continue only if a requirement on the arguments holds. -/
def require (condition : Bool) : Outcome Unit := ensure .requirement condition

/-- The value that should be there. -/
def expect {α : Type} (f : Fault) (value : Option α) : Outcome α :=
  match value with
  | some a => .ok a
  | none => abort f

/-- The element at a position that should be there. -/
def fetch {α : Type} (xs : Array α) (i : Nat) : Outcome α := expect .outOfRange xs[i]?

/-- The sum of numbers. -/
def sumOf (ns : List Nat) : Nat := ns.foldr (· + ·) 0

/-- The product of numbers. -/
def productOf (ns : List Nat) : Nat := ns.foldr (· * ·) 1

/-- The number of values of a machine word. -/
def wordSize : Nat := Nat.pow 2 64

/-- The number of values of half a machine word, in which variables and weights are counted. -/
def halfWordSize : Nat := Nat.pow 2 32

/-- A count that has to fit a machine word. -/
def word (n : Nat) : Outcome Nat :=
  if n < wordSize then .ok n else abort .overflow

/-- The number of bytes that can be addressed. -/
def addressSpace : Nat := Nat.pow 2 63

/-- Room for a number of entries of some bytes each, which has to fit the address space. -/
def reserve (bytes count : Nat) : Outcome Unit := ensure .overflow (bytes * count < addressSpace)

/-- A difference that must not be negative. -/
def minus (a b : Nat) : Outcome Nat :=
  if b ≤ a then .ok (a - b) else abort .overflow

end BayesCircuit
