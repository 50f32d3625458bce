import BayesCircuit.Failure

/-!
# Mixed-radix counters

A counter is a row of wheels. The first wheel is the least significant one, so a row with digits
`d₀, d₁, …` and radices `r₀, r₁, …` shows the number `d₀ + r₀ * (d₁ + r₁ * …)`. Counters
enumerate the contexts of a layer and address the flat table of its nodes.

* `increment` moves to the next number; it has no result at the last one.
* `incrementFree` moves only the wheels that are not held.
* `reversed` reads the row with the *last* wheel as the least significant one, which is the order
  of rows in conditional probability tables.
* A `Projection` lists for each position of a target row the source position that it copies.
-/

namespace BayesCircuit

/-- A digit and the number of digits it ranges over. -/
structure Wheel where
  digit : Nat
  radix : Nat
  deriving Repr, DecidableEq

/-- A row of wheels, the least significant one first. -/
structure Counter where
  wheels : List Wheel
  deriving Repr, DecidableEq

/-- For each target position the source position of the same variable, if there is one. -/
abbrev Projection := List (Option Nat)

namespace Counter

/-- All digits zero. -/
def zero (radices : List Nat) : Counter :=
  ⟨radices.map fun r => ⟨0, r⟩⟩

/-- All digits zero, with the domain sizes of the given variables as radices. -/
def ofScope (dims : Array Nat) (scope : List Nat) : Outcome Counter := do
  return zero (← scope.mapM (fetch dims))

def digits (c : Counter) : List Nat := c.wheels.map (·.digit)

def radices (c : Counter) : List Nat := c.wheels.map (·.radix)

def size (c : Counter) : Nat := c.wheels.length

/-- The row with the last wheel first. -/
def reversed (c : Counter) : Counter := ⟨c.wheels.reverse⟩

/-- The same row with all digits zero. -/
def reset (c : Counter) : Counter := ⟨c.wheels.map fun w => { w with digit := 0 }⟩

/-- The same radices with other digits; positions without a new digit keep theirs. -/
def withDigits (c : Counter) (digits : List Nat) : Counter :=
  ⟨c.wheels.zipWith (fun w d => { w with digit := d }) digits ++ c.wheels.drop digits.length⟩

/-- The product of the radices: the number of states. -/
def states (c : Counter) : Nat := productOf c.radices

/-! ## Counting -/

/-- The row that shows the next number. -/
def incrementWheels : List Wheel → Option (List Wheel)
  | [] => none
  | w :: ws =>
      if w.digit + 1 < w.radix then some ({ w with digit := w.digit + 1 } :: ws)
      else (incrementWheels ws).map ({ w with digit := 0 } :: ·)

/-- The counter that shows the next number; the last number has none. -/
def increment (c : Counter) : Option Counter :=
  (incrementWheels c.wheels).map Counter.mk

/-- Like `incrementWheels`, but held wheels stay as they are. -/
def incrementFreeWheels : List Bool → List Wheel → Option (List Wheel)
  | held :: hs, w :: ws =>
      if held then (incrementFreeWheels hs ws).map (w :: ·)
      else if w.digit + 1 < w.radix then some ({ w with digit := w.digit + 1 } :: ws)
      else (incrementFreeWheels hs ws).map ({ w with digit := 0 } :: ·)
  | _, _ => none

/-- The next state of the wheels that are not held. -/
def incrementFree (held : List Bool) (c : Counter) : Option Counter :=
  (incrementFreeWheels held c.wheels).map Counter.mk

/-- The next number when the last wheel is the least significant one. -/
def incrementLast (c : Counter) : Option Counter :=
  c.reversed.increment.map reversed

/-- The number of steps that can be taken from a row: the distance to the row of full wheels,
where each wheel that is beyond its last digit counts as full. -/
def remaining : List Wheel → Nat
  | [] => 0
  | w :: ws => (w.radix - 1 - w.digit) + max w.radix 1 * remaining ws

/-- A row and up to `fuel` rows after it. -/
def walkFrom : Nat → Counter → List Counter
  | 0, c => [c]
  | fuel + 1, c =>
      match c.increment with
      | none => [c]
      | some next => c :: walkFrom fuel next

/-- A row and all rows after it. -/
def walk (c : Counter) : List Counter := walkFrom (remaining c.wheels) c

/-! ## Numbers -/

/-- The number that a row shows. -/
def wheelsValue : List Wheel → Nat
  | [] => 0
  | w :: ws => w.digit + w.radix * wheelsValue ws

/-- The number that a counter shows. -/
def value (c : Counter) : Nat := wheelsValue c.wheels

/-- The row with the given radices that shows a number; what exceeds the row is dropped. -/
def wheelsOf : List Nat → Nat → List Wheel
  | [], _ => []
  | r :: rs, n => ⟨n % r, r⟩ :: wheelsOf rs (n / r)

/-- The counter with the same radices that shows a number. -/
def withValue (c : Counter) (n : Nat) : Counter := ⟨wheelsOf c.radices n⟩

/-- The number shown when the first wheel is the most significant one. -/
def valueLast (c : Counter) : Nat := c.reversed.value

/-- The counter that shows a number with its first wheel the most significant one. -/
def withValueLast (c : Counter) (n : Nat) : Counter := (c.reversed.withValue n).reversed

/-- What a step of each wheel adds to the number; `step` is what the first one adds. -/
def stepSizesFrom (step : Nat) : List Nat → List Nat
  | [] => []
  | r :: rs => step :: stepSizesFrom (step * r) rs

/-- What a step of each wheel adds to the number. -/
def stepSizes (c : Counter) : List Nat := stepSizesFrom 1 c.radices

/-- The number of states of the wheels that are not held. -/
def freeStates (held : List Bool) (c : Counter) : Nat :=
  productOf ((c.radices.zip held).filter (fun p => !p.2) |>.map (·.1))

/-! ## Projections -/

/-- The positions in a sorted list of variables, from `i` on, of the members of another. -/
def projectionFrom (i : Nat) : List Nat → List Nat → Projection
  | _, [] => []
  | [], _ :: ts => none :: projectionFrom i [] ts
  | f :: fs, t :: ts =>
      if f < t then projectionFrom (i + 1) fs (t :: ts)
      else if t < f then none :: projectionFrom i (f :: fs) ts
      else some i :: projectionFrom (i + 1) fs ts
termination_by fs ts => fs.length + ts.length

/-- The projection between two sorted lists of variables, found in one pass over both. -/
def projection (source target : List Nat) : Projection := projectionFrom 0 source target

/-- The projection between two lists of variables in any order. -/
def projectionUnsorted (source target : List Nat) : Projection :=
  target.map fun v => source.findIdx? (· == v)

/-- The positions that a projection fills. -/
def held (p : Projection) : List Bool := p.map Option.isSome

/-- Copy digits of another counter through a projection; positions without a source become
zero. -/
def project (c : Counter) (source : Counter) (p : Projection) : Counter :=
  let digits := source.digits.toArray
  c.withDigits (p.map fun i? => (i?.bind (digits[·]?)).getD 0)

/-! ## Requirements

The numbers of a counter are kept in machine words and its digits in halves of them. The functions
below check this, and the other requirements of the ones above, before they answer. -/

/-- All products of initial parts of a list of radices. -/
def products (step : Nat) : List Nat → List Nat
  | [] => []
  | r :: rs => step * r :: products (step * r) rs

/-- The number of states, if it can be computed in machine words from the first wheel on. -/
def states? (c : Counter) : Outcome Nat := do
  ensure .overflow ((products 1 c.radices).all (· < wordSize))
  return c.states

/-- The number of states of the free wheels, with the same requirement. -/
def freeStates? (held : List Bool) (c : Counter) : Outcome Nat := do
  let free := (c.radices.zip held).filter (fun p => !p.2) |>.map (·.1)
  ensure .overflow ((products 1 free).all (· < wordSize))
  return c.freeStates held

/-- The step sizes, with the same requirement. -/
def stepSizes? (c : Counter) : Outcome (List Nat) := do
  ensure .overflow ((products 1 c.radices).all (· < wordSize))
  return c.stepSizes

/-- Whether the numbers shown by a row and all its final parts fit a machine word. -/
def fits : List Wheel → Bool
  | [] => true
  | w :: ws => fits ws && wheelsValue (w :: ws) < wordSize

/-- The number that a counter shows, if it can be computed in machine words. -/
def value? (c : Counter) : Outcome Nat := do
  ensure .overflow (fits c.wheels)
  return c.value

/-- Show a number below the number of states. -/
def withValue? (c : Counter) (n : Nat) : Outcome Counter := do
  require (n < (← c.states?))
  return c.withValue n

/-- Show a number with the first wheel the most significant one; no radix may be zero. -/
def withValueLast? (c : Counter) (n : Nat) : Outcome Counter := do
  ensure .divisionByZero (c.radices.all (· != 0))
  return c.withValueLast n

/-- Whether a wheel shows its last digit, or one beyond it. -/
def isFull (w : Wheel) : Bool := w.radix ≤ w.digit + 1

/-- Fail if the digit after that of a wheel does not fit. To find the wheel that moves, all full
wheels before it are looked at. -/
def checkDigits (ws : List Wheel) : Outcome Unit :=
  ensure .overflow ((ws.takeWhile isFull).all (·.digit + 1 < halfWordSize))

/-- The next number, if the digits that are looked at allow it. -/
def increment? (c : Counter) : Outcome (Option Counter) := do
  checkDigits c.wheels
  return c.increment

/-- The next number with the last wheel as the least significant one, with the same requirement. -/
def incrementLast? (c : Counter) : Outcome (Option Counter) := do
  checkDigits c.wheels.reverse
  return c.incrementLast

/-- Move the wheels that are not held, of which the caller says for each whether it is. -/
def incrementFree? (held : List Bool) (c : Counter) : Outcome (Option Counter) := do
  require (held.length == c.size)
  checkDigits ((c.wheels.zip held).filter (fun p => !p.2) |>.map (·.1))
  return c.incrementFree held

/-- Copy digits through a projection that fits both counters. -/
def project? (c : Counter) (source : Counter) (p : Projection) : Outcome Counter := do
  require (p.length == c.size)
  ensure .outOfRange (p.all fun i? => i?.all (· < source.size))
  return c.project source p

/-- Write one digit, whatever the radix of its wheel. -/
def put? (c : Counter) (i digit : Nat) : Outcome Counter := do
  ensure .outOfRange (i < c.size)
  return ⟨c.wheels.modify i fun w => { w with digit }⟩

/-- The digit at a position. -/
def digit? (c : Counter) (i : Nat) : Outcome Nat :=
  expect .outOfRange c.digits[i]?

/-- Count with `increment` until it has no result; `n` steps have been taken already. -/
def countUpFrom : Nat → Nat → Counter → Nat × Counter
  | 0, n, c => (n, c)
  | fuel + 1, n, c =>
      match c.increment with
      | none => (n, c)
      | some next => countUpFrom fuel (n + 1) next

/-- The number of steps to the last number, and the counter that shows it. -/
def countUp (c : Counter) : Nat × Counter := countUpFrom (remaining c.wheels) 0 c

/-- Count to the last number. At the end, all wheels have been looked at. -/
def countUp? (c : Counter) : Outcome (Nat × Counter) := do
  ensure .overflow (c.digits.all (· + 1 < halfWordSize))
  return c.countUp

end Counter
end BayesCircuit
