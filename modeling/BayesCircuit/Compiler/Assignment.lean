import BayesCircuit.Compiler.Settings
import BayesCircuit.Decimal.Reader
import BayesCircuit.Text.Blank

/-!
# Assignments to settings

A setting is chosen by a text `key=value`. A value that is refused leaves the setting as it was,
with one exception: a queue capacity of zero is reported and stays.
-/

namespace BayesCircuit.Compiler.Settings

/-- A change of the settings. What was done before a failure stays done. -/
abbrev Change := EStateM Failure Settings

/-- Use an outcome in a change. -/
def liftOutcome {α : Type} : Outcome α → Change α
  | .ok a => pure a
  | .error f => throw f

/-- Refuse an option. -/
def refuse {α : Type} (reason : String) : Outcome α := fail (.parse "-o" 0 reason)

/-- Refuse a value that is no number. -/
def notANumber {α : Type} (key value : String) : Outcome α :=
  refuse ("argument to option '" ++ key ++ "' (" ++ value ++ ") is not a number")

/-- What a value spells, if it is a number. -/
def number {α : Type} (read : String → Option α) (key value : String) : Outcome α :=
  match read (Text.trim value) with
  | some x => .ok x
  | none => notANumber key value

/-- A number of a machine word. -/
def count (key value : String) : Outcome Nat := number Text.u64? key value

def real (key value : String) : Outcome Float :=
  return (← number Decimal.read? key value).toFloat

/-- Yes or no. -/
def flag (key value : String) : Outcome Bool :=
  match Text.trim value with
  | "1" | "yes" | "true" => .ok true
  | "0" | "no" | "false" => .ok false
  | _ => notANumber key value

/-- A number of seconds that is not negative, in whole nanoseconds. -/
def nanoseconds (x : Float) : Option Nat :=
  if x < 0.0 then none
  else (Decimal.Binary64.decode? x.toBits).map fun b =>
    Decimal.roundHalfEven (b.significand * second * Nat.pow 2 b.exponent.toNat)
      (Nat.pow 2 (-b.exponent).toNat)

/-- A duration given in seconds. -/
def duration (key value : String) : Outcome Nat := do
  match nanoseconds (← real key value) with
  | none => refuse ("option '" ++ key ++ "' must be a non-negative number of seconds")
  | some n =>
      ensure .overflow (n < wordSize * second)
      return n

/-- The most bits that sizes of tables may have. -/
def maxBits : Nat := 31

/-- A number of bits. -/
def bits (key value : String) : Outcome Nat := do
  let b ← count key value
  if maxBits < b then
    refuse ("option '" ++ key ++ s!"' takes at most {maxBits} bits, got {b}")
  return b

/-- The number of bits that it takes to count up to `n`. -/
def bitsFor (n : Nat) : Nat := if n ≤ 1 then 0 else Nat.log2 (n - 1) + 1

/-- The bits for a number of buckets. The next power of two has to fit a machine word. -/
def bucketBits (key value : String) : Outcome Nat := do
  let b := bitsFor (← count key value)
  ensure .overflow (b < 64)
  return min b maxBits

/-- What a text names, or what is wrong with it. -/
def named {α : Type} (found : Except String α) : Outcome α :=
  match found with
  | .ok a => .ok a
  | .error reason => refuse reason

/-- The factor by which temperatures fall. -/
def dampFactor (key value : String) : Outcome Float := do
  let x ← real key value
  if !(1.0 < x) then refuse ("option '" ++ key ++ "' must be greater than 1")
  return x

/-- What a task is. -/
def taskGrain (key value : String) : Outcome Parallel.Grain := do
  let n ← count key value
  match Parallel.Grain.ofNumber? n with
  | some g => return g
  | none => refuse s!"parallel level must be 1, 2 or 3, got {n}"

/-- A part of the memory. -/
def share (key value : String) : Outcome Float := do
  let x ← real key value
  if !(0.0 < x && x ≤ 1.0) then
    refuse ("argument to option '" ++ key ++ "' (" ++ value ++ ") must be in range (0, 1]")
  return x

/-- A number of megabytes, in bytes. -/
def megabytes (key value : String) : Outcome Nat :=
  return min ((← count key value) * Nat.pow 2 20) saturated

/-- Change the settings by a value that was read. -/
def store {α : Type} (read : String → String → Outcome α) (key value : String)
    (change : Settings → α → Settings) : Change Unit := do
  let x ← liftOutcome (read key value)
  modify fun s => change s x

/-- Change the parameters of annealing by a value that was read. -/
def storeAnnealing {α : Type} (read : String → String → Outcome α) (key value : String)
    (change : Ordering.Annealing → α → Ordering.Annealing) : Change Unit :=
  store read key value fun s x => { s with annealing := change s.annealing x }

/-- Choose a parameter of annealing. -/
def setAnnealing (key value : String) : Change Unit :=
  match key with
  | "sa_tries" => storeAnnealing count key value fun a x => { a with tries := x }
  | "sa_iterations" => storeAnnealing count key value fun a x => { a with iterations := x }
  | "sa_step_size" => storeAnnealing real key value fun a x => { a with stepSize := x }
  | "sa_k" => storeAnnealing real key value fun a x => { a with k := x }
  | "sa_temp_init" => storeAnnealing real key value fun a x => { a with tInitial := x }
  | "sa_temp_min" => storeAnnealing real key value fun a x => { a with tMin := x }
  | "sa_damp_factor" => storeAnnealing dampFactor key value fun a x => { a with damp := x }
  | "sa_seed" => storeAnnealing count key value fun a x => { a with seed := x }
  | "sa_runs" => storeAnnealing count key value fun a x => { a with runs := x }
  | "sa_parallel" => storeAnnealing flag key value fun a x => { a with parallel := x }
  | _ => liftOutcome (refuse ("unknown option '" ++ key ++ "'"))

/-- Choose the capacity of queues. -/
def setCapacity (key value : String) : Change Unit := do
  let n ← liftOutcome (count key value)
  modify fun s => { s with queueCapacity := n }
  if n == 0 then liftOutcome (refuse ("option '" ++ key ++ "' must be positive"))

/-- Choose a setting. -/
def set (key value : String) : Change Unit :=
  match key with
  | "collapse" => store flag key value fun s x => { s with collapse := x }
  | "determinism" => store flag key value fun s x => { s with determinism := x }
  | "structure" | "encode_structure" => store flag key value fun s x => { s with sharing := x }
  | "use_probability" => store flag key value fun s x => { s with probabilities := x }
  | "best_composition_ordering" =>
      store flag key value fun s x => { s with cheapestComposition := x }
  | "score" => store flag key value fun s x => { s with showScore := x }
  | "no_compile" => store flag key value fun s x => { s with orderOnly := x }
  | "order" | "ordering" =>
      store (fun _ v => named (Ordering.Strategy.parse v)) key value
        fun s x => { s with ordering := some x }
  | "ordering_time" => store duration key value fun s x => { s with orderingTime := x }
  | "lookahead" => store count key value fun s x => { s with lookahead := x }
  | "workers" => store count key value fun s x => { s with workers := x }
  | "queue" =>
      store (fun _ v => named (Pool.QueueKind.parse v)) key value
        fun s x => { s with queue := x }
  | "queue_capacity" => setCapacity key value
  | "parallel_level" => store taskGrain key value fun s x => { s with grain := x }
  | "cache_bits" => store bits key value fun s x => { s with memoBits := x }
  | "table_bits" => store bits key value fun s x => { s with tableBits := x }
  | "buckets" => store bucketBits key value fun s x => { s with memoBits := x }
  | "memory" => store megabytes key value fun s x => { s with memoryBudget := x }
  | "resources" => store share key value fun s x => { s with memoryShare := x }
  | "time" =>
      store duration key value
        fun s x => { s with timeLimit := if x == 0 then none else some x }
  | _ => setAnnealing key value

/-- Carry out an assignment. -/
def assign (assignment : String) : Change Unit :=
  match Text.splitOnce? '=' assignment with
  | some (key, value) => set (Text.trim key) value
  | none => liftOutcome (refuse ("expecting an assignment, got '" ++ assignment ++ "'"))

end BayesCircuit.Compiler.Settings
