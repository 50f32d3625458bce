import BayesCircuit.Bound.Tree
import BayesCircuit.Random.Keystream

/-!
# Simulated annealing over orderings

A step of a walk exchanges two positions of an ordering. At every temperature a walk takes a fixed
number of steps; a step that does not lower the energy is taken back unless a random draw accepts
it. Temperatures fall by a constant factor until they are below the least one. A walk returns the
best ordering that it has met.

Runs start again from the best ordering so far. Walks of one run that go on side by side have
consecutive seeds, and the one of least energy counts. The search is parametric in the source of
draws and in the energies, which only need to be compared.
-/

namespace BayesCircuit.Ordering

open BayesCircuit.Random

/-- The parameters of a search. -/
structure Annealing where
  /-- The number of steps tried at each temperature by other kinds of walks. -/
  tries : Nat
  /-- The number of steps at each temperature. -/
  iterations : Nat
  stepSize : Float
  /-- The factor between temperatures and energies. -/
  k : Float
  tInitial : Float
  /-- What a temperature is divided by to get the next one. -/
  damp : Float
  tMin : Float
  seed : Nat
  /-- The number of runs; zero stands for running until the energy is stable. -/
  runs : Nat
  parallel : Bool

namespace Annealing

/-- The parameters that are used unless others are given. -/
def standard : Annealing where
  tries := 200
  iterations := 100
  stepSize := 1.0
  k := 1.0
  tInitial := 5000.0
  damp := 1.002
  tMin := 0.5
  seed := 0
  runs := 1
  parallel := false

/-- Where random numbers come from. -/
structure Draws (σ : Type) where
  ofSeed : Nat → σ
  /-- A number below a positive bound. -/
  below : Nat → σ → Nat × σ
  /-- A number of the unit interval. -/
  unit : σ → Float × σ

/-- Draws from the key stream. -/
def Draws.keystream : Draws Keystream where
  ofSeed seed := .ofSeed (UInt64.ofNat seed)
  below := Keystream.below
  unit := Keystream.unit

/-- Energies of orderings: how they are found and compared, and with which probability a step from
one energy to another is accepted at a temperature although it does not lower the energy. -/
structure Landscape (ε : Type) where
  energy : List Variable → ε
  /-- What the least energy of all runs is taken to be before the first one. -/
  greatest : ε
  lt : ε → ε → Bool
  le : ε → ε → Bool
  same : ε → ε → Bool
  acceptance : Float → ε → ε → Float

/-- Floating-point energies. -/
def Landscape.ofFloat (p : Annealing) (energy : List Variable → Float) : Landscape Float where
  energy
  greatest := 1.7976931348623157e308
  lt a b := a < b
  le a b := a ≤ b
  same a b := a == b
  acceptance t old new := (-(new - old) / (p.k * t)).exp

/-- The state of a walk: the generator, the ordering with its energy, and the best ordering met
with its energy. -/
structure Walk (σ ε : Type) where
  draws : σ
  ordering : Array Variable
  energy : ε
  best : Array Variable
  bestEnergy : ε

variable {σ ε : Type}

/-- Two different positions below `n`. -/
def positions (d : Draws σ) (n : Nat) (s : σ) : Nat × Nat × σ :=
  let (i, s) := d.below n s
  let (j, s) := d.below (n - 1) s
  (i, if i ≤ j then j + 1 else j, s)

/-- Exchange two elements. -/
def exchange (xs : Array Variable) (i j : Nat) : Array Variable := xs.swapIfInBounds i j

/-- Take a step at a temperature. -/
def Walk.step (d : Draws σ) (l : Landscape ε) (t : Float) (w : Walk σ ε) : Walk σ ε :=
  let (i, j, s) := positions d w.ordering.size w.draws
  let ordering := exchange w.ordering i j
  let energy := l.energy ordering.toList
  let (best, bestEnergy) :=
    if l.le energy w.bestEnergy then (ordering, energy) else (w.best, w.bestEnergy)
  if l.lt energy w.energy then ⟨s, ordering, energy, best, bestEnergy⟩
  else
    let (r, s) := d.unit s
    if r < l.acceptance t w.energy energy then ⟨s, ordering, energy, best, bestEnergy⟩
    else ⟨s, exchange ordering i j, w.energy, best, bestEnergy⟩

/-- Take a number of steps at a temperature. -/
def Walk.steps (d : Draws σ) (l : Landscape ε) (t : Float) : Nat → Walk σ ε → Walk σ ε
  | 0, w => w
  | n + 1, w => Walk.steps d l t n (w.step d l t)

/-- No walk goes through more temperatures than this. -/
def maxTemperatures : Nat := Nat.pow 2 40

/-- Walk on from a temperature until it is below the least one. -/
def Walk.cool (p : Annealing) (d : Draws σ) (l : Landscape ε) :
    Nat → Float → Walk σ ε → Walk σ ε
  | 0, _, w => w
  | n + 1, t, w =>
      if p.tMin ≤ t then Walk.cool p d l n (t / p.damp) (w.steps d l t p.iterations)
      else w

/-- Walk from an ordering; without time no step is taken. -/
def walk (p : Annealing) (d : Draws σ) (l : Landscape ε) (expired : Bool)
    (ordering : List Variable) (seed : Nat) : List Variable × ε :=
  let xs := ordering.toArray
  let e := l.energy ordering
  let start : Walk σ ε := ⟨d.ofSeed seed, xs, e, xs, e⟩
  let last := if expired then start else start.cool p d l maxTemperatures p.tInitial
  (last.best.toList, last.bestEnergy)

/-- Walk with consecutive seeds, and keep the first result of least energy. -/
def walks (p : Annealing) (d : Draws σ) (l : Landscape ε) (expired : Bool)
    (ordering : List Variable) (base : Nat) : Nat → List Variable × ε
  | 0 => walk p d l expired ordering (base % wordSize)
  | n + 1 =>
      let first := walks p d l expired ordering base n
      let next := walk p d l expired ordering ((base + n + 1) % wordSize)
      if l.lt next.2 first.2 then next else first

/-- No search that waits for a stable energy has more runs than this. -/
def maxRuns : Nat := Nat.pow 2 40

/-- The least energy met and how often it was, after a run that ends with an energy. -/
def stability (l : Landscape ε) (best : ε × Nat) (current : ε) : ε × Nat :=
  if l.lt current best.1 then (current, 1)
  else if l.same current best.1 then (best.1, best.2 + 1)
  else best

/-- Run again and again; `run` counts the finished runs and `stable` tells the least energy met
and how often it was. -/
def runFrom (p : Annealing) (d : Draws σ) (l : Landscape ε) (expired : Bool) (workers : Nat) :
    Nat → Nat → List Variable → ε × Nat → List Variable
  | 0, _, ordering, _ => ordering
  | fuel + 1, run, ordering, stable =>
      let before := l.energy ordering
      let (found, e) := walks p d l expired ordering (p.seed + run * workers) (workers - 1)
      let better := l.le e before
      let ordering := if better then found else ordering
      if p.runs == 0 then
        let stable := stability l stable (if l.lt e before then e else before)
        if 3 ≤ stable.2 || expired then ordering
        else runFrom p d l expired workers fuel (run + 1) ordering stable
      else if expired then ordering
      else runFrom p d l expired workers fuel (run + 1) ordering stable

/-- Search from an ordering. Parallel walks are as many as there are processors. -/
def search (p : Annealing) (d : Draws σ) (l : Landscape ε) (processors : Nat) (expired : Bool)
    (ordering : List Variable) : List Variable :=
  if ordering.length < 2 then ordering
  else
    runFrom p d l expired (if p.parallel then max processors 1 else 1)
      (if p.runs == 0 then maxRuns else p.runs) 0 ordering (l.greatest, 0)

end Annealing

/-- The energies by which orderings are annealed. -/
inductive Energy where
  /-- The bound on weights along the chain over the number of table entries. -/
  | ratio
  /-- The bound on nodes along the branches. -/
  | treeNodes
  /-- The logarithms of the widths along the branches. -/
  | treeScore
  deriving DecidableEq, Repr

/-- The energy of an ordering. -/
def Energy.evaluate (b : Bound) (ordering : List Variable) : Energy → Float
  | .ratio => b.ratio ordering
  | .treeNodes => b.treeNodesApprox ordering
  | .treeScore => b.treeScore ordering

/-- Anneal an ordering. -/
def anneal (p : Annealing) (b : Bound) (energy : Energy) (processors : Nat) (expired : Bool)
    (ordering : List Variable) : List Variable :=
  p.search .keystream (.ofFloat p fun o => energy.evaluate b o) processors expired ordering

end BayesCircuit.Ordering
