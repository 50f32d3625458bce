import BayesCircuit.Ordering.Generate

/-!
# Searching against the clock

A search looks at the clock while it goes on, and returns the best ordering found so far when its
time is over. Here the searches are parametric in these looks: `look` tells, each time anew, whether
the time is over, and may do so with whatever effects its monad has. The searches of a task are
those for which every look gives the same answer.
-/

namespace BayesCircuit.Ordering.Timed

open Collection Ordering.Task

variable {m : Type → Type} [Monad m] {σ ε : Type}

/-! ## Along the edges -/

/-- Try the orders of the roots from the given one on; `best` has the least score so far. -/
def topologicalFrom (look : m Bool) (t : Task) :
    Nat → List Variable → List Variable × Float → m (List Variable)
  | 0, _, best => pure best.1
  | fuel + 1, roots, best =>
      let ordering := t.depthFirst roots
      let score := t.bound.score ordering t.log
      let best := if score < best.2 then (ordering, score) else best
      let (further, roots) := Permutation.step roots
      if !further then pure best.1
      else do
        let expired ← look
        if expired then pure best.1 else topologicalFrom look t fuel roots best

/-- The best depth-first topological sort. -/
def topological (look : m Bool) (t : Task) : m (List Variable) :=
  topologicalFrom look t (orderCount t.roots.length) t.roots ([], maxScore)

/-- Try the orders of the roots from the given one on; `best` has the least bound so far. -/
def componentsFrom (look : m Bool) (t : Task) :
    Nat → List Variable → Option (List Variable × Nat) → m (List Variable)
  | 0, _, best => pure ((best.map (·.1)).getD [])
  | fuel + 1, roots, best =>
      let ordering := t.componentOrdering roots
      let bound := t.bound.compute .nodes ordering
      let best := match best with
        | some (o, b) => if o.isEmpty || bound < b then (ordering, bound) else (o, b)
        | none => (ordering, bound)
      let (further, roots) := Permutation.step roots
      if !further then pure best.1
      else do
        let expired ← look
        if expired then pure best.1 else componentsFrom look t fuel roots (some best)

/-- The best ordering by components. -/
def components (look : m Bool) (t : Task) : m (List Variable) :=
  let roots := Ascending.ofList t.roots
  let leaves := t.partition.owned.filter fun v =>
    0 < t.parentCounts.getD v 0 && (t.childrenOf v).isEmpty
  if roots.length == 1 && leaves.length == 1 then topological look t
  else componentsFrom look t (orderCount roots.length) roots none

/-- Try every way of placing the other variables after those that have been placed, the last of
which comes first in `placed`. -/
def allFrom (look : m Bool) (t : Task) :
    Nat → Array Nat → List Variable → List Variable × Nat → m (List Variable × Nat)
  | 0, _, placed, best =>
      let bound := t.bound.compute .nodes placed.reverse
      pure (if bound < best.2 then (placed.reverse, bound) else best)
  | fuel + 1, waiting, placed, best => do
      let expired ← look
      if expired then pure best
      else
        let free := t.scope.filter fun v => waiting.getD v 0 == 0 && !placed.contains v
        if free.isEmpty then
          let bound := t.bound.compute .nodes placed.reverse
          pure (if bound < best.2 then (placed.reverse, bound) else best)
        else
          free.foldlM
            (fun best v =>
              let waiting := (t.childrenOf v).foldl (fun w c => w.modify c (· - 1)) waiting
              allFrom look t fuel waiting (v :: placed) best)
            best

/-- The topological sort with the least bound on nodes. -/
def allTopological (look : m Bool) (t : Task) : m (List Variable) := do
  let first ← topological look t
  let best ← allFrom look t (t.size + 1) t.parentCounts [] (first, t.bound.compute .nodes first)
  return best.1

/-! ## Branching on the next variable -/

/-- Try every way of placing the variables that remain after `placed`, the last of which comes
first. -/
def bruteFrom (look : m Bool) (t : Task) (scope : List Variable) :
    Nat → Elimination → List Variable → Nat → List Variable × Nat → m (List Variable × Nat)
  | 0, _, placed, cost, best => pure (if cost < best.2 then (placed.reverse, cost) else best)
  | left + 1, e, placed, cost, best => do
      let expired ← look
      if expired then pure best
      else
        scope.foldlM
          (fun best v =>
            if placed.contains v then pure best
            else
              let (step, next) := t.level e v
              let total := plus cost step
              if best.2 < total then pure best
              else bruteFrom look t scope left next (v :: placed) total best)
          best

/-- The best of all orderings, or the topological one if the time does not suffice for any. -/
def bruteForce (look : m Bool) (t : Task) : m (List Variable) := do
  let scope := Ascending.ofList t.scope
  let (best, _) ← bruteFrom look t scope scope.length (.start t.bound) [] 0 ([], saturated)
  if best.length == scope.length then pure best else topological look t

/-- Extend the cheapest beginning until it is complete. -/
def bestFrom (look : m Bool) (t : Task) (upper : Nat) :
    Nat → Heap Beginning → Std.HashSet VariableSet → m (Option (List Variable))
  | 0, _, _ => pure none
  | fuel + 1, heap, closed =>
      match heap.pop? Beginning.before with
      | none => pure none
      | some (b, heap) =>
          if b.placed.length == t.size then pure (some b.placed.reverse)
          else if closed.contains b.visited then bestFrom look t upper fuel heap closed
          else do
            let closed := closed.insert b.visited
            let expired ← look
            if expired || maxClosed < closed.size then pure none
            else
              let heap := (t.extensions upper closed b).foldl
                (fun h x => h.push Beginning.before x) heap
              bestFrom look t upper fuel heap closed

/-- An ordering with the least bound on nodes, or the topological one if the search gives up. -/
def bestFirst (look : m Bool) (t : Task) : m (List Variable) := do
  let first ← topological look t
  if t.size < 2 then pure first
  else
    let upper := t.bound.compute .nodes first
    let start : Beginning := ⟨0, [], .empty t.net.size⟩
    let found ← bestFrom look t upper ((maxClosed + 2) * (t.size + 1))
      (Heap.leaf.push Beginning.before start) ∅
    return found.getD first

/-- Place variables one after the other, looking no further than one level once the time is
over. -/
def lookaheadFrom (look : m Bool) (t : Task) (scope : List Variable) (depth : Nat) :
    Nat → Elimination → List Variable → m (List Variable)
  | 0, _, placed => pure placed.reverse
  | left + 1, e, placed => do
      let expired ← look
      let depth' := if expired then 1 else max depth 1
      match t.pick scope (min depth' (scope.length + 1)) e placed with
      | none => pure placed.reverse
      | some v => lookaheadFrom look t scope depth left (e.visit t.bound v).2 (v :: placed)

/-- The greedy ordering that looks `depth` levels ahead. -/
def lookahead (look : m Bool) (t : Task) (depth : Nat) : m (List Variable) :=
  lookaheadFrom look t t.scope depth t.scope.length (.start t.bound) []

/-! ## Annealing -/

open Annealing

/-- Walk on from a temperature until it is below the least one. -/
def cool (look : m Bool) (p : Annealing) (d : Draws σ) (l : Landscape ε) :
    Nat → Float → Walk σ ε → m (Walk σ ε)
  | 0, _, w => pure w
  | n + 1, t, w =>
      if p.tMin ≤ t then do
        let expired ← look
        if expired then pure w else cool look p d l n (t / p.damp) (w.steps d l t p.iterations)
      else pure w

/-- Walk from an ordering. -/
def walk (look : m Bool) (p : Annealing) (d : Draws σ) (l : Landscape ε)
    (ordering : List Variable) (seed : Nat) : m (List Variable × ε) := do
  let xs := ordering.toArray
  let e := l.energy ordering
  let last ← cool look p d l maxTemperatures p.tInitial ⟨d.ofSeed seed, xs, e, xs, e⟩
  return (last.best.toList, last.bestEnergy)

/-- Walk with consecutive seeds, and keep the first result of least energy. -/
def walks (look : m Bool) (p : Annealing) (d : Draws σ) (l : Landscape ε)
    (ordering : List Variable) (base : Nat) : Nat → m (List Variable × ε)
  | 0 => walk look p d l ordering (base % wordSize)
  | n + 1 => do
      let first ← walks look p d l ordering base n
      let next ← walk look p d l ordering ((base + n + 1) % wordSize)
      return if l.lt next.2 first.2 then next else first

/-- Run again and again; `run` counts the finished runs and `stable` tells the least energy met
and how often it was. -/
def runFrom (look : m Bool) (p : Annealing) (d : Draws σ) (l : Landscape ε) (workers : Nat) :
    Nat → Nat → List Variable → ε × Nat → m (List Variable)
  | 0, _, ordering, _ => pure ordering
  | fuel + 1, run, ordering, stable => do
      let before := l.energy ordering
      let (found, e) ← walks look p d l ordering (p.seed + run * workers) (workers - 1)
      let ordering := if l.le e before then found else ordering
      let stable :=
        if p.runs == 0 then stability l stable (if l.lt e before then e else before) else stable
      if p.runs == 0 && 3 ≤ stable.2 then pure ordering
      else
        let expired ← look
        if expired then pure ordering
        else runFrom look p d l workers fuel (run + 1) ordering stable

/-- Search from an ordering. Parallel walks are as many as there are processors. -/
def search (look : m Bool) (p : Annealing) (d : Draws σ) (l : Landscape ε) (processors : Nat)
    (ordering : List Variable) : m (List Variable) :=
  if ordering.length < 2 then pure ordering
  else
    runFrom look p d l (if p.parallel then max processors 1 else 1)
      (if p.runs == 0 then maxRuns else p.runs) 0 ordering (l.greatest, 0)

/-- Anneal an ordering, or all variables in their order if it is empty. -/
def annealFrom (look : m Bool) (d : Draws σ) (t : Task) (options : Options) (energy : Energy)
    (initial : List Variable) : m (List Variable) :=
  let p := options.annealing
  search look p d (.ofFloat p fun o => energy.evaluate t.bound o) options.processors
    (if initial.isEmpty then t.scope else initial)

/-! ## All strategies -/

/-- Carry out a strategy. -/
def run (look : m Bool) (d : Draws σ) (t : Task) (options : Options) : m (List Variable) :=
  match options.strategy with
  | .topological => topological look t
  | .breadthFirst => pure t.breadthFirst
  | .reverseTopological => return (← topological look t).reverse
  | .bestFirst => bestFirst look t
  | .bruteForce => bruteForce look t
  | .components => components look t
  | .lookahead => lookahead look t options.lookahead
  | .anneal => do annealFrom look d t options .ratio (← topological look t)
  | .allTopological => allTopological look t
  | .annealMinFill => annealFrom look d t options .treeNodes t.minFill
  | .minFill => pure t.minFill

/-- An ordering of a partition, which must place every variable. -/
def generate (look : m Bool) (d : Draws σ) (net : Network) (p : Partition) (options : Options)
    (log : Float → Float := Float.log) : m (Outcome (List Variable)) := do
  let t := ofPartition net p options.expired log
  let ordering ← run look d t options
  return do
    require (ordering.length == t.size)
    return ordering

end BayesCircuit.Ordering.Timed
