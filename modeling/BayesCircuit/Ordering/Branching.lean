import BayesCircuit.Collection.Heap
import BayesCircuit.Collection.VariableSet
import BayesCircuit.Ordering.Topological
import Std.Data.HashSet

/-!
# Searches that branch on the next variable

These searches minimise the bound on nodes. What the remaining levels cost depends only on the
*set* of variables that have been placed, so `bestFirst` never extends two orderings of one set.

* `bruteForce` tries every ordering and gives up a beginning that costs more than the best.
* `bestFirst` extends the cheapest beginning first.
* `lookahead` places the variable whose cheapest continuation over the next levels is cheapest.
-/

namespace BayesCircuit.Ordering.Task

open Collection

/-- A sum of costs, saturated. -/
def plus (a b : Nat) : Nat := min (a + b) saturated

/-- The cost of the level of a variable, saturated, and the state after it. -/
def level (t : Task) (e : Elimination) (v : Variable) : Nat × Elimination :=
  let (cost, e) := e.eliminate .word .nodes t.bound v
  (cost.getD saturated, e)

/-! ## Brute force -/

/-- Try every way of placing the variables that remain after `placed`, the last of which comes
first. -/
def bruteFrom (t : Task) (scope : List Variable) :
    Nat → Elimination → List Variable → Nat → List Variable × Nat → List Variable × Nat
  | 0, _, placed, cost, best => if cost < best.2 then (placed.reverse, cost) else best
  | left + 1, e, placed, cost, best =>
      if t.expired then best
      else
        scope.foldl
          (fun best v =>
            if placed.contains v then best
            else
              let (step, next) := t.level e v
              let total := plus cost step
              if best.2 < total then best
              else bruteFrom t scope left next (v :: placed) total best)
          best

/-- The best of all orderings, or the topological one if the time does not suffice for any. -/
def bruteForce (t : Task) : List Variable :=
  let scope := Ascending.ofList t.scope
  let (best, _) := bruteFrom t scope scope.length (.start t.bound) [] 0 ([], saturated)
  if best.length == scope.length then best else t.topological

/-! ## Best first -/

/-- The beginning of an ordering, last variable first, with its cost and its set. -/
structure Beginning where
  cost : Nat
  placed : List Variable
  visited : VariableSet

/-- Cheaper beginnings come first, and longer ones among equally cheap ones. -/
def Beginning.before (a b : Beginning) : Bool :=
  a.cost < b.cost || (a.cost == b.cost && b.placed.length < a.placed.length)

/-- The state after the beginning of an ordering. -/
def replay (t : Task) (placed : List Variable) : Elimination :=
  placed.reverse.foldl (fun e v => (e.visit t.bound v).2) (.start t.bound)

/-- After this many sets a search gives up. -/
def maxClosed : Nat := Nat.pow 2 20

/-- The beginnings that extend one by a variable, unless they are too dear or their set is
closed. -/
def extensions (t : Task) (upper : Nat) (closed : Std.HashSet VariableSet) (b : Beginning) :
    List Beginning :=
  let e := t.replay b.placed
  t.scope.filterMap fun v =>
    if b.visited.contains v then none
    else
      let total := plus b.cost (t.level e v).1
      match b.visited.adding v with
      | .error _ => none
      | .ok visited =>
          if upper < total || closed.contains visited then none
          else some ⟨total, v :: b.placed, visited⟩

/-- Extend the cheapest beginning until it is complete. -/
def bestFrom (t : Task) (upper : Nat) :
    Nat → Heap Beginning → Std.HashSet VariableSet → Option (List Variable)
  | 0, _, _ => none
  | fuel + 1, heap, closed =>
      match heap.pop? Beginning.before with
      | none => none
      | some (b, heap) =>
          if b.placed.length == t.size then some b.placed.reverse
          else if closed.contains b.visited then bestFrom t upper fuel heap closed
          else
            let closed := closed.insert b.visited
            if t.expired || maxClosed < closed.size then none
            else
              let heap := (t.extensions upper closed b).foldl
                (fun h x => h.push Beginning.before x) heap
              bestFrom t upper fuel heap closed

/-- An ordering with the least bound on nodes, or the topological one if the search gives up. -/
def bestFirst (t : Task) : List Variable :=
  let first := t.topological
  if t.size < 2 then first
  else
    let upper := t.bound.compute .nodes first
    let start : Beginning := ⟨0, [], .empty t.net.size⟩
    (bestFrom t upper ((maxClosed + 2) * (t.size + 1)) (Heap.leaf.push Beginning.before start)
      ∅).getD first

/-! ## Lookahead -/

/-- The least cost of the next `depth` levels. -/
def cheapest (t : Task) (scope : List Variable) :
    Nat → Elimination → List Variable → Nat
  | 0, _, _ => 0
  | depth + 1, e, placed =>
      if placed.length == scope.length then 0
      else
        scope.foldl
          (fun best v =>
            if placed.contains v then best
            else
              let (cost, next) := t.level e v
              min best (plus cost (cheapest t scope depth next (v :: placed))))
          saturated

/-- The variable whose cheapest continuation is cheapest, the first of equals. -/
def pick (t : Task) (scope : List Variable) (depth : Nat) (e : Elimination)
    (placed : List Variable) : Option Variable :=
  (scope.foldl
    (fun best v =>
      if placed.contains v then best
      else
        let (cost, next) := t.level e v
        let total := plus cost (cheapest t scope (depth - 1) next (v :: placed))
        match best with
        | some (b, w) => if total < b then some (total, v) else some (b, w)
        | none => some (total, v))
    (none : Option (Nat × Variable))).map (·.2)

/-- Place variables one after the other. -/
def lookaheadFrom (t : Task) (scope : List Variable) (depth : Nat) :
    Nat → Elimination → List Variable → List Variable
  | 0, _, placed => placed.reverse
  | left + 1, e, placed =>
      match t.pick scope depth e placed with
      | none => placed.reverse
      | some v => lookaheadFrom t scope depth left (e.visit t.bound v).2 (v :: placed)

/-- The greedy ordering that looks `depth` levels ahead, but no further than one level when the
time is over. -/
def lookahead (t : Task) (depth : Nat) : List Variable :=
  let depth := if t.expired then 1 else max depth 1
  let scope := t.scope
  lookaheadFrom t scope (min depth (scope.length + 1)) scope.length
    (.start t.bound) []

end BayesCircuit.Ordering.Task
