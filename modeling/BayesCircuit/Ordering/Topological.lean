import BayesCircuit.Bound.Basic
import BayesCircuit.Collection.Permutation

/-!
# Orderings that follow the edges of a network

These searches walk from the roots of a partition, which are its owned variables without parents
and its cutset, to the children that the partition owns.

* `topological` tries depth-first topological sorts for the orders of the roots and keeps the one
  whose levels have the least product of widths.
* `breadthFirst` places a variable as soon as any of its parents has been placed.
* `components` sorts what each root reaches first, and joins the pieces.
* `allTopological` tries every topological sort.

A search stops when its time is over and returns the best ordering found so far.
-/

namespace BayesCircuit.Ordering

open Collection

/-- A partition whose variables are to be ordered. -/
structure Task where
  net : Network
  partition : Partition
  bound : Bound
  /-- The owned children of each variable, ascending. -/
  children : Array (List Variable)
  /-- The number of parents of each owned variable, zero for the others. -/
  parentCounts : Array Nat
  /-- Whether the time for searching is over. -/
  expired : Bool
  /-- The natural logarithm. -/
  log : Float → Float

namespace Task

/-- The task of ordering a partition. -/
def ofPartition (net : Network) (p : Partition) (expired : Bool)
    (log : Float → Float := Float.log) : Task where
  net := net
  partition := p
  bound := .ofPartition net p
  children := (Array.range net.size).map fun x =>
    p.owned.flatMap fun v =>
      List.replicate (((net.nodes[v]?.map (·.parents)).getD []).count x) v
  parentCounts := net.nodes.mapIdx fun v n => if p.owned.contains v then n.parents.length else 0
  expired := expired
  log := log

/-- The number of variables that an ordering lists. -/
def size (t : Task) : Nat := t.partition.size

/-- The variables of the partition, cutset first. -/
def scope (t : Task) : List Variable := t.partition.cutset ++ t.partition.owned

/-- The owned variables without parents, then the cutset. -/
def roots (t : Task) : List Variable :=
  t.partition.owned.filter (fun v => t.parentCounts.getD v 0 == 0) ++ t.partition.cutset

/-- The owned children of a variable. -/
def childrenOf (t : Task) (v : Variable) : List Variable := t.children.getD v []

/-- The number of edges to owned variables. -/
def edgeCount (t : Task) : Nat := sumOf (t.children.toList.map (·.length))

/-- Count down the open parents of children; those without any go on top of the stack. -/
def release : List Variable → Array Nat → List Variable → Array Nat × List Variable
  | [], waiting, stack => (waiting, stack)
  | c :: cs, waiting, stack =>
      let w := waiting.getD c 0
      if w == 0 then release cs waiting stack
      else
        let waiting := waiting.setIfInBounds c (w - 1)
        release cs waiting (if w == 1 then c :: stack else stack)

/-- Place the variables of a stack, each followed by the children that become free. Every variable
enters the stack at most once. -/
def placeStack (t : Task) : Nat → Array Nat → List Variable → List Variable
  | 0, _, _ => []
  | _, _, [] => []
  | fuel + 1, waiting, v :: stack =>
      let (waiting, stack) := release (t.childrenOf v).reverse waiting stack
      v :: placeStack t fuel waiting stack

/-- The depth-first topological sort that takes the roots in the given order. -/
def depthFirst (t : Task) (roots : List Variable) : List Variable :=
  placeStack t (roots.length + t.net.size) t.parentCounts roots

/-- The number of orders of a list of a given length. -/
def orderCount : Nat → Nat
  | 0 => 1
  | n + 1 => (n + 1) * orderCount n

/-- The greatest finite score. -/
def maxScore : Float := 1.7976931348623157e308

/-- Try the orders of the roots from the given one on; `best` has the least score so far. -/
def topologicalFrom (t : Task) : Nat → List Variable → List Variable × Float → List Variable
  | 0, _, best => best.1
  | fuel + 1, roots, best =>
      let ordering := t.depthFirst roots
      let score := t.bound.score ordering t.log
      let best := if score < best.2 then (ordering, score) else best
      let (further, roots) := Permutation.step roots
      if !further || t.expired then best.1 else topologicalFrom t fuel roots best

/-- The best depth-first topological sort. -/
def topological (t : Task) : List Variable :=
  topologicalFrom t (orderCount t.roots.length) t.roots ([], maxScore)

/-- Place the variables of a queue, each once. -/
def placeQueue (t : Task) : Nat → Array Bool → List Variable → List Variable
  | 0, _, _ => []
  | _, _, [] => []
  | fuel + 1, placed, v :: queue =>
      if placed.getD v true then placeQueue t fuel placed queue
      else v :: placeQueue t fuel (placed.setIfInBounds v true) (queue ++ t.childrenOf v)

/-- The breadth-first ordering. -/
def breadthFirst (t : Task) : List Variable :=
  placeQueue t (t.roots.length + t.edgeCount) (Array.replicate t.net.size false)
    (Ascending.ofList t.roots)

/-! ## Components -/

/-- Which root reaches each variable first, counted from one, how often its component meets it,
and for each root those whose components it runs into. -/
structure Components where
  component : Array Nat
  meetings : Array Nat
  links : Array (List Nat)

/-- Label what a queue reaches for the root with a given number. -/
def label (t : Task) (root : Nat) : Nat → List Variable → Components → Components
  | 0, _, cs => cs
  | _, [], cs => cs
  | fuel + 1, v :: queue, cs =>
      let owner := cs.component.getD v 0
      if owner == 0 then
        label t root fuel (queue ++ t.childrenOf v)
          { cs with
            component := cs.component.setIfInBounds v (root + 1)
            meetings := cs.meetings.modify v (· + 1) }
      else if owner == root + 1 then
        label t root fuel queue { cs with meetings := cs.meetings.modify v (· + 1) }
      else
        label t root fuel queue
          { cs with links := cs.links.modify root fun ls =>
              if ls.contains (owner - 1) then ls else ls ++ [owner - 1] }

/-- Label what all roots reach, in their order. -/
def labelAll (t : Task) (roots : List Variable) : Components :=
  roots.zipIdx.foldl (fun cs (root, c) => label t c (t.edgeCount + 1) [root] cs)
    ⟨Array.replicate t.net.size 0, Array.replicate t.net.size 0,
      Array.replicate roots.length []⟩

/-- Meet the children of a variable that belong to a component; those met for the last time are
free. -/
def meet (c : Nat) (component : Array Nat) : List Variable → Array Nat →
    Array Nat × List Variable
  | [], meetings => (meetings, [])
  | x :: xs, meetings =>
      if component.getD x 0 == c + 1 then
        let left := meetings.getD x 0 - 1
        let (meetings, free) := meet c component xs (meetings.setIfInBounds x left)
        (meetings, if left == 0 then x :: free else free)
      else meet c component xs meetings

/-- Place the variables of a component from a queue on. -/
def placeComponent (t : Task) (c : Nat) (component : Array Nat) :
    Nat → List Variable → Array Nat → List Variable × Array Nat
  | 0, _, meetings => ([], meetings)
  | _, [], meetings => ([], meetings)
  | fuel + 1, v :: queue, meetings =>
      let (meetings, free) := meet c component (t.childrenOf v) meetings
      let (rest, meetings) := placeComponent t c component fuel (queue ++ free) meetings
      (v :: rest, meetings)

/-- The sorted components of the roots, in their order. -/
def placeComponents (t : Task) (component : Array Nat) :
    List (Variable × Nat) → Array Nat → List (List Variable)
  | [], _ => []
  | (root, c) :: roots, meetings =>
      let (order, meetings) := placeComponent t c component (t.net.size + 1) [root] meetings
      order :: placeComponents t component roots meetings

/-- Place the components of a queue, each before those it runs into once nothing else has to come
before them. -/
def placeLinked (links : Array (List Nat)) : Nat → Array Nat → List Nat → List Nat
  | 0, _, _ => []
  | _, _, [] => []
  | fuel + 1, waiting, c :: queue =>
      let (waiting, free) := (links.getD c []).foldl
        (fun (waiting, free) d =>
          let left := waiting.getD d 0 - 1
          (waiting.setIfInBounds d left, if left == 0 then free ++ [d] else free))
        (waiting, [])
      c :: placeLinked links fuel waiting (queue ++ free)

/-- The ordering by components for one order of the roots. -/
def componentOrdering (t : Task) (roots : List Variable) : List Variable :=
  let cs := labelAll t roots
  let orders := (placeComponents t cs.component roots.zipIdx cs.meetings).toArray
  let n := roots.length
  let waiting := (Array.range n).map fun c => sumOf (cs.links.toList.map (·.count c))
  let free := (List.range n).filter fun c => waiting.getD c 0 == 0
  let placed := placeLinked cs.links n waiting free
  let others := (List.range n).filter fun c => !placed.contains c
  (placed ++ others).flatMap fun c => orders.getD c []

/-- Try the orders of the roots from the given one on; `best` has the least bound so far. -/
def componentsFrom (t : Task) : Nat → List Variable → Option (List Variable × Nat) →
    List Variable
  | 0, _, best => (best.map (·.1)).getD []
  | fuel + 1, roots, best =>
      let ordering := t.componentOrdering roots
      let bound := t.bound.compute .nodes ordering
      let best := match best with
        | some (o, b) => if o.isEmpty || bound < b then (ordering, bound) else (o, b)
        | none => (ordering, bound)
      let (further, roots) := Permutation.step roots
      if !further || t.expired then best.1 else componentsFrom t fuel roots (some best)

/-- The best ordering by components. A partition with one root and one leaf has one component. -/
def components (t : Task) : List Variable :=
  let roots := Ascending.ofList t.roots
  let leaves := t.partition.owned.filter fun v =>
    0 < t.parentCounts.getD v 0 && (t.childrenOf v).isEmpty
  if roots.length == 1 && leaves.length == 1 then t.topological
  else componentsFrom t (orderCount roots.length) roots none

/-! ## All topological sorts -/

/-- Try every way of placing the other variables after those that have been placed, the last of
which comes first in `placed`. -/
def allFrom (t : Task) : Nat → Array Nat → List Variable → List Variable × Nat →
    List Variable × Nat
  | 0, _, placed, best =>
      let bound := t.bound.compute .nodes placed.reverse
      if bound < best.2 then (placed.reverse, bound) else best
  | fuel + 1, waiting, placed, best =>
      if t.expired then best
      else
        let free := t.scope.filter fun v => waiting.getD v 0 == 0 && !placed.contains v
        if free.isEmpty then
          let bound := t.bound.compute .nodes placed.reverse
          if bound < best.2 then (placed.reverse, bound) else best
        else
          free.foldl
            (fun best v =>
              let waiting := (t.childrenOf v).foldl (fun w c => w.modify c (· - 1)) waiting
              allFrom t fuel waiting (v :: placed) best)
            best

/-- The topological sort with the least bound on nodes. -/
def allTopological (t : Task) : List Variable :=
  let first := t.topological
  (allFrom t (t.size + 1) t.parentCounts [] (first, t.bound.compute .nodes first)).1

end Task
end BayesCircuit.Ordering
