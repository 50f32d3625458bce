import BayesCircuit.Partition

/-!
# Interaction graphs

The variables of a partition interact if the table of an owned variable mentions both. Eliminating
a variable from the graph connects its neighbours with each other. `minFill` orders the variables
of a partition by eliminating, again and again, the one that adds the fewest edges.
-/

namespace BayesCircuit

open Collection

/-- The neighbours of each variable, ascending. -/
structure InteractionGraph where
  neighbours : Array (List Variable)

namespace InteractionGraph

/-- The neighbours of a variable. -/
def adjacent (g : InteractionGraph) (v : Variable) : List Variable := g.neighbours.getD v []

/-- Connect two variables unless they are the same. -/
def connect (g : InteractionGraph) (a b : Variable) : InteractionGraph :=
  if a == b then g
  else ⟨(g.neighbours.modify a (Ascending.insert b)).modify b (Ascending.insert a)⟩

/-- Connect the variables of a list pairwise. -/
def connectAll : List Variable → InteractionGraph → InteractionGraph
  | [], g => g
  | a :: rest, g => connectAll rest (rest.foldl (fun g b => g.connect a b) g)

/-- The graph of a partition. -/
def ofPartition (net : Network) (p : Partition) : InteractionGraph :=
  p.owned.foldl
    (fun g v => connectAll ((net.nodes[v]?.map (·.parents)).getD [] ++ [v]) g)
    ⟨Array.replicate net.size []⟩

/-- Take a variable out and connect its neighbours with each other. -/
def eliminate (g : InteractionGraph) (v : Variable) : InteractionGraph :=
  let ns := g.adjacent v
  let detached : InteractionGraph := ⟨g.neighbours.setIfInBounds v []⟩
  ns.foldl (fun g a =>
    ⟨g.neighbours.modify a fun as =>
      ns.foldl (fun as b => if a == b then as else Ascending.insert b as) (Ascending.erase v as)⟩)
    detached

/-- The number of pairs of a list that are not connected. -/
def unconnected (g : InteractionGraph) : List Variable → Nat
  | [] => 0
  | a :: rest => (rest.filter fun b => !(g.adjacent a).contains b).length + unconnected g rest

/-- The number of edges that eliminating a variable adds. -/
def fillIn (g : InteractionGraph) (v : Variable) : Nat := g.unconnected (g.adjacent v)

/-- Whether one variable is eliminated before another: the one with less fill-in, of equal ones
the one with fewer neighbours, of equal ones the smaller. -/
def eliminatedBefore (g : InteractionGraph) (a b : Variable) : Bool :=
  let fa := g.fillIn a
  let fb := g.fillIn b
  if fa != fb then fa < fb
  else if (g.adjacent a).length != (g.adjacent b).length then
    (g.adjacent a).length < (g.adjacent b).length
  else a < b

/-- The variable of a list that is eliminated first. -/
def first? (g : InteractionGraph) : List Variable → Option Variable
  | [] => none
  | v :: vs =>
      match first? g vs with
      | none => some v
      | some w => if g.eliminatedBefore w v then some w else some v

/-- Eliminate variables while there are any; the last one comes first. -/
def eliminationFrom (g : InteractionGraph) (remaining done : List Variable) : List Variable :=
  match _found : g.first? remaining with
  | none => done
  | some v =>
      if _member : v ∈ remaining then
        eliminationFrom (g.eliminate v) (remaining.erase v) (v :: done)
      else done
termination_by remaining.length
decreasing_by
  have := List.length_erase_of_mem _member
  have := List.length_pos_of_mem _member
  omega

/-- The reverse of a greedy elimination of the variables of a partition. -/
def minFill (net : Network) (p : Partition) : List Variable :=
  eliminationFrom (ofPartition net p) p.scope []

end InteractionGraph
end BayesCircuit
