import BayesCircuit.Bound.Basic
import BayesCircuit.Proofs.Collection.Ascending
import BayesCircuit.Proofs.Network
import BayesCircuit.PseudoTree.Basic

/-!
# The constraints and the frontier of some variables

The constraint of an owned variable mentions its family, and the constraints of a variable are
those that mention it, each once.

The *frontier* of some variables are the others that a constraint mentions together with one of
them. At the level of a variable, the contexts are the joint values of the frontier of the variables
from there on, and the constraints that *end* there mention none of those after it. What a chain or
a tree needs for its levels follows from these two (`pathCost`, `treeNodeCount`), whatever way it is
computed.
-/

namespace BayesCircuit.Bound

open Collection InteractionGraph

variable {net : Network} {p : Partition} {u v : Variable} {c : Nat}

/-- The variables of a constraint. -/
def scope (b : Bound) (c : Nat) : List Variable := b.scopes.getD c []

/-- The constraints that mention a variable. -/
def mentioning (b : Bound) (v : Variable) : List Nat := b.constraintsOf.getD v []

theorem size_dims : (ofPartition net p).dims.size = net.size := Array.size_map

theorem enabled_iff (hp : p.Proper net) :
    (ofPartition net p).enabled.getD c false = true ↔ c ∈ p.owned := by
  have hlt := hp.owned_lt c
  simp only [ofPartition, ofEnabled, Array.getD_eq_getD_getElem?, Array.getElem?_map,
    Array.getElem?_range]
  split
  · simp
  · simpa using mt hlt ‹_›

theorem scope_ofPartition (hp : p.Proper net) {n : Network.Node} (hn : net.nodes[c]? = some n)
    (hc : c ∈ p.owned) : (ofPartition net p).scope c = c :: n.parents := by
  have henabled := (enabled_iff hp).2 hc
  simp only [ofPartition, ofEnabled] at henabled
  simp only [scope, ofPartition, ofEnabled, scopesOf, Array.getD_eq_getD_getElem?,
    Array.getElem?_mapIdx, hn, Option.map_some, Option.getD_some]
  rw [if_pos]
  rwa [Array.getD_eq_getD_getElem?] at henabled

theorem scope_of_not_owned (hp : p.Proper net) (hc : c ∉ p.owned) :
    (ofPartition net p).scope c = [] := by
  have henabled := mt (enabled_iff hp).1 hc
  simp only [ofPartition, ofEnabled] at henabled
  simp only [scope, ofPartition, ofEnabled, scopesOf, Array.getD_eq_getD_getElem?,
    Array.getElem?_mapIdx]
  cases net.nodes[c]? with
  | none => rfl
  | some n =>
      simp only [Option.map_some, Option.getD_some]
      rw [if_neg]
      rwa [Array.getD_eq_getD_getElem?] at henabled

theorem exists_node (hp : p.Proper net) (hc : c ∈ p.owned) : ∃ n, net.nodes[c]? = some n :=
  ⟨_, Array.getElem?_eq_getElem (hp.owned_lt c hc)⟩

/-- A constraint mentions the family of an owned variable. -/
theorem mem_scope (hp : p.Proper net) :
    u ∈ (ofPartition net p).scope c ↔ c ∈ p.owned ∧ u ∈ family net c := by
  by_cases hc : c ∈ p.owned
  · obtain ⟨n, hn⟩ := exists_node hp hc
    rw [scope_ofPartition hp hn hc, family_eq hn, List.mem_cons, List.mem_append,
      List.mem_singleton, or_comm]
    simp [hc]
  · simp [scope_of_not_owned hp hc, hc]

/-! ## The constraints that are enabled -/

variable {enabled : Array Bool} {size : Nat}

theorem size_scopes : (ofEnabled net enabled size).scopes.size = net.size := Array.size_mapIdx

/-- A constraint is that of a variable, which it mentions with the parents of that variable. -/
theorem scope_ofEnabled (net : Network) (enabled : Array Bool) (size c : Nat) :
    (ofEnabled net enabled size).scope c = [] ∨
    ∃ n, net.nodes[c]? = some n ∧ (ofEnabled net enabled size).scope c = c :: n.parents := by
  simp only [scope, ofEnabled, scopesOf, Array.getD_eq_getD_getElem?, Array.getElem?_mapIdx]
  cases net.nodes[c]? with
  | none => exact Or.inl rfl
  | some n =>
      simp only [Option.map_some, Option.getD_some]
      split
      · exact Or.inr ⟨n, rfl, rfl⟩
      · exact Or.inl rfl

/-- Constraints and what they mention are variables. -/
theorem lt_of_mem_scope (hnet : net.Linked) (hu : u ∈ (ofEnabled net enabled size).scope c) :
    c < net.size ∧ u < net.size := by
  rcases scope_ofEnabled net enabled size c with hnil | ⟨n, hn, hscope⟩
  · exact absurd (hnil ▸ hu) List.not_mem_nil
  · have hc : c < net.size := (Array.getElem?_eq_some_iff.1 hn).1
    rcases List.mem_cons.1 (hscope ▸ hu) with rfl | hu
    · exact ⟨hc, hc⟩
    · exact ⟨hc, hnet.parents hn u hu⟩

theorem nodup_scope (hnet : net.Linked) : ((ofEnabled net enabled size).scope c).Nodup := by
  rcases scope_ofEnabled net enabled size c with hnil | ⟨n, hn, hscope⟩
  · exact hnil ▸ List.nodup_nil
  · exact hscope ▸ List.nodup_cons.2 ⟨hnet.self hn, hnet.nodup hn⟩

theorem mentioning_eq (hv : v < net.size) :
    (ofEnabled net enabled size).mentioning v = (List.range net.size).flatMap fun c =>
      List.replicate (((ofEnabled net enabled size).scope c).count v) c := by
  have hzip : (ofEnabled net enabled size).scopes.toList.zipIdx =
      (List.range net.size).map fun c => ((ofEnabled net enabled size).scope c, c) := by
    refine List.ext_getElem (by simp [size_scopes]) fun i hi _ => ?_
    have hlt : i < (ofEnabled net enabled size).scopes.size := by simpa using hi
    simp [scope, Array.getD_eq_getD_getElem?, Array.getElem?_eq_getElem hlt]
  have hinvert : (ofEnabled net enabled size).mentioning v =
      (ofEnabled net enabled size).scopes.toList.zipIdx.flatMap fun q =>
        List.replicate (q.1.count v) q.2 := by
    have hv' : v < (ofEnabled net enabled size).scopes.size := by rwa [size_scopes]
    show ((Array.range (ofEnabled net enabled size).scopes.size).map _).getD v [] = _
    simp only [Array.getD_eq_getD_getElem?, Array.getElem?_map, Array.getElem?_range, if_pos hv',
      Option.map_some, Option.getD_some]
    rfl
  rw [hinvert, hzip, List.flatMap_map]

theorem mentioning_of_le (hv : net.size ≤ v) : (ofEnabled net enabled size).mentioning v = [] := by
  have hsize : (ofEnabled net enabled size).constraintsOf.size = net.size := by
    show ((Array.range (ofEnabled net enabled size).scopes.size).map _).size = _
    rw [Array.size_map, Array.size_range, size_scopes]
  rw [mentioning, Array.getD_eq_getD_getElem?, Array.getElem?_eq_none (hsize.trans_le hv)]
  rfl

/-- The constraints of a variable are those that mention it. -/
theorem mem_mentioning (hnet : net.Linked) :
    c ∈ (ofEnabled net enabled size).mentioning v ↔ v ∈ (ofEnabled net enabled size).scope c := by
  rcases Nat.lt_or_ge v net.size with hv | hv
  · rw [mentioning_eq hv, List.mem_flatMap]
    simp only [List.mem_range, List.mem_replicate, ne_eq, List.count_eq_zero, not_not]
    constructor
    · rintro ⟨c, _, hmem, rfl⟩
      exact hmem
    · exact fun hmem => ⟨c, (lt_of_mem_scope hnet hmem).1, hmem, rfl⟩
  · rw [mentioning_of_le hv]
    refine iff_of_false List.not_mem_nil fun hmem => ?_
    exact absurd (lt_of_mem_scope hnet hmem).2 (Nat.not_lt.2 hv)

theorem nodup_mentioning (hnet : net.Linked) : ((ofEnabled net enabled size).mentioning v).Nodup := by
  rcases Nat.lt_or_ge v net.size with hv | hv
  · rw [mentioning_eq hv, List.nodup_flatMap]
    refine ⟨fun c _ => ?_, ?_⟩
    · rw [List.nodup_replicate]
      exact List.nodup_iff_count_le_one.1 (nodup_scope hnet) v
    · refine List.nodup_range.imp fun hne => ?_
      intro d hd hd'
      exact hne ((List.eq_of_mem_replicate hd).symm.trans (List.eq_of_mem_replicate hd'))
  · exact mentioning_of_le hv ▸ List.nodup_nil

end BayesCircuit.Bound

namespace BayesCircuit.Bound

open Collection.Ascending PseudoTree

variable {b : Bound} {u v : Variable} {vs us : List Variable} {c : Nat}

/-- The constraints of a variable are those that mention it, each once. -/
structure Indexed (b : Bound) : Prop where
  mem_mentioning : ∀ v c, c ∈ b.mentioning v ↔ v ∈ b.scope c
  nodup_mentioning : ∀ v, (b.mentioning v).Nodup
  nodup_scope : ∀ c, (b.scope c).Nodup

/-- The constraints also mention variables that have values. -/
structure Regular (b : Bound) : Prop extends Indexed b where
  pos : ∀ c, ∀ u ∈ b.scope c, 0 < b.dim u
  enabled : ∀ c, b.scope c ≠ [] → b.enabled.getD c false = true

/-- Whether a constraint mentions one of some variables. -/
def meets (b : Bound) (vs : List Variable) (c : Nat) : Bool := (b.scope c).any vs.contains

/-- The variables besides some others that are mentioned together with one of them. -/
def frontier (b : Bound) (vs : List Variable) : List Variable :=
  ofList ((vs.flatMap fun v => (b.mentioning v).flatMap b.scope).filter (!vs.contains ·))

/-- The constraints of a variable that mention none of some others. -/
def ending (b : Bound) (v : Variable) (vs : List Variable) : List Nat :=
  (b.mentioning v).filter (!b.meets vs ·)

@[simp]
theorem meets_iff : b.meets vs c = true ↔ ∃ x ∈ vs, x ∈ b.scope c := by
  simp only [meets, List.any_eq_true, List.contains_eq_mem, decide_eq_true_eq, and_comm]

theorem strict_frontier : Strict (b.frontier vs) := strict_ofList

theorem mem_frontier (B : b.Indexed) :
    u ∈ b.frontier vs ↔ u ∉ vs ∧ ∃ c, b.meets vs c ∧ u ∈ b.scope c := by
  simp only [frontier, mem_ofList, List.mem_filter, List.mem_flatMap, B.mem_mentioning, meets_iff,
    Bool.not_eq_true', List.contains_eq_mem, decide_eq_false_iff_not]
  constructor
  · rintro ⟨⟨x, hx, c, hxc, huc⟩, hu⟩
    exact ⟨hu, c, ⟨x, hx, hxc⟩, huc⟩
  · rintro ⟨hu, c, ⟨x, hx, hxc⟩, huc⟩
    exact ⟨⟨x, hx, c, hxc, huc⟩, hu⟩

theorem mem_ending (B : b.Indexed) : c ∈ b.ending v vs ↔ v ∈ b.scope c ∧ b.meets vs c = false := by
  simp [ending, B.mem_mentioning]

theorem nodup_ending (B : b.Indexed) : (b.ending v vs).Nodup := (B.nodup_mentioning v).filter _

theorem frontier_pos (B : b.Regular) (hu : u ∈ b.frontier vs) : 0 < b.dim u := by
  obtain ⟨_, c, _, hc⟩ := (mem_frontier B.toIndexed).1 hu
  exact B.pos c u hc

/-- Strict lists of the same variables are the frontier. -/
theorem eq_frontier (B : b.Indexed) (hus : Strict us)
    (h : ∀ u, u ∈ us ↔ u ∉ vs ∧ ∃ c, b.meets vs c ∧ u ∈ b.scope c) : us = b.frontier vs :=
  hus.eq_of_mem strict_frontier fun u => (h u).trans (mem_frontier B).symm

/-- The order of the variables does not matter. -/
theorem frontier_perm (B : b.Indexed) (h : us.Perm vs) : b.frontier us = b.frontier vs := by
  refine eq_frontier B strict_frontier fun u => ?_
  simp only [mem_frontier B, meets_iff, h.mem_iff]

/-! ## Costs -/

/-- The number of joint values of a frontier. -/
def widthAt (b : Bound) (vs : List Variable) : Nat := ((b.frontier vs).map b.dim).prod

/-- What the level of a variable costs, where the given number of constraints end. -/
def cost (measure : Measure) (width dim ending : Nat) : Nat :=
  match measure with
  | .nodes => width
  | .edges => width * dim
  | .weights => width * dim * ending
  | .operators => width * dim * (ending + 2)

/-- What the levels of variables below each other cost. -/
def pathCost (b : Bound) (measure : Measure) : List Variable → Nat
  | [] => 0
  | v :: vs => cost measure (b.widthAt (v :: vs)) (b.dim v) (b.ending v vs).length +
      pathCost b measure vs

mutual

/-- The number of or nodes and and nodes for a tree of variables. -/
def treeNodeCount (b : Bound) : Node → Nat
  | .mk v ns =>
      let width := b.widthAt (v :: Node.preorderAll ns)
      treeNodeCountAll b ns + (if 1 < ns.length then width * b.dim v + width else width)

def treeNodeCountAll (b : Bound) : List Node → Nat
  | [] => 0
  | n :: ns => treeNodeCount b n + treeNodeCountAll b ns

end

mutual

/-- The sizes of the frontiers of the subtrees of a tree. -/
def frontierSizes (b : Bound) : Node → List Nat
  | .mk v ns => (b.frontier (v :: Node.preorderAll ns)).length :: frontierSizesAll b ns

def frontierSizesAll (b : Bound) : List Node → List Nat
  | [] => []
  | n :: ns => frontierSizes b n ++ frontierSizesAll b ns

end

theorem frontierSizesAll_eq : ∀ ns : List Node,
    b.frontierSizesAll ns = ns.flatMap b.frontierSizes
  | [] => rfl
  | n :: ns => by rw [frontierSizesAll, frontierSizesAll_eq ns, List.flatMap_cons]

theorem treeNodeCountAll_eq : ∀ ns : List Node,
    b.treeNodeCountAll ns = (ns.map b.treeNodeCount).sum
  | [] => rfl
  | n :: ns => by rw [treeNodeCountAll, treeNodeCountAll_eq ns, List.map_cons, List.sum_cons]

/-! ## The constraints of a partition -/

variable {net : Network} {p : Partition}

/-- Whatever constraints of a network are enabled, they are indexed. -/
theorem indexed_ofEnabled (hnet : net.Linked) (enabled : Array Bool) (size : Nat) :
    (ofEnabled net enabled size).Indexed where
  mem_mentioning _ _ := mem_mentioning hnet
  nodup_mentioning _ := nodup_mentioning hnet
  nodup_scope _ := nodup_scope hnet

theorem indexed_ofPartition (hnet : net.Linked) : (ofPartition net p).Indexed :=
  indexed_ofEnabled hnet _ _

theorem regular_ofPartition (hnet : net.Linked) (hdim : ∀ v, v < net.size → 0 < net.dimOf v)
    (hp : p.Proper net) : (ofPartition net p).Regular where
  toIndexed := indexed_ofPartition hnet
  pos c u hu := by
    obtain ⟨hc, hu⟩ := (mem_scope hp).1 hu
    exact hdim u (hnet.family_lt (hp.owned_lt c hc) hu)
  enabled c hc := by
    obtain ⟨u, hu⟩ := List.exists_mem_of_ne_nil _ hc
    exact (enabled_iff hp).2 ((mem_scope hp).1 hu).1

end BayesCircuit.Bound
