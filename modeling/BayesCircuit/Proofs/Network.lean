import BayesCircuit.PseudoTree.Basic
import BayesCircuit.Proofs.Counter
import BayesCircuit.Proofs.InteractionGraph
import BayesCircuit.Proofs.Outcome

/-!
# Well-formed networks and their partitions

In a well-formed network every variable has a value, its parents are different variables besides
itself, and its table has an entry for each combination of their values. The number of the joining
root is no variable. A partition that `ofOwned` makes sees the whole family of every variable that it
owns, and nothing else (`Partition.Proper`).
-/

namespace BayesCircuit

open Collection Collection.Ascending InteractionGraph

/-- The number of values of a variable. -/
def Network.dimOf (net : Network) (v : Variable) : Nat := net.dims.getD v 0

/-- What is required of variable number `v` of a network. -/
structure Network.Node.WellFormed (net : Network) (v : Variable) (n : Network.Node) : Prop where
  states : 0 < n.states.size
  parents : ∀ p ∈ n.parents, p < net.size
  nodup : n.parents.Nodup
  self : v ∉ n.parents
  table : n.table.size = ((n.parents ++ [v]).map net.dimOf).prod

/-- What is required of a network. -/
structure Network.WellFormed (net : Network) : Prop where
  node : ∀ v (n : Network.Node), net.nodes[v]? = some n → n.WellFormed net v
  size_le : net.size ≤ PseudoTree.joiner

/-- The parents of every variable are different variables besides itself. -/
structure Network.Linked (net : Network) : Prop where
  parents : ∀ {v : Variable} {n : Network.Node}, net.nodes[v]? = some n →
    ∀ p ∈ n.parents, p < net.size
  nodup : ∀ {v : Variable} {n : Network.Node}, net.nodes[v]? = some n → n.parents.Nodup
  self : ∀ {v : Variable} {n : Network.Node}, net.nodes[v]? = some n → v ∉ n.parents

/-- What is required of a network besides its tables. -/
structure Network.Valued (net : Network) : Prop where
  linked : net.Linked
  dim_pos : ∀ {v : Variable}, v < net.size → 0 < net.dimOf v
  size_le : net.size ≤ PseudoTree.joiner

/-- Every parent is a variable. -/
def Network.Closed (net : Network) : Prop :=
  ∀ (v : Variable) (n : Network.Node), net.nodes[v]? = some n → ∀ p ∈ n.parents, p < net.size

/-- A variable is a parent of another one. -/
def Network.Parent (net : Network) (u v : Variable) : Prop :=
  ∃ n : Network.Node, net.nodes[v]? = some n ∧ u ∈ n.parents

/-- No variable is above itself. -/
def Network.Acyclic (net : Network) : Prop := ∀ v, ¬ Relation.TransGen net.Parent v v

/-- The parts of a partition go together. -/
structure Partition.Proper (net : Network) (p : Partition) : Prop where
  strict : Strict p.owned
  owned_lt : ∀ v ∈ p.owned, v < net.size
  cutset : ∀ u, u ∈ p.cutset ↔ u ∉ p.owned ∧ ∃ v ∈ p.owned, u ∈ family net v
  strict_cutset : Strict p.cutset

variable {net : Network} {p : Partition} {u v : Variable}

theorem Network.WellFormed.linked (h : net.WellFormed) : net.Linked where
  parents hn := (h.node _ _ hn).parents
  nodup hn := (h.node _ _ hn).nodup
  self hn := (h.node _ _ hn).self

theorem Network.WellFormed.dim_pos (h : net.WellFormed) (hv : v < net.size) :
    0 < net.dimOf v := by
  have hnode := h.node v net.nodes[v] (Array.getElem?_eq_getElem hv)
  have hget : net.dimOf v = net.nodes[v].states.size := by
    simp [Network.dimOf, Network.dims, Array.getD_eq_getD_getElem?, Array.getElem?_eq_getElem hv]
  rw [hget]
  exact hnode.states

theorem Network.WellFormed.valued (h : net.WellFormed) : net.Valued :=
  ⟨h.linked, h.dim_pos, h.size_le⟩

theorem Network.WellFormed.dimOf_joiner (h : net.WellFormed) :
    net.dimOf PseudoTree.joiner = 0 := by
  have hnone : net.dims[PseudoTree.joiner]? = none := by
    rw [Array.getElem?_eq_none_iff, Network.dims, Array.size_map]
    exact h.size_le
  rw [Network.dimOf, Array.getD_eq_getD_getElem?, hnone, Option.getD_none]

theorem family_eq {n : Network.Node} (hn : net.nodes[v]? = some n) :
    family net v = n.parents ++ [v] := by
  rw [family, hn]
  rfl

theorem self_mem_family : v ∈ family net v :=
  List.mem_append_right _ (List.mem_singleton_self v)

theorem Network.Linked.closed (h : net.Linked) : net.Closed :=
  fun _ _ => h.parents

theorem Network.Closed.family_lt (h : net.Closed) (hv : v < net.size)
    (hu : u ∈ family net v) : u < net.size := by
  have hn := Array.getElem?_eq_getElem hv
  rw [family_eq hn, List.mem_append, List.mem_singleton] at hu
  rcases hu with hu | rfl
  · exact h v _ hn u hu
  · exact hv

theorem Network.Linked.family_lt (h : net.Linked) (hv : v < net.size)
    (hu : u ∈ family net v) : u < net.size :=
  h.closed.family_lt hv hu

theorem Network.Linked.nodup_family (h : net.Linked) (hv : v < net.size) :
    (family net v).Nodup := by
  have hn := Array.getElem?_eq_getElem hv
  rw [family_eq hn]
  refine List.nodup_append.2 ⟨h.nodup hn, List.nodup_singleton v, fun a ha b hb => ?_⟩
  obtain rfl := List.mem_singleton.1 hb
  exact fun he => h.self hn (he ▸ ha)

theorem Network.WellFormed.family_lt (h : net.WellFormed) (hv : v < net.size)
    (hu : u ∈ family net v) : u < net.size :=
  h.linked.family_lt hv hu

theorem Network.WellFormed.nodup_family (h : net.WellFormed) (hv : v < net.size) :
    (family net v).Nodup :=
  h.linked.nodup_family hv

/-- The number of the entry that an assignment selects in the table of a variable. -/
def Network.entryIndex (net : Network) (v : Variable) (ρ : Variable → Nat) : Nat :=
  Counter.number ((family net v).map net.dimOf).reverse ((family net v).map ρ).reverse

/-- The entry that an assignment selects in the table of a variable. -/
def Network.entryAt (net : Network) (v : Variable) (ρ : Variable → Nat) : Probability :=
  ((net.nodes[v]?.map (·.table)).getD #[]).getD (net.entryIndex v ρ) .zero

namespace Partition.Proper

theorem mem_scope (h : p.Proper net) : u ∈ p.scope ↔ ∃ v ∈ p.owned, u ∈ family net v := by
  rw [Partition.scope, mem_union, h.cutset]
  constructor
  · rintro (hu | ⟨_, hu⟩)
    · exact ⟨u, hu, self_mem_family⟩
    · exact hu
  · intro hu
    by_cases howned : u ∈ p.owned
    · exact Or.inl howned
    · exact Or.inr ⟨howned, hu⟩

theorem strict_scope (h : p.Proper net) : Strict p.scope := strict_union h.strict

theorem lt_of_mem_scope (hnet : net.Closed) (h : p.Proper net) (hu : u ∈ p.scope) :
    u < net.size := by
  obtain ⟨v, hv, hu⟩ := h.mem_scope.1 hu
  exact hnet.family_lt (h.owned_lt v hv) hu

theorem scope_lt (hnet : net.Linked) (h : p.Proper net) (hu : u ∈ p.scope) : u < net.size :=
  h.lt_of_mem_scope hnet.closed hu

end Partition.Proper

theorem Network.parents_eq_ok {ns : List Variable} (h : net.parents v = .ok ns) :
    ∃ n, net.nodes[v]? = some n ∧ ns = n.parents := by
  simp only [Network.parents, Network.node, fetch, expect, bind, Except.bind, pure,
    Except.pure] at h
  cases hn : net.nodes[v]? with
  | none => simp [hn, abort] at h
  | some n =>
      simp only [hn] at h
      cases h
      exact ⟨n, rfl, rfl⟩

/-- The partition of some variables is proper. -/
theorem Partition.proper_ofOwned {vs : List Variable} (h : ofOwned net vs = .ok p) :
    p.Proper net := by
  unfold ofOwned at h
  simp only [bind, Except.bind, pure, Except.pure] at h
  split at h
  · cases h
  · rename_i parents hparents
    cases h
    obtain ⟨hlisted, hlists⟩ := Outcome.mem_of_mapM_ok hparents
    refine ⟨strict_ofList, fun v hv => ?_, fun u => ?_, strict_ofList.filter _⟩
    · obtain ⟨_, _, hns⟩ := hlisted v hv
      obtain ⟨n, hn, _⟩ := Network.parents_eq_ok hns
      exact (Array.getElem?_eq_some_iff.1 hn).1
    · rw [mem_diff, mem_ofList, List.mem_flatten, and_comm]
      refine and_congr_right fun hu => ⟨?_, ?_⟩
      · rintro ⟨ns, hmem, huns⟩
        obtain ⟨v, hv, hns⟩ := hlists ns hmem
        obtain ⟨n, hn, rfl⟩ := Network.parents_eq_ok hns
        exact ⟨v, hv, family_eq hn ▸ List.mem_append_left _ huns⟩
      · rintro ⟨v, hv, huv⟩
        obtain ⟨ns, hmem, hns⟩ := hlisted v hv
        obtain ⟨n, hn, rfl⟩ := Network.parents_eq_ok hns
        rw [family_eq hn, List.mem_append, List.mem_singleton] at huv
        rcases huv with huv | rfl
        · exact ⟨_, hmem, huv⟩
        · exact absurd hv hu

/-- Partitions of given sets are proper. -/
theorem Partitions.proper_ofSets {sets : List (List Variable)} {ps : Partitions} {i : Nat}
    (h : ofSets net sets = .ok ps) (hp : ps.parts[i]? = some p) : p.Proper net := by
  obtain ⟨parts, hparts, h⟩ := Outcome.bind_eq_ok_iff.1 h
  cases h
  have hmem : p ∈ parts := List.mem_of_getElem? (by simpa using hp)
  obtain ⟨vs, _, hvs⟩ := (Outcome.mem_of_mapM_ok hparts).2 p hmem
  exact Partition.proper_ofOwned hvs

/-! ## Two coins -/

/-- A coin and a second one that is chosen according to how the first one falls. -/
def twoCoins : Network where
  nodes := #[
    ⟨"first", #["heads", "tails"], [], #[⟨0x3FD0000000000000⟩, ⟨0x3FE8000000000000⟩]⟩,
    ⟨"second", #["heads", "tails"], [0], #[⟨0x3FE0000000000000⟩, ⟨0x3FE0000000000000⟩,
      ⟨0x3FF0000000000000⟩, ⟨0x0⟩]⟩]

theorem wellFormed_twoCoins : twoCoins.WellFormed where
  node
    | 0, n, h => by
        obtain rfl := Option.some.inj h
        exact ⟨by decide, by decide, by decide, by decide, by decide +kernel⟩
    | 1, n, h => by
        obtain rfl := Option.some.inj h
        exact ⟨by decide, by decide, by decide, by decide, by decide +kernel⟩
    | v + 2, n, h => by simp [twoCoins] at h
  size_le := by decide

/-- A network in which every variable comes after its parents is acyclic. -/
theorem Network.acyclic_of_lt (h : ∀ u v, net.Parent u v → u < v) : net.Acyclic := by
  have hlt : ∀ {u v}, Relation.TransGen net.Parent u v → u < v := by
    intro u v huv
    induction huv with
    | single hparent => exact h _ _ hparent
    | tail _ hparent ih => exact Nat.lt_trans ih (h _ _ hparent)
  exact fun v hv => Nat.lt_irrefl v (hlt hv)

theorem acyclic_twoCoins : twoCoins.Acyclic := by
  apply Network.acyclic_of_lt
  rintro u (_ | _ | v) ⟨n, hn, hu⟩
  · obtain rfl := Option.some.inj hn
    cases hu
  · obtain rfl := Option.some.inj hn
    obtain rfl := List.mem_singleton.1 hu
    exact Nat.zero_lt_one
  · cases hn

theorem ofOwned_twoCoins : Partition.ofOwned twoCoins [0, 1] = .ok ⟨[0, 1], []⟩ := rfl

end BayesCircuit
