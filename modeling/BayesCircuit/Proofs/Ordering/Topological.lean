import BayesCircuit.Proofs.Collection.Search
import BayesCircuit.Proofs.FloatSum
import BayesCircuit.Proofs.Ordering.Exhaustive
import BayesCircuit.Proofs.Ordering.Sorting
import BayesCircuit.Proofs.Ordering.Timed
import Mathlib.Data.Fintype.Card
import Mathlib.Data.Fintype.EquivFin
import Mathlib.Order.WellFounded

/-!
# Topological sorts

Depth-first sorting of an acyclic network places every variable of a partition, each after its
parents: whatever has been placed, the stack holds those of the others that wait for no parent. Of
the edges that the searches follow, they rely on what `Directed` lists. The score of an ordering is
finite, so the best sort is one of those that were tried.
-/

namespace BayesCircuit

open Collection BayesCircuit.Bound InteractionGraph
open scoped List

variable {net : Network} {p : Partition} {u v c : Variable}

/-- Among some variables of an acyclic network there is one with no parent among them. -/
theorem Network.Acyclic.exists_top (h : net.Acyclic) (waits : Variable → Prop) (hv : waits v)
    (hlt : ∀ v, waits v → v < net.size) : ∃ v, waits v ∧ ∀ u, net.Parent u v → ¬ waits u := by
  let above : Fin net.size → Fin net.size → Prop :=
    fun u v => Relation.TransGen net.Parent u.1 v.1
  have htrans : IsTrans _ above := ⟨fun _ _ _ => Relation.TransGen.trans⟩
  have hirrefl : Std.Irrefl above := ⟨fun u => h u.1⟩
  obtain ⟨top, htop, hmin⟩ := (Finite.wellFounded_of_trans_of_irrefl above).has_min
    {u | waits u.1} ⟨⟨v, hlt v hv⟩, hv⟩
  refine ⟨top.1, htop, fun u hu hwaits => ?_⟩
  exact hmin ⟨u, hlt u hwaits⟩ hwaits (.single hu)

theorem Network.Parent.eq {n : Network.Node} (hn : net.nodes[v]? = some n) :
    net.Parent u v ↔ u ∈ n.parents :=
  ⟨fun ⟨_, hn', hu⟩ => Option.some.inj (hn'.symm.trans hn) ▸ hu, fun hu => ⟨n, hn, hu⟩⟩

namespace Ordering.Task

variable {waiting : Array Nat} {stack placed roots o : List Variable} {expired : Bool}
variable {log : Float → Float}

/-! ## Releasing the children of a variable -/

theorem getD_countDown : (waiting.setIfInBounds c (waiting.getD c 0 - 1)).getD u 0 =
    if u = c then waiting.getD c 0 - 1 else waiting.getD u 0 :=
  getD_set fun hsize => by simp [Array.getD_eq_getD_getElem?, Array.getElem?_eq_none hsize]

/-- The children of a variable are counted down; those that wait for no other parent are stacked. -/
theorem release_spec : ∀ (cs : List Variable) (waiting : Array Nat) (stack : List Variable),
    cs.Nodup → ∃ free, (release cs waiting stack).2 = free ++ stack ∧
      CountsDown (waiting.getD · 0) ((release cs waiting stack).1.getD · 0) cs free
  | [], waiting, stack, _ => ⟨[], rfl, .nil⟩
  | c :: cs, waiting, stack, hnodup => by
      obtain ⟨hc, hcs⟩ := List.nodup_cons.1 hnodup
      rw [release]
      by_cases hzero : waiting.getD c 0 = 0
      · obtain ⟨free, hstack, hdown⟩ := release_spec cs waiting stack hcs
        have hcons : CountsDown (waiting.getD · 0) ((release cs waiting stack).1.getD · 0) (c :: cs)
            (if waiting.getD c 0 = 1 then c :: free else free) := .cons hc <| by
          convert hdown using 2 with x
          split
          · rename_i hx
            rw [hx, hzero]
          · rfl
        rw [if_neg (by omega)] at hcons
        rw [if_pos (beq_iff_eq.2 hzero)]
        exact ⟨free, hstack, hcons⟩
      · obtain ⟨free, hstack, hdown⟩ := release_spec cs
          (waiting.setIfInBounds c (waiting.getD c 0 - 1))
          (if waiting.getD c 0 == 1 then c :: stack else stack) hcs
        simp only [getD_countDown] at hdown
        have hcons : CountsDown (waiting.getD · 0) _ (c :: cs)
            (if waiting.getD c 0 = 1 then c :: free else free) := .cons hc hdown
        rw [if_neg (by simpa using hzero)]
        by_cases hone : waiting.getD c 0 = 1
        · rw [if_pos hone] at hcons
          refine ⟨free ++ [c], ?_, hcons.perm (List.perm_append_singleton c free)⟩
          rw [hstack, if_pos (beq_iff_eq.2 hone), List.append_assoc]
          rfl
        · rw [if_neg hone] at hcons
          refine ⟨free, ?_, hcons⟩
          rw [hstack, if_neg (by simpa using hone)]

/-! ## The edges of a task -/

theorem scope_perm (hp : p.Proper net) : (ofPartition net p expired log).scope ~ p.scope := by
  refine (List.perm_ext_iff_of_nodup ?_ hp.strict_scope.nodup).2 fun v => ?_
  · refine List.nodup_append.2 ⟨hp.strict_cutset.nodup, hp.strict.nodup, ?_⟩
    rintro v hv w hw rfl
    exact ((hp.cutset v).1 hv).1 hw
  · rw [scope, List.mem_append, Partition.scope, Ascending.mem_union, or_comm]
    rfl

theorem sound_ofPartition (hnet : net.Linked) (hp : p.Proper net) :
    (ofPartition net p expired log).Sound where
  indexed := indexed_ofPartition hnet
  nodup := (scope_perm hp).nodup_iff.2 hp.strict_scope.nodup
  size_eq := by
    rw [scope, List.length_append]
    exact Nat.add_comm _ _
  covers c u hu := (scope_perm hp).mem_iff.2 (hp.mem_scope.2 ⟨c, Bound.mem_scope hp |>.1 hu⟩)
  lt v hv := hp.scope_lt hnet ((scope_perm hp).mem_iff.1 hv)

theorem mem_parents : u ∈ (net.nodes[v]?.map (·.parents)).getD [] ↔ net.Parent u v := by
  cases hn : net.nodes[v]? with
  | none =>
      refine iff_of_false List.not_mem_nil ?_
      rintro ⟨n, hn', _⟩
      cases hn.symm.trans hn'
  | some n => exact (Network.Parent.eq hn).symm

theorem nodup_parents (hnet : net.Linked) : ((net.nodes[v]?.map (·.parents)).getD []).Nodup := by
  cases hn : net.nodes[v]? with
  | none => exact List.nodup_nil
  | some n => exact hnet.nodup hn

theorem childrenOf_eq (hu : u < net.size) : (ofPartition net p expired log).childrenOf u =
    p.owned.flatMap fun c =>
      List.replicate (((net.nodes[c]?.map (·.parents)).getD []).count u) c := by
  rw [childrenOf, ofPartition]
  simp only [Array.getD_eq_getD_getElem?, Array.getElem?_map, Array.getElem?_range, if_pos hu,
    Option.map_some, Option.getD_some]

theorem mem_childrenOf (hu : u < net.size) :
    c ∈ (ofPartition net p expired log).childrenOf u ↔ c ∈ p.owned ∧ net.Parent u c := by
  rw [childrenOf_eq hu, List.mem_flatMap]
  simp only [List.mem_replicate, ne_eq, List.count_eq_zero, not_not, mem_parents]
  constructor
  · rintro ⟨c, hc, hparent, rfl⟩
    exact ⟨hc, hparent⟩
  · rintro ⟨hc, hparent⟩
    exact ⟨c, hc, hparent, rfl⟩

theorem nodup_childrenOf (hnet : net.Linked) (hp : p.Proper net) (hu : u < net.size) :
    ((ofPartition net p expired log).childrenOf u).Nodup := by
  rw [childrenOf_eq hu, List.nodup_flatMap]
  refine ⟨fun c _ => ?_, ?_⟩
  · rw [List.nodup_replicate]
    exact List.nodup_iff_count_le_one.1 (nodup_parents hnet) u
  · refine hp.strict.nodup.imp fun hne x hx hy => ?_
    exact hne ((List.eq_of_mem_replicate hx).symm.trans (List.eq_of_mem_replicate hy))

/-- The parents of an owned variable. -/
def ownedParents (net : Network) (p : Partition) (v : Variable) : List Variable :=
  if v ∈ p.owned then (net.nodes[v]?.map (·.parents)).getD [] else []

theorem mem_ownedParents : u ∈ ownedParents net p v ↔ v ∈ p.owned ∧ net.Parent u v := by
  rw [ownedParents]
  split
  · rename_i hv
    rw [mem_parents, and_iff_right hv]
  · rename_i hv
    exact iff_of_false List.not_mem_nil fun h => hv h.1

theorem nodup_ownedParents (hnet : net.Linked) : (ownedParents net p v).Nodup := by
  rw [ownedParents]
  split
  · exact nodup_parents hnet
  · exact List.nodup_nil

theorem ownedParents_subset (hp : p.Proper net) : ownedParents net p v ⊆ p.scope := by
  intro u hu
  obtain ⟨hv, n, hn, hun⟩ := mem_ownedParents.1 hu
  exact hp.mem_scope.2 ⟨v, hv, family_eq hn ▸ List.mem_append_left _ hun⟩

theorem parentCounts_eq : (ofPartition net p expired log).parentCounts.getD v 0 =
    (ownedParents net p v).length := by
  rw [ofPartition, ownedParents]
  simp only [Array.getD_eq_getD_getElem?, Array.getElem?_mapIdx, List.contains_iff_mem]
  cases net.nodes[v]? with
  | none => simp
  | some n => split <;> simp

/-- The roots are the variables that wait for no parent. -/
theorem mem_roots (hp : p.Proper net) :
    v ∈ (ofPartition net p expired log).roots ↔ v ∈ p.scope ∧ ownedParents net p v = [] := by
  have hcutset : v ∈ p.cutset ↔ v ∈ p.scope ∧ v ∉ p.owned := by
    rw [hp.cutset, ← hp.mem_scope, and_comm]
  have howned : v ∈ p.owned → v ∈ p.scope := fun hv => hp.mem_scope.2 ⟨v, hv, self_mem_family⟩
  rw [Task.roots, List.mem_append, List.mem_filter, beq_iff_eq, parentCounts_eq,
    List.length_eq_zero_iff]
  change v ∈ p.owned ∧ _ ∨ v ∈ p.cutset ↔ _
  rw [hcutset, ownedParents]
  split
  · tauto
  · tauto

theorem nodup_roots (hp : p.Proper net) : (ofPartition net p expired log).roots.Nodup := by
  refine List.nodup_append.2 ⟨hp.strict.nodup.filter _, hp.strict_cutset.nodup, ?_⟩
  rintro v hv w hw rfl
  exact ((hp.cutset v).1 hw).1 (List.mem_filter.1 hv).1

/-- The edges of a task lead to a variable from those that have to come before it. There are no
cycles, and the roots are the variables to which no edge leads. -/
structure Directed (t : Task) (ns : List Variable) (before : Variable → List Variable) : Prop where
  nodup : ns.Nodup
  lt : ∀ v ∈ ns, v < t.net.size
  size : t.children.size = t.net.size
  children : ∀ u ∈ ns, ∀ c, c ∈ t.childrenOf u ↔ c ∈ ns ∧ u ∈ before c
  nodup_children : ∀ u ∈ ns, (t.childrenOf u).Nodup
  subset : ∀ v ∈ ns, before v ⊆ ns
  nodup_before : ∀ v, (before v).Nodup
  counts : ∀ v, t.parentCounts.getD v 0 = (before v).length
  grounded : Grounded ns before
  roots : ∀ v, v ∈ t.roots ↔ v ∈ ns ∧ before v = []
  nodup_roots : t.roots.Nodup

theorem directed_ofPartition (hnet : net.Linked) (hacyclic : net.Acyclic) (hp : p.Proper net) :
    (ofPartition net p expired log).Directed p.scope (ownedParents net p) where
  nodup := hp.strict_scope.nodup
  lt _ hv := hp.scope_lt hnet hv
  size := by
    rw [ofPartition, Array.size_map, Array.size_range]
  children u hu c := by
    rw [mem_childrenOf (hp.scope_lt hnet hu), mem_ownedParents]
    exact ⟨fun h => ⟨hp.mem_scope.2 ⟨c, h.1, self_mem_family⟩, h⟩, fun h => h.2⟩
  nodup_children u hu := nodup_childrenOf hnet hp (hp.scope_lt hnet hu)
  subset _ _ := ownedParents_subset hp
  nodup_before _ := nodup_ownedParents hnet
  counts _ := parentCounts_eq
  grounded us hus hne := by
    obtain ⟨v, hv⟩ := List.exists_mem_of_ne_nil us hne
    obtain ⟨top, htop, hnone⟩ := hacyclic.exists_top (· ∈ us) hv fun v hv =>
      hp.scope_lt hnet (hus hv)
    exact ⟨top, htop, fun u hu => hnone u (mem_ownedParents.1 hu).2⟩
  roots _ := mem_roots hp
  nodup_roots := nodup_roots hp

namespace Directed

variable {t : Task} {ns : List Variable} {before : Variable → List Variable}

theorem length_le (D : t.Directed ns before) : ns.length ≤ t.net.size := by
  have hsub := List.subperm_of_subset D.nodup fun v hv => List.mem_range.2 (D.lt v hv)
  have hlength := hsub.length_le
  rwa [List.length_range] at hlength

/-! ## Sorting -/

/-- A sort starts with the roots. -/
theorem sorts_start (D : t.Directed ns before) (hroots : roots ~ t.roots) :
    Sorts ns before (t.parentCounts.getD · 0) roots [] :=
  Sorts.start (hroots.nodup_iff.2 D.nodup_roots) (fun v => hroots.mem_iff.trans (D.roots v))
    fun v _ => D.counts v

/-- Placing the top of the stack releases its children. -/
theorem sorts_release (D : t.Directed ns before)
    (K : Sorts ns before (waiting.getD · 0) (v :: stack) placed) :
    Sorts ns before ((release (t.childrenOf v).reverse waiting stack).1.getD · 0)
      (release (t.childrenOf v).reverse waiting stack).2 (v :: placed) := by
  have hv := K.subset (List.mem_cons_self ..)
  obtain ⟨free, hstack, hdown⟩ := release_spec (t.childrenOf v).reverse waiting stack
    (List.nodup_reverse.2 (D.nodup_children v hv))
  rw [hstack]
  exact K.place D.nodup_before (fun c => List.mem_reverse.trans (D.children v hv c)) hdown

theorem placeStack_spec (D : t.Directed ns before) :
    ∀ {fuel : Nat} {waiting : Array Nat} {stack placed : List Variable},
      Sorts ns before (waiting.getD · 0) stack placed → ns.length ≤ fuel + placed.length →
      Sorted ns before (placed.reverse ++ t.placeStack fuel waiting stack)
  | 0, waiting, stack, placed, K, hfuel => by
      rw [placeStack, List.append_nil]
      exact K.complete_of_length (by rwa [Nat.zero_add] at hfuel)
  | fuel + 1, waiting, [], placed, K, _ => by
      change Sorted ns before (placed.reverse ++ [])
      rw [List.append_nil]
      exact K.complete D.nodup D.grounded D.subset
  | fuel + 1, waiting, v :: stack, placed, K, hfuel => by
      have hleft : ns.length ≤ fuel + (v :: placed).length := by
        rw [List.length_cons]
        omega
      have hrest := D.placeStack_spec (D.sorts_release K) hleft
      rwa [List.reverse_cons, List.append_assoc] at hrest

theorem depthFirst_sorted (D : t.Directed ns before) (hroots : roots ~ t.roots) :
    Sorted ns before (t.depthFirst roots) :=
  D.placeStack_spec (D.sorts_start hroots) (D.length_le.trans (Nat.le_add_left _ _))

end Directed

/-! ## The best sort -/

variable {t : Task} {vs : List Variable} {e : Elimination}

/-- The width of a level has a small logarithm. -/
theorem small_logWidth (S : t.Sound)
    (hlog : ∀ v ∈ t.scope, t.log (Float.ofNat (t.bound.dim v)) ≤ 64) (W : Walked t.bound vs e) :
    FloatSum.Small 64 (e.logWidth t.bound t.log) := by
  have hsub : ∀ u ∈ e.spanning, u ∈ t.scope := by
    intro u hu
    rw [W.spanning, mem_frontier S.indexed] at hu
    obtain ⟨-, c, -, hu⟩ := hu
    exact S.covers c hu
  rw [Elimination.logWidth]
  generalize e.spanning = us at hsub
  have hfold : ∀ {us : List Variable} {sum : Float}, (∀ u ∈ us, u ∈ t.scope) →
      FloatSum.Small 64 sum → FloatSum.Small 64
        (us.foldl (fun sum s => sum + t.log (Float.ofNat (t.bound.dim s))) sum) := by
    intro us
    induction us with
    | nil => exact fun _ hsum => hsum
    | cons u us ih =>
        intro sum hus hsum
        obtain ⟨hu, hus⟩ := List.forall_mem_cons.1 hus
        exact ih hus (hsum.add (by decide) (by decide) (FloatSum.small_of_le (hlog u hu)))
  exact hfold hsub FloatSum.small_zero

theorem small_scoreFrom (S : t.Sound)
    (hlog : ∀ v ∈ t.scope, t.log (Float.ofNat (t.bound.dim v)) ≤ 64) :
    ∀ {vs : List Variable} {e : Elimination} {sum : Float}, vs.Nodup → Walked t.bound vs e →
      FloatSum.Small 118 sum → FloatSum.Small 118 (scoreFrom t.bound t.log vs e sum)
  | [], _, _, _, _, hsum => hsum
  | v :: vs, e, sum, hnodup, W, hsum => by
      obtain ⟨hv, hvs⟩ := List.nodup_cons.1 hnodup
      obtain ⟨e', hvisit, W'⟩ := W.visit S.indexed hv
      rw [scoreFrom, hvisit]
      exact small_scoreFrom S hlog hvs W'
        (hsum.add (by decide) (by decide) (small_logWidth S hlog W))

/-- The score of every ordering is less than the greatest one. -/
theorem score_lt_maxScore (S : t.Sound)
    (hlog : ∀ v ∈ t.scope, t.log (Float.ofNat (t.bound.dim v)) ≤ 64) (ho : o ~ t.scope) :
    t.bound.score o t.log < maxScore := by
  have hmax : maxScore = .ofBits 0x7FEFFFFFFFFFFFFF := by decide +kernel
  rw [hmax]
  exact (small_scoreFrom S hlog (ho.nodup_iff.2 S.nodup) (S.walked_start ho)
    FloatSum.small_zero).lt_greatest (by decide)

/-- The score of every sort is less than the greatest one. -/
theorem score_depthFirst_lt (hnet : net.Linked) (hacyclic : net.Acyclic) (hp : p.Proper net)
    (hlog : ∀ v ∈ p.scope, log (Float.ofNat (net.dimOf v)) ≤ 64) {roots : List Variable}
    (hroots : roots ~ (ofPartition net p expired log).roots) :
    (ofPartition net p expired log).bound.score
      ((ofPartition net p expired log).depthFirst roots) log < maxScore := by
  have D : (ofPartition net p expired log).Directed p.scope (ownedParents net p) :=
    directed_ofPartition hnet hacyclic hp
  have hscope : (ofPartition net p expired log).scope ~ p.scope := scope_perm hp
  exact score_lt_maxScore (sound_ofPartition hnet hp) (fun v hv => hlog v (hscope.mem_iff.1 hv))
    ((D.depthFirst_sorted hroots).perm.trans hscope.symm)

/-- The depth-first sort for some order of the roots. -/
def IsSort (t : Task) (o : List Variable) : Prop :=
  ∃ roots, roots ~ t.roots ∧ o = t.depthFirst roots

section

variable {κ : Type} {look : StateM κ Bool}

/-- Whatever the clock says, the best of the sorts is one of them: the first one has a score below
the greatest. -/
theorem topologicalFrom_always
    (hscore : ∀ roots, roots ~ t.roots → t.bound.score (t.depthFirst roots) t.log < maxScore) :
    ∀ {fuel : Nat} {roots : List Variable} {best : List Variable × Float}, roots ~ t.roots →
      t.IsSort best.1 ∨ best.2 = maxScore ∧ 0 < fuel →
      Always (Timed.topologicalFrom look t fuel roots best) t.IsSort
  | 0, roots, best, _, hbest => .pure (hbest.resolve_right fun h => absurd h.2 (Nat.lt_irrefl 0))
  | fuel + 1, roots, best, hroots, hbest => by
      have hnext : t.IsSort (if t.bound.score (t.depthFirst roots) t.log < best.2
          then (t.depthFirst roots, t.bound.score (t.depthFirst roots) t.log) else best).1 := by
        split
        · exact ⟨roots, hroots, rfl⟩
        · rename_i hworse
          refine hbest.resolve_right fun h => hworse ?_
          rw [h.1]
          exact hscore roots hroots
      rw [Timed.topologicalFrom]
      refine .ite (fun _ => .pure hnext) fun _ => .step fun expired => ?_
      refine .ite (fun _ => .pure hnext) fun _ => ?_
      exact topologicalFrom_always hscore (Permutation.perm_step.trans hroots) (Or.inl hnext)

theorem orderCount_pos : ∀ n, 0 < orderCount n
  | 0 => Nat.one_pos
  | n + 1 => Nat.mul_pos n.succ_pos (orderCount_pos n)

theorem topological_always
    (hscore : ∀ roots, roots ~ t.roots → t.bound.score (t.depthFirst roots) t.log < maxScore) :
    Always (Timed.topological look t) t.IsSort :=
  topologicalFrom_always hscore (.refl _) (Or.inr ⟨rfl, orderCount_pos _⟩)

end

theorem topological_perm (S : t.Sound)
    (hlog : ∀ v ∈ t.scope, t.log (Float.ofNat (t.bound.dim v)) ≤ 64)
    (hsort : ∀ roots, roots ~ t.roots → t.depthFirst roots ~ t.scope) :
    t.topological ~ t.scope := by
  have hbest : Always (pure t.topological : StateM Unit _) t.IsSort := by
    rw [← Timed.topological_pure]
    exact topological_always fun roots hroots => score_lt_maxScore S hlog (hsort roots hroots)
  obtain ⟨roots, hroots, hbest⟩ := hbest ()
  change t.topological = t.depthFirst roots at hbest
  exact hbest ▸ hsort roots hroots

end Ordering.Task
end BayesCircuit
