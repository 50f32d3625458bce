import BayesCircuit.Proofs.Ordering.Interrupted

/-!
# Which orders of the roots are tried

A search that steps from one order of the roots to the next tries those that do not come before the
first one, and returns the best of them. `components` starts from the roots in ascending order, so
it tries all orders (`components_least`). `topological` starts from the owned roots followed by the
cutset (`topological_least`). It tries all orders if no variable of the cutset is less than an owned
root, for example without a cutset, and only a single one if the roots descend.

The scores of sorts are floating-point numbers. All that matters about them is that comparing them
is irreflexive and transitive.
-/

namespace BayesCircuit.FloatOrder

open Float.Model Float.Model.UnpackedFloat

/-- Where a number stands among the others: by sign, exponent and mantissa. -/
def rank : UnpackedFloat → ℤ ×ₗ ℤ ×ₗ ℤ
  | .notANumber | .zero _ => toLex (0, toLex (0, 0))
  | .infinity .negative => toLex (-2, toLex (0, 0))
  | .infinity .positive => toLex (2, toLex (0, 0))
  | .finite .negative m e _ => toLex (-1, toLex (-e, -m))
  | .finite .positive m e _ => toLex (1, toLex (e, m))

theorem lt_iff_rank (x y : UnpackedFloat) :
    x.lt y = true ↔ x ≠ .notANumber ∧ y ≠ .notANumber ∧ rank x < rank y := by
  have hsign : compare Sign.negative Sign.positive = .lt := rfl
  rw [UnpackedFloat.lt, beq_iff_eq]
  rcases x with (_ | _) | _ | _ | ⟨_ | _, m, e, _⟩ <;>
    rcases y with (_ | _) | _ | _ | ⟨_ | _, m', e', _⟩ <;>
      simp [UnpackedFloat.compare, rank, Prod.Lex.toLex_lt_toLex, Ordering.then_eq_lt,
        Ordering.then_eq_gt, compare_lt_iff_lt, compare_gt_iff_gt, hsign]

theorem lt_iff {x y : Float} : x < y ↔ x.toModel.unpack ≠ .notANumber ∧
    y.toModel.unpack ≠ .notANumber ∧ rank x.toModel.unpack < rank y.toModel.unpack := by
  rw [← lt_iff_rank]
  exact decide_eq_true_iff

theorem irrefl (x : Float) : ¬ x < x := fun h => lt_irrefl _ (lt_iff.1 h).2.2

theorem trans {x y z : Float} (hxy : x < y) (hyz : y < z) : x < z := by
  obtain ⟨hx, -, hxy⟩ := lt_iff.1 hxy
  obtain ⟨-, hz, hyz⟩ := lt_iff.1 hyz
  exact lt_iff.2 ⟨hx, hz, hxy.trans hyz⟩

end BayesCircuit.FloatOrder

namespace BayesCircuit.Ordering.Task

open Collection Permutation
open scoped List

variable {t : Task} {roots o : List Variable} {tried : Finset (List Variable)}

theorem orderCount_eq_factorial : ∀ n, orderCount n = n.factorial
  | 0 => rfl
  | n + 1 => by rw [orderCount, orderCount_eq_factorial n, Nat.factorial_succ]

/-- There is time for all orders ahead. -/
theorem card_ahead_le_orderCount : (ahead roots).card ≤ orderCount roots.length :=
  card_ahead_le.trans_eq (orderCount_eq_factorial _).symm

theorem card_ahead_pos : 0 < (ahead roots).card := Finset.card_pos.2 ⟨roots, mem_ahead_self⟩

/-! ## The depth-first sorts -/

/-- The score of the sort for an order of the roots. -/
def sortScore (t : Task) (roots : List Variable) : Float :=
  t.bound.score (t.depthFirst roots) t.log

/-- What trying some orders of the roots makes of the best ordering: either the sort for one of them
has a less score and none of the others beats it, or none beats the ordering it had. -/
inductive Picked (t : Task) (tried : Finset (List Variable)) (best : List Variable × Float) :
    List Variable → Prop
  | sort {r : List Variable} : r ∈ tried → t.sortScore r < best.2 →
      (∀ r' ∈ tried, ¬ t.sortScore r' < t.sortScore r) → Picked t tried best (t.depthFirst r)
  | kept : (∀ r ∈ tried, ¬ t.sortScore r < best.2) → Picked t tried best best.1

/-- Trying one order before the others. -/
theorem Picked.insert {best : List Variable × Float} (h : Picked t tried
      (if t.sortScore roots < best.2 then (t.depthFirst roots, t.sortScore roots) else best) o) :
    Picked t (insert roots tried) best o := by
  split at h
  · rename_i hlt
    cases h with
    | sort hr hless hbest =>
        refine .sort (Finset.mem_insert_of_mem hr) (FloatOrder.trans hless hlt) ?_
        refine (Finset.forall_mem_insert ..).2 ⟨fun hroots => ?_, hbest⟩
        exact FloatOrder.irrefl _ (FloatOrder.trans hroots hless)
    | kept hbest =>
        refine .sort (Finset.mem_insert_self ..) hlt ?_
        exact (Finset.forall_mem_insert ..).2 ⟨FloatOrder.irrefl _, hbest⟩
  · rename_i hnot
    cases h with
    | sort hr hless hbest =>
        refine .sort (Finset.mem_insert_of_mem hr) hless ?_
        refine (Finset.forall_mem_insert ..).2 ⟨fun hroots => ?_, hbest⟩
        exact hnot (FloatOrder.trans hroots hless)
    | kept hbest => exact .kept ((Finset.forall_mem_insert ..).2 ⟨hnot, hbest⟩)

theorem topologicalFrom_picked (htime : t.expired = false) :
    ∀ {fuel : Nat} {roots : List Variable} {best : List Variable × Float},
      (ahead roots).card ≤ fuel → Picked t (ahead roots) best (topologicalFrom t fuel roots best)
  | 0, roots, best, hfuel => absurd card_ahead_pos hfuel.not_gt
  | fuel + 1, roots, best, hfuel => by
      rw [topologicalFrom, htime]
      simp only [Bool.or_false]
      cases hnext : next roots with
      | none =>
          rw [step_of_next_eq_none hnext, ahead_of_descends (next_eq_none.1 hnext)]
          exact .insert (.kept fun r hr => absurd hr (Finset.notMem_empty r))
      | some roots' =>
          rw [card_ahead_of_next hnext] at hfuel
          rw [step_of_next hnext, ahead_of_next hnext]
          exact .insert (topologicalFrom_picked htime (Nat.le_of_succ_le_succ hfuel))

/-- The sort for one of the orders ahead of the listed roots is returned, and none of the others beats
it. -/
theorem topological_least (htime : t.expired = false)
    (hscore : t.sortScore t.roots < maxScore) : ∃ roots ∈ ahead t.roots,
      t.topological = t.depthFirst roots ∧
        ∀ roots' ∈ ahead t.roots, ¬ t.sortScore roots' < t.sortScore roots := by
  have hpicked : Picked t (ahead t.roots) ([], maxScore) t.topological :=
    topologicalFrom_picked htime card_ahead_le_orderCount
  generalize t.topological = o at hpicked
  cases hpicked with
  | sort hr _ hbest => exact ⟨_, hr, rfl, hbest⟩
  | kept hbest => exact absurd hscore (hbest t.roots mem_ahead_self)

/-- If the roots descend, no other order is tried. -/
theorem topological_of_descends (htime : t.expired = false)
    (hscore : t.sortScore t.roots < maxScore) (h : t.roots.Pairwise (· ≥ ·)) :
    t.topological = t.depthFirst t.roots := by
  obtain ⟨roots, hroots, heq, -⟩ := topological_least htime hscore
  rw [ahead_of_descends h, Finset.mem_singleton] at hroots
  rw [heq, hroots]

/-- A cause that the partition does not own, its effect, and an outcome that depends on the effect
and on another root. -/
def sharedOutcome : Task :=
  ofPartition ⟨#[⟨"cause", #["no", "yes"], [], #[⟨0x3FE0000000000000⟩, ⟨0x3FE0000000000000⟩]⟩,
    ⟨"root", #["no", "yes"], [], #[⟨0x3FE0000000000000⟩, ⟨0x3FE0000000000000⟩]⟩,
    ⟨"effect", #["no", "yes"], [0], Array.replicate 4 ⟨0x3FE0000000000000⟩⟩,
    ⟨"outcome", #["no", "yes"], [1, 2], Array.replicate 8 ⟨0x3FE0000000000000⟩⟩]⟩
    ⟨[1, 2, 3], [0]⟩ false fun _ => 0.6931471805599453

/-- The sort for the order of the roots that is not tried has a less score. -/
example : sharedOutcome.topological = sharedOutcome.depthFirst [1, 0] ∧
    sharedOutcome.sortScore [0, 1] < sharedOutcome.sortScore [1, 0] :=
  ⟨topological_of_descends rfl (by decide +kernel) (by decide), by decide +kernel⟩

/-- If the roots ascend, all orders are tried. -/
theorem topological_of_ascends (htime : t.expired = false)
    (hscore : t.sortScore t.roots < maxScore) (h : t.roots.Pairwise (· ≤ ·)) :
    ∃ roots, roots ~ t.roots ∧ t.topological = t.depthFirst roots ∧
      ∀ roots', roots' ~ t.roots → ¬ t.sortScore roots' < t.sortScore roots := by
  obtain ⟨roots, hroots, heq, hbest⟩ := topological_least htime hscore
  refine ⟨roots, (mem_ahead_of_ascends h).1 hroots, heq, fun roots' hroots' => ?_⟩
  exact hbest roots' ((mem_ahead_of_ascends h).2 hroots')

/-! ## The orderings by components -/

/-- The bound of the ordering by components for an order of the roots. -/
def componentBound (t : Task) (roots : List Variable) : Nat :=
  t.bound.compute .nodes (t.componentOrdering roots)

/-- An ordering of the partition with its bound. -/
def Rated (t : Task) (b : List Variable × Nat) : Prop :=
  b.1 ~ t.scope ∧ b.2 = t.bound.compute .nodes b.1

/-- One turn of the search keeps the better one of two orderings, the new one or the one it had. -/
theorem componentsFrom_turn (fuel : Nat) {best : Option (List Variable × Nat)}
    (ho : t.componentOrdering roots ~ t.scope) (hbest : ∀ b ∈ best, t.Rated b) :
    ∃ b : List Variable × Nat, t.Rated b ∧ (b ∈ best ∨ b.1 = t.componentOrdering roots) ∧
      (b.2 ≤ t.componentBound roots ∧ ∀ b' ∈ best, b.2 ≤ b'.2) ∧
      t.componentsFrom (fuel + 1) roots best =
        if !(Permutation.step roots).1 || t.expired then b.1
        else t.componentsFrom fuel (Permutation.step roots).2 (some b) := by
  have hnew : t.Rated (t.componentOrdering roots, t.componentBound roots) := ⟨ho, rfl⟩
  cases best with
  | none =>
      exact ⟨_, hnew, Or.inr rfl, ⟨le_refl _, fun _ h => absurd h (Option.not_mem_none _)⟩, rfl⟩
  | some b =>
      have hb := hbest b rfl
      refine ⟨if b.1.isEmpty || t.componentBound roots < b.2 then
        (t.componentOrdering roots, t.componentBound roots) else b, ?_, ?_, ?_, rfl⟩
      · split
        · exact hnew
        · exact hb
      · split
        · exact Or.inr rfl
        · exact Or.inl rfl
      · simp only [Option.mem_some_iff, forall_eq']
        split
        · rename_i hreplaced
          rw [Bool.or_eq_true, List.isEmpty_iff, decide_eq_true_eq] at hreplaced
          rcases hreplaced with hempty | hlt
          · -- Nothing is to be ordered, so the orderings are the same.
            have hsame : b.1 = t.componentOrdering roots :=
              hempty.trans (ho.trans (hempty ▸ hb.1.symm)).eq_nil.symm
            exact ⟨le_refl _, (hb.2.trans (congrArg (t.bound.compute .nodes) hsame)).ge⟩
          · exact ⟨le_refl _, hlt.le⟩
        · rename_i hkept
          rw [Bool.or_eq_true, not_or, decide_eq_true_eq, not_lt] at hkept
          exact ⟨hkept.2, le_refl _⟩

/-- What trying some orders of the roots makes of the best ordering by components. -/
structure Chosen (t : Task) (tried : Finset (List Variable)) (best : Option (List Variable × Nat))
    (o : List Variable) : Prop where
  found : (∃ b ∈ best, o = b.1) ∨ ∃ r ∈ tried, o = t.componentOrdering r
  le : ∀ b ∈ best, t.bound.compute .nodes o ≤ b.2
  least : ∀ r ∈ tried, t.bound.compute .nodes o ≤ t.componentBound r

/-- Trying one order before the others. -/
theorem Chosen.insert {best : Option (List Variable × Nat)} {b : List Variable × Nat}
    (h : Chosen t tried (some b) o) (hfound : b ∈ best ∨ b.1 = t.componentOrdering roots)
    (hle : b.2 ≤ t.componentBound roots ∧ ∀ b' ∈ best, b.2 ≤ b'.2) :
    Chosen t (insert roots tried) best o where
  found := by
    rcases h.found with ⟨_, hb, rfl⟩ | ⟨r, hr, rfl⟩
    · obtain rfl := Option.some.inj hb
      refine hfound.imp (fun hb => ⟨b, hb, rfl⟩) fun hb => ?_
      exact ⟨roots, Finset.mem_insert_self .., hb⟩
    · exact Or.inr ⟨r, Finset.mem_insert_of_mem hr, rfl⟩
  le b' hb' := (h.le b rfl).trans (hle.2 b' hb')
  least := (Finset.forall_mem_insert ..).2 ⟨(h.le b rfl).trans hle.1, h.least⟩

theorem componentsFrom_chosen (htime : t.expired = false)
    (hperm : ∀ roots, roots ~ t.roots → t.componentOrdering roots ~ t.scope) :
    ∀ {fuel : Nat} {roots : List Variable} {best : Option (List Variable × Nat)},
      roots ~ t.roots → (ahead roots).card ≤ fuel → (∀ b ∈ best, t.Rated b) →
      Chosen t (ahead roots) best (componentsFrom t fuel roots best)
  | 0, roots, best, _, hfuel, _ => absurd card_ahead_pos hfuel.not_gt
  | fuel + 1, roots, best, hroots, hfuel, hbest => by
      obtain ⟨b, hb, hfound, hle, hturn⟩ := componentsFrom_turn fuel (hperm roots hroots) hbest
      rw [hturn, htime]
      simp only [Bool.or_false]
      cases hnext : next roots with
      | none =>
          rw [step_of_next_eq_none hnext, ahead_of_descends (next_eq_none.1 hnext)]
          have hlast : Chosen t ∅ (some b) b.1 :=
            ⟨Or.inl ⟨b, rfl, rfl⟩, fun _ h => Option.some.inj h ▸ hb.2.ge,
              fun r hr => absurd hr (Finset.notMem_empty r)⟩
          exact hlast.insert hfound hle
      | some roots' =>
          rw [card_ahead_of_next hnext] at hfuel
          rw [step_of_next hnext, ahead_of_next hnext]
          have hchosen : Chosen t (ahead roots') (some b) (t.componentsFrom fuel roots' (some b)) :=
            componentsFrom_chosen htime hperm ((perm_next hnext).trans hroots)
              (Nat.le_of_succ_le_succ hfuel) fun _ h => Option.some.inj h ▸ hb
          exact hchosen.insert hfound hle

/-- A partition with one root has one sort that starts from it, and otherwise the ordering by
components is the best one over all orders of the roots. -/
theorem components_least (htime : t.expired = false) (hroots : t.roots.Nodup)
    (hperm : ∀ roots, roots ~ t.roots → t.componentOrdering roots ~ t.scope) :
    t.roots.length = 1 ∧ t.components = t.topological ∨
      ∃ roots, roots ~ t.roots ∧ t.components = t.componentOrdering roots ∧
        ∀ roots', roots' ~ t.roots → t.componentBound roots ≤ t.componentBound roots' := by
  have hsorted := Ascending.ofList_perm hroots
  have hascends : (Ascending.ofList t.roots).Pairwise (· ≤ ·) :=
    Ascending.strict_ofList.imp Nat.le_of_lt
  have hall : ∀ {r}, r ∈ ahead (Ascending.ofList t.roots) ↔ r ~ t.roots := fun {r} =>
    (mem_ahead_of_ascends hascends).trans ⟨fun h => h.trans hsorted, fun h => h.trans hsorted.symm⟩
  rw [components]
  split
  · rename_i hone
    rw [Bool.and_eq_true, beq_iff_eq] at hone
    exact Or.inl ⟨hsorted.length_eq.symm.trans hone.1, rfl⟩
  · right
    have hchosen : Chosen t (ahead (Ascending.ofList t.roots)) none _ :=
      componentsFrom_chosen htime hperm hsorted card_ahead_le_orderCount fun _ h =>
        absurd h (Option.not_mem_none _)
    rcases hchosen.found with ⟨b, hb, -⟩ | ⟨roots, hr, heq⟩
    · exact absurd hb (Option.not_mem_none b)
    · refine ⟨roots, hall.1 hr, heq, fun roots' hroots' => ?_⟩
      have hleast := hchosen.least roots' (hall.2 hroots')
      rwa [heq] at hleast

end BayesCircuit.Ordering.Task

namespace BayesCircuit.Ordering

open Ordering.Task Collection Permutation
open scoped List

variable {net : Network} {p : Partition} {owned : List Variable} {log : Float → Float}

/-- The roots ascend unless a variable of the cutset is less than an owned one. -/
theorem roots_ascend (hp : p.Proper net) (h : ∀ v ∈ p.owned, ∀ u ∈ p.cutset, v ≤ u) :
    (ofPartition net p false log).roots.Pairwise (· ≤ ·) := by
  refine List.pairwise_append.2 ⟨?_, hp.strict_cutset.imp Nat.le_of_lt, fun v hv u hu => ?_⟩
  · exact (hp.strict.imp Nat.le_of_lt).filter _
  · exact h v (List.mem_filter.1 hv).1 u hu

variable (hnet : net.Linked) (hacyclic : net.Acyclic) (hp : Partition.ofOwned net owned = .ok p)

include hnet hacyclic hp

/-- With enough time, `topological` returns the sort for an order of the roots that does not come
before the listed one, and the sort for no such order has a less score. These are all orders if no
variable of the cutset is less than an owned one. -/
theorem topological_best (hlog : ∀ v ∈ p.scope, log (Float.ofNat (net.dimOf v)) ≤ 64) :
    ∃ roots, roots ~ (ofPartition net p false log).roots ∧
      (ofPartition net p false log).topological =
        (ofPartition net p false log).depthFirst roots ∧
      ∀ roots', roots' ~ (ofPartition net p false log).roots →
        (ofPartition net p false log).roots ≤ roots' ∨
          (∀ v ∈ p.owned, ∀ u ∈ p.cutset, v ≤ u) →
        ¬ (ofPartition net p false log).sortScore roots' <
          (ofPartition net p false log).sortScore roots := by
  have hproper := Partition.proper_ofOwned hp
  obtain ⟨roots, hroots, heq, hbest⟩ := topological_least rfl
    (score_depthFirst_lt hnet hacyclic hproper hlog (.refl _))
  refine ⟨roots, (mem_ahead.1 hroots).1, heq, fun roots' hroots' hlater => ?_⟩
  refine hbest roots' (mem_ahead.2 ⟨hroots', hlater.elim id fun hcutset => ?_⟩)
  exact le_of_ascends (roots_ascend hproper hcutset) hroots'

/-- With enough time, `components` returns the ordering by components with the least bound on nodes
over all orders of the roots, unless there is only one root. -/
theorem components_best (hmany : (ofPartition net p false log).roots.length ≠ 1) :
    ∃ roots, roots ~ (ofPartition net p false log).roots ∧
      (ofPartition net p false log).components =
        (ofPartition net p false log).componentOrdering roots ∧
      ∀ roots', roots' ~ (ofPartition net p false log).roots →
        (ofPartition net p false log).componentBound roots ≤
          (ofPartition net p false log).componentBound roots' := by
  have hproper := Partition.proper_ofOwned hp
  have D : (ofPartition net p false log).Directed p.scope (ownedParents net p) :=
    directed_ofPartition hnet hacyclic hproper
  refine (components_least rfl D.nodup_roots fun roots hroots => ?_).resolve_left fun h =>
    hmany h.1
  exact (componentOrdering_sorted D hroots).perm.trans (scope_perm hproper).symm

end BayesCircuit.Ordering
