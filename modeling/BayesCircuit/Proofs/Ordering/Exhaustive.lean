import BayesCircuit.Ordering.Branching
import BayesCircuit.Proofs.Bound.Walk
import BayesCircuit.Proofs.Collection.Ascending

/-!
# Searches that try every continuation

At every level of an ordering the width is that of the frontier of the variables to come, so it
depends only on which variables these are (`width_perm`). In saturating arithmetic the bound on
nodes is the sum of the widths (`compute_eq_cost`), and a search that adds up the costs of levels
finds it, whether or not the states it passes through after an overflow are those of a walk.

A search has placed some variables, the last of which is listed first, and others are still to come
(`Stage`). Brute force gives up a beginning only if it already costs more than an ordering that was
found. Looking ahead over all levels that remain, the cheapest continuation is found exactly, so the
greedy choice is part of an optimal ordering.
-/

namespace BayesCircuit

open Collection BayesCircuit.Bound
open scoped List

variable {b : Bound} {e : Elimination} {us vs : List Variable}

namespace Ordering.Task

variable {t : Task} {v : Variable} {k m n : Nat}

/-! ## Saturating sums -/

theorem plus_le_saturated : plus m n ≤ saturated := Nat.min_le_right _ _

theorem plus_assoc : plus (plus k m) n = plus k (plus m n) := by
  simp only [plus]
  omega

theorem plus_zero (h : m ≤ saturated) : plus m 0 = m := Nat.min_eq_left h

theorem plus_saturated : plus saturated m = saturated := Nat.min_eq_right (Nat.le_add_right _ _)

theorem plus_le_plus (h : m ≤ n) : plus k m ≤ plus k n := by
  simp only [plus]
  omega

theorem plus_le_plus_right (h : m ≤ n) : plus m k ≤ plus n k := by
  simp only [plus]
  omega

theorem le_plus (h : m ≤ saturated) : m ≤ plus m n := by
  simp only [plus]
  omega

/-! ## Levels -/

/-- The width of the level at which some variables are still to come. -/
def width (t : Task) (us : List Variable) : Nat :=
  (Elimination.widthFrom .word t.bound (t.bound.frontier us) 1).getD saturated

/-- The sum of the widths of the levels of variables, the first of which comes next. -/
def cost (t : Task) : List Variable → Nat
  | [] => 0
  | v :: vs => plus (t.width (v :: vs)) (cost t vs)

theorem cost_le_saturated : ∀ {us : List Variable}, t.cost us ≤ saturated
  | [] => Nat.zero_le _
  | _ :: _ => plus_le_saturated

theorem width_perm (B : t.bound.Indexed) (h : us ~ vs) : t.width us = t.width vs := by
  rw [width, width, frontier_perm B h]

theorem foldlM_word_lt : ∀ {dims : List Nat} {k w : Nat}, k < wordSize →
    dims.foldlM Tally.word.mul? k = some w → w < wordSize
  | [], k, w, hk, h => by
      obtain rfl := Option.some.inj h
      exact hk
  | d :: dims, k, w, _, h => by
      rw [List.foldlM_cons] at h
      change (Tally.word? (k * d)).bind _ = some w at h
      rw [Tally.word?] at h
      split at h
      · exact foldlM_word_lt ‹_› h
      · cases h

/-- The bound on nodes is the sum of the widths of the levels. -/
theorem sumFrom_nodes (B : t.bound.Indexed) : ∀ {vs : List Variable} {e : Elimination} {k : Nat},
    vs.Nodup → Walked t.bound vs e → k < wordSize →
    (sumFrom .word .nodes t.bound vs e k).getD saturated = plus k (t.cost vs)
  | [], e, k, _, _, hk => (plus_zero (Nat.le_of_lt_succ hk)).symm
  | v :: vs, e, k, hnodup, W, hk => by
      obtain ⟨hv, hvs⟩ := List.nodup_cons.1 hnodup
      obtain ⟨e', hvisit, W'⟩ := W.visit B hv
      rw [sumFrom, Elimination.eliminate, Elimination.width, W.spanning, cost, width]
      cases hwidth : Elimination.widthFrom .word t.bound (t.bound.frontier (v :: vs)) 1 with
      | none =>
          have hone : Elimination.widthFrom .word t.bound (t.bound.frontier (v :: vs))
            Tally.word.one = none := hwidth
          simp only [hone, Option.getD_none, plus_saturated]
          exact (Nat.min_eq_right (Nat.le_add_left _ _)).symm
      | some w =>
          have hone : Elimination.widthFrom .word t.bound (t.bound.frontier (v :: vs))
            Tally.word.one = some w := hwidth
          simp only [hone, hvisit, Elimination.levelCost, Option.getD_some]
          by_cases hfits : k + w < wordSize
          · have hplus : plus k w = k + w := Nat.min_eq_left (Nat.le_of_lt_succ hfits)
            rw [Tally.word_add hfits]
            simp only []
            rw [sumFrom_nodes B hvs W' hfits, ← plus_assoc, hplus]
          · have hplus : plus k w = saturated :=
              Nat.min_eq_right (Nat.le_of_succ_le_succ (Nat.le_succ_of_le (Nat.le_of_not_lt hfits)))
            have hnone : Tally.word.add? k w = none := if_neg hfits
            rw [hnone, ← plus_assoc, hplus, plus_saturated]
            rfl

/-- What a search relies on. -/
structure Sound (t : Task) : Prop where
  indexed : t.bound.Indexed
  nodup : t.scope.Nodup
  size_eq : t.size = t.scope.length
  covers : ∀ c, t.bound.scope c ⊆ t.scope
  lt : ∀ v ∈ t.scope, v < t.net.size

theorem Sound.walked_start (S : t.Sound) (h : vs ~ t.scope) :
    Walked t.bound vs (.start t.bound) :=
  (Bound.walked_start S.indexed S.covers).perm S.indexed h.symm

theorem Sound.compute_eq_cost (S : t.Sound) (h : vs ~ t.scope) :
    t.bound.compute .nodes vs = t.cost vs := by
  have hsum := sumFrom_nodes (k := 0) S.indexed (h.nodup_iff.2 S.nodup) (S.walked_start h)
    (by decide)
  rw [compute, checked?, sum?]
  refine hsum.trans ?_
  rw [plus, Nat.zero_add, Nat.min_eq_left cost_le_saturated]

/-- Visiting any of the variables to come. -/
theorem Sound.visit (S : t.Sound) (hus : us.Nodup) (hv : v ∈ us) (W : Walked t.bound us e) :
    Walked t.bound (us.erase v) (e.visit t.bound v).2 := by
  have W := W.perm S.indexed (List.perm_cons_erase hv)
  obtain ⟨e', hvisit, W'⟩ := W.visit S.indexed (hus.not_mem_erase)
  rwa [hvisit]

/-- The level of any of the variables to come. After an overflow the state is not that of the
walk. -/
theorem Sound.level (S : t.Sound) (hus : us.Nodup) (hv : v ∈ us) (W : Walked t.bound us e) :
    (t.level e v).1 = t.width us ∧
      (t.width us < saturated → Walked t.bound (us.erase v) (t.level e v).2) := by
  have W' := S.visit hus hv W
  rw [Task.level, Elimination.eliminate, Elimination.width, W.spanning, width]
  cases hwidth : Elimination.widthFrom .word t.bound (t.bound.frontier us) 1 with
  | none =>
      have hone : Elimination.widthFrom .word t.bound (t.bound.frontier us)
        Tally.word.one = none := hwidth
      rw [hone]
      exact ⟨rfl, fun h => (Nat.lt_irrefl saturated h).elim⟩
  | some w =>
      have hone : Elimination.widthFrom .word t.bound (t.bound.frontier us)
        Tally.word.one = some w := hwidth
      rw [hone]
      exact ⟨rfl, fun _ => W'⟩

end Ordering.Task
end BayesCircuit

namespace BayesCircuit.Ordering.Task

open Collection BayesCircuit.Bound
open scoped List

variable {t : Task} {e : Elimination} {placed us o : List Variable} {v : Variable} {c : Nat}

/-- Some variables have been placed, and the others are still to come. -/
def Stage (t : Task) (placed us : List Variable) : Prop := placed.reverse ++ us ~ t.scope

theorem Stage.start (t : Task) : t.Stage [] t.scope := .refl _

theorem Stage.place (h : t.Stage placed us) (hv : v ∈ us) : t.Stage (v :: placed) (us.erase v) := by
  rw [Stage, List.reverse_cons, List.append_assoc]
  exact ((List.perm_cons_erase hv).symm.append_left _).trans h

theorem Stage.nodup (S : t.Sound) (h : t.Stage placed us) : us.Nodup :=
  (List.nodup_append.1 (h.nodup_iff.2 S.nodup)).2.1

theorem Stage.length (h : t.Stage placed us) :
    placed.length + us.length = t.scope.length := by
  have hlength := h.length_eq
  rwa [List.length_append, List.length_reverse] at hlength

theorem Stage.mem_iff (S : t.Sound) (h : t.Stage placed us) :
    v ∈ us ↔ v ∈ t.scope ∧ placed.contains v = false := by
  rw [← List.Perm.mem_iff h, List.mem_append, List.mem_reverse, ← Bool.not_eq_true,
    List.contains_iff_mem]
  constructor
  · intro hv
    refine ⟨Or.inr hv, fun hplaced => ?_⟩
    have hdisjoint := (List.nodup_append.1 (h.nodup_iff.2 S.nodup)).2.2
    exact hdisjoint v (List.mem_reverse.2 hplaced) v hv rfl
  · rintro ⟨hv | hv, hnew⟩
    · exact absurd hv hnew
    · exact hv

/-- A search over the variables of a stage skips those that have been placed. -/
theorem Stage.foldl {β : Type} (S : t.Sound) (h : t.Stage placed us) {scope : List Variable}
    (hscope : ∀ v, v ∈ scope ↔ v ∈ t.scope) (f : β → Variable → β) (best : β) :
    ∃ vs : List Variable, (∀ v, v ∈ vs ↔ v ∈ us) ∧
      scope.foldl (fun best v => if placed.contains v then best else f best v) best =
        vs.foldl f best := by
  refine ⟨scope.filter (!placed.contains ·), fun v => ?_, ?_⟩
  · rw [List.mem_filter, hscope, h.mem_iff S, Bool.not_eq_true']
  · rw [List.foldl_filter]
    congr
    funext best v
    cases placed.contains v <;> rfl

/-- The cost after another level. Once it is saturated, the state no longer matters. -/
theorem Sound.total (S : t.Sound) (hus : us.Nodup) (hv : v ∈ us) (hc : c ≤ saturated)
    (hW : c < saturated → Walked t.bound us e) :
    plus c (t.level e v).1 = plus c (t.width us) ∧
      (plus c (t.width us) < saturated → Walked t.bound (us.erase v) (t.level e v).2) := by
  rcases Nat.lt_or_eq_of_le hc with hlt | rfl
  · obtain ⟨hcost, hwalked⟩ := S.level hus hv (hW hlt)
    refine ⟨by rw [hcost], fun h => hwalked ?_⟩
    simp only [plus] at h
    omega
  · rw [plus_saturated, plus_saturated]
    exact ⟨rfl, fun h => absurd h (Nat.lt_irrefl _)⟩

/-- What an ordering costs that goes on with a given variable. -/
theorem Sound.cost_of_perm (S : t.Sound) (h : v :: o ~ us) :
    t.cost (v :: o) = plus (t.width us) (t.cost o) := by
  rw [cost, width_perm S.indexed h]

/-! ## Brute force -/

/-- What trying every continuation makes of the best ordering. -/
structure Improved (t : Task) (placed us : List Variable) (c : Nat)
    (best r : List Variable × Nat) : Prop where
  le : r.2 ≤ best.2
  least : ∀ o, o ~ us → r.2 ≤ plus c (t.cost o)
  found : r = best ∨ ∃ o, o ~ us ∧ r = (placed.reverse ++ o, plus c (t.cost o))

/-- Trying the variables one after the other. -/
theorem improved_foldl (S : t.Sound) {f : List Variable × Nat → Variable → List Variable × Nat}
    (hone : ∀ best v, v ∈ us →
      Improved t (v :: placed) (us.erase v) (plus c (t.width us)) best (f best v)) :
    ∀ (vs : List Variable) (best : List Variable × Nat), vs ⊆ us →
      (vs.foldl f best).2 ≤ best.2 ∧
      (∀ o, o ~ us → (∃ v ∈ vs, o.head? = some v) → (vs.foldl f best).2 ≤ plus c (t.cost o)) ∧
      (vs.foldl f best = best ∨
        ∃ o, o ~ us ∧ vs.foldl f best = (placed.reverse ++ o, plus c (t.cost o)))
  | [], best, _ => ⟨Nat.le_refl _, by simp, Or.inl rfl⟩
  | v :: vs, best, hsub => by
      obtain ⟨hv, hvs⟩ := List.cons_subset.1 hsub
      have I := hone best v hv
      obtain ⟨hle, hleast, hfound⟩ := improved_foldl S hone vs (f best v) hvs
      rw [List.foldl_cons]
      refine ⟨hle.trans I.le, fun o ho hhead => ?_, ?_⟩
      · obtain ⟨w, hw, hhead⟩ := hhead
        rcases List.mem_cons.1 hw with rfl | hw
        · obtain ⟨o, rfl⟩ : ∃ o', o = w :: o' := by
            cases o with
            | nil => cases hhead
            | cons x o =>
                obtain rfl := Option.some.inj hhead
                exact ⟨o, rfl⟩
          rw [S.cost_of_perm ho, ← plus_assoc]
          exact hle.trans (I.least o (List.cons_perm_iff_perm_erase.1 ho).2)
        · exact hleast o ho ⟨w, hw, hhead⟩
      · rcases hfound with heq | hfound
        · rw [heq]
          refine I.found.imp_right fun ⟨o, ho, heq⟩ => ?_
          have ho : v :: o ~ us := List.cons_perm_iff_perm_erase.2 ⟨hv, ho⟩
          refine ⟨v :: o, ho, ?_⟩
          rw [heq, S.cost_of_perm ho, plus_assoc, List.reverse_cons, List.append_assoc]
          rfl
        · exact Or.inr hfound

theorem bruteFrom_spec (S : t.Sound) (htime : t.expired = false) {scope : List Variable}
    (hscope : ∀ v, v ∈ scope ↔ v ∈ t.scope) (left : Nat) :
    ∀ {us placed : List Variable} {e : Elimination} {c : Nat} (best : List Variable × Nat),
      t.Stage placed us → us.length = left → c ≤ saturated →
      (c < saturated → Walked t.bound us e) →
      Improved t placed us c best (t.bruteFrom scope left e placed c best) := by
  induction left with
  | zero =>
      intro us placed e c best hstage hlength hc hW
      obtain rfl := List.length_eq_zero_iff.1 hlength
      rw [bruteFrom]
      split
      · rename_i hlt
        refine ⟨Nat.le_of_lt hlt, fun o ho => ?_, Or.inr ⟨[], .refl _, ?_⟩⟩
        · exact le_plus hc
        · rw [List.append_nil, cost, plus_zero hc]
      · rename_i hle
        refine ⟨Nat.le_refl _, fun o ho => ?_, Or.inl rfl⟩
        exact (Nat.le_of_not_lt hle).trans (le_plus hc)
  | succ left ih =>
      intro us placed e c best hstage hlength hc hW
      have hus := hstage.nodup S
      have hone : ∀ best v, v ∈ us →
          Improved t (v :: placed) (us.erase v) (plus c (t.width us)) best
            (if best.2 < plus c (t.level e v).1 then best
              else t.bruteFrom scope left (t.level e v).2 (v :: placed)
                (plus c (t.level e v).1) best) := by
        intro best v hv
        obtain ⟨htotal, hwalked⟩ := S.total hus hv hc hW
        rw [htotal]
        split
        · rename_i hdear
          refine ⟨Nat.le_refl _, fun o _ => ?_, Or.inl rfl⟩
          exact (Nat.le_of_lt hdear).trans (le_plus plus_le_saturated)
        · refine ih best (hstage.place hv) ?_ plus_le_saturated hwalked
          rw [List.length_erase_of_mem hv, hlength]
          rfl
      obtain ⟨vs, hvs, hfold⟩ := hstage.foldl S hscope
        (fun best v => if best.2 < plus c (t.level e v).1 then best
          else t.bruteFrom scope left (t.level e v).2 (v :: placed)
            (plus c (t.level e v).1) best) best
      rw [bruteFrom, if_neg (by rw [htime]; decide)]
      obtain ⟨hle, hleast, hfound⟩ := improved_foldl S hone vs best fun v hv => (hvs v).1 hv
      rw [← hfold] at hle hleast hfound
      refine ⟨hle, fun o ho => ?_, hfound⟩
      cases o with
      | nil =>
          rw [← ho.length_eq] at hlength
          cases hlength
      | cons v o =>
          exact hleast _ ho ⟨v, (hvs v).2 (ho.mem_iff.1 (List.mem_cons_self ..)), rfl⟩

/-- An ordering of the partition whose bound on nodes is least. -/
structure Optimal (t : Task) (o : List Variable) : Prop where
  perm : o ~ t.scope
  least : ∀ o', o' ~ t.scope → t.bound.compute .nodes o ≤ t.bound.compute .nodes o'

theorem Sound.optimal (S : t.Sound) (ho : o ~ t.scope)
    (hleast : ∀ o', o' ~ t.scope → t.cost o ≤ t.cost o') : t.Optimal o where
  perm := ho
  least o' ho' := by
    rw [S.compute_eq_cost ho, S.compute_eq_cost ho']
    exact hleast o' ho'

theorem bruteForce_optimal (S : t.Sound) (htime : t.expired = false) (hpos : t.scope ≠ [])
    (htop : t.topological ~ t.scope) : t.Optimal t.bruteForce := by
  have hscope : ∀ v, v ∈ Ascending.ofList t.scope ↔ v ∈ t.scope := fun v => Ascending.mem_ofList
  have hperm : Ascending.ofList t.scope ~ t.scope := Ascending.ofList_perm S.nodup
  have I := bruteFrom_spec S htime hscope t.scope.length ([], saturated) (Stage.start t) rfl
    (Nat.zero_le _) fun _ => S.walked_start (.refl _)
  rw [bruteForce, hperm.length_eq]
  simp only []
  generalize t.bruteFrom (Ascending.ofList t.scope) t.scope.length (.start t.bound) [] 0
    ([], saturated) = r at I
  have hleast : ∀ o, o ~ t.scope → r.2 ≤ t.cost o := fun o ho => by
    have hle := I.least o ho
    rwa [plus, Nat.zero_add, Nat.min_eq_left cost_le_saturated] at hle
  rcases I.found with rfl | ⟨o, ho, rfl⟩
  · -- Every ordering is saturated, and the topological one is returned.
    have hne : (([] : List Variable).length == t.scope.length) = false := by
      rw [beq_eq_false_iff_ne]
      exact fun h => hpos (List.length_eq_zero_iff.1 h.symm)
    rw [hne]
    refine S.optimal htop fun o' ho' => ?_
    exact cost_le_saturated.trans (hleast o' ho')
  · have hlength : (([].reverse ++ o).length == t.scope.length) = true :=
      beq_iff_eq.2 ho.length_eq
    rw [if_pos hlength]
    refine S.optimal ho fun o' ho' => ?_
    have hle := hleast o' ho'
    rwa [plus, Nat.zero_add, Nat.min_eq_left cost_le_saturated] at hle

/-! ## Lookahead -/

/-- What the orderings of some variables cost. -/
def costs (t : Task) (us : List Variable) : Set Nat := {c | ∃ o, o ~ us ∧ t.cost o = c}

theorem foldl_min (g : Variable → Nat) : ∀ (vs : List Variable) (k : Nat),
    vs.foldl (fun best v => min best (g v)) k ≤ k ∧
    (∀ v ∈ vs, vs.foldl (fun best v => min best (g v)) k ≤ g v) ∧
    (vs.foldl (fun best v => min best (g v)) k = k ∨
      ∃ v ∈ vs, vs.foldl (fun best v => min best (g v)) k = g v)
  | [], k => ⟨Nat.le_refl _, by simp, Or.inl rfl⟩
  | v :: vs, k => by
      obtain ⟨hle, hall, hfound⟩ := foldl_min g vs (min k (g v))
      rw [List.foldl_cons]
      refine ⟨hle.trans (Nat.min_le_left _ _), ?_, ?_⟩
      · intro w hw
        rcases List.mem_cons.1 hw with rfl | hw
        · exact hle.trans (Nat.min_le_right _ _)
        · exact hall w hw
      · rcases hfound with heq | ⟨w, hw, heq⟩
        · rw [heq]
          rcases Nat.le_total k (g v) with hk | hk
          · exact Or.inl (Nat.min_eq_left hk)
          · exact Or.inr ⟨v, List.mem_cons_self .., Nat.min_eq_right hk⟩
        · exact Or.inr ⟨w, List.mem_cons_of_mem v hw, heq⟩

/-- The cost of going on with a variable, if the orderings of the others have a known least cost
unless the level is saturated. -/
theorem Sound.least_after {k : Nat} (S : t.Sound) (hv : v ∈ us)
    (hleast : t.width us < saturated → IsLeast (t.costs (us.erase v)) k) :
    (∀ o, v :: o ~ us → plus (t.width us) k ≤ t.cost (v :: o)) ∧
      ∃ o, v :: o ~ us ∧ t.cost (v :: o) = plus (t.width us) k := by
  by_cases hwidth : t.width us < saturated
  · obtain ⟨⟨o, ho, rfl⟩, hlower⟩ := hleast hwidth
    refine ⟨fun o' ho' => ?_, o, List.cons_perm_iff_perm_erase.2 ⟨hv, ho⟩, ?_⟩
    · rw [S.cost_of_perm ho']
      exact plus_le_plus (hlower ⟨o', (List.cons_perm_iff_perm_erase.1 ho').2, rfl⟩)
    · rw [S.cost_of_perm (List.cons_perm_iff_perm_erase.2 ⟨hv, ho⟩)]
  · have hsaturated : ∀ m, plus (t.width us) m = saturated := fun m => by
      simp only [plus]
      omega
    have hcost : ∀ o, v :: o ~ us → t.cost (v :: o) = saturated := fun o ho => by
      rw [S.cost_of_perm ho, hsaturated]
    have hself := (List.perm_cons_erase hv).symm
    rw [hsaturated]
    exact ⟨fun o ho => (hcost o ho).ge, us.erase v, hself, hcost _ hself⟩

theorem exists_cons (hus : us ≠ []) (ho : o ~ us) : ∃ v o', v ∈ us ∧ o = v :: o' := by
  cases o with
  | nil => exact absurd ho.nil_eq.symm hus
  | cons v o => exact ⟨v, o, ho.mem_iff.1 (List.mem_cons_self ..), rfl⟩

/-- The cost of placing a variable and going on over the next levels. -/
def continuation (t : Task) (depth : Nat) (e : Elimination) (placed : List Variable)
    (v : Variable) : Nat :=
  plus (t.level e v).1 (t.cheapest t.scope depth (t.level e v).2 (v :: placed))

theorem Sound.continuation {depth : Nat} (S : t.Sound) (hstage : t.Stage placed us) (hv : v ∈ us)
    (W : Walked t.bound us e)
    (hleast : ∀ {e}, Walked t.bound (us.erase v) e →
      IsLeast (t.costs (us.erase v)) (t.cheapest t.scope depth e (v :: placed))) :
    (∀ o, v :: o ~ us → t.continuation depth e placed v ≤ t.cost (v :: o)) ∧
      ∃ o, v :: o ~ us ∧ t.cost (v :: o) = t.continuation depth e placed v := by
  obtain ⟨hcost, hwalked⟩ := S.level (hstage.nodup S) hv W
  rw [Task.continuation, hcost]
  exact S.least_after hv fun h => hleast (hwalked h)

/-- Over all levels that remain, the cheapest continuation is the least cost. -/
theorem cheapest_spec (S : t.Sound) (depth : Nat) :
    ∀ {us placed : List Variable} {e : Elimination}, t.Stage placed us → us.length ≤ depth →
      Walked t.bound us e → IsLeast (t.costs us) (t.cheapest t.scope depth e placed) := by
  have hnone : IsLeast (t.costs []) 0 :=
    ⟨⟨[], .refl _, rfl⟩, fun c _ => Nat.zero_le c⟩
  induction depth with
  | zero =>
      intro us placed e hstage hlength W
      obtain rfl := List.length_eq_zero_iff.1 (Nat.le_zero.1 hlength)
      exact hnone
  | succ depth ih =>
      intro us placed e hstage hlength W
      have htotal := hstage.length
      rw [cheapest]
      split
      · rename_i hall
        have hall := beq_iff_eq.1 hall
        obtain rfl := List.length_eq_zero_iff.1 (show us.length = 0 by omega)
        exact hnone
      · rename_i hmore
        have hne : us ≠ [] := by
          rintro rfl
          exact hmore (beq_iff_eq.2 htotal)
        have hafter := fun v (hv : v ∈ us) => S.continuation hstage hv W fun W' => by
          refine ih (hstage.place hv) ?_ W'
          rw [List.length_erase_of_mem hv]
          omega
        obtain ⟨vs, hvs, hfold⟩ := hstage.foldl S (fun _ => Iff.rfl)
          (fun best v => min best (t.continuation depth e placed v)) saturated
        obtain ⟨hle, hall, hfound⟩ := foldl_min (t.continuation depth e placed) vs saturated
        rw [← hfold] at hle hall hfound
        constructor
        · rcases hfound with heq | ⟨v, hv, heq⟩
          · obtain ⟨v, hv⟩ := List.exists_mem_of_ne_nil _ hne
            obtain ⟨-, o, ho, hcost⟩ := hafter v hv
            refine ⟨v :: o, ho, Nat.le_antisymm ?_ ?_⟩
            · exact cost_le_saturated.trans heq.ge
            · exact (hall v ((hvs v).2 hv)).trans hcost.ge
          · obtain ⟨-, o, ho, hcost⟩ := hafter v ((hvs v).1 hv)
            exact ⟨v :: o, ho, hcost.trans heq.symm⟩
        · rintro _ ⟨o, ho, rfl⟩
          obtain ⟨v, o, hv, rfl⟩ := exists_cons hne ho
          exact (hall v ((hvs v).2 hv)).trans ((hafter v hv).1 o ho)

theorem foldl_pick (g : Variable → Nat) : ∀ (vs : List Variable) (b : Nat) (w : Variable),
    ∃ b' w', vs.foldl (fun best v =>
        match best with
        | some (b, w) => if g v < b then some (g v, v) else some (b, w)
        | none => some (g v, v)) (some (b, w)) = some (b', w') ∧
      b' ≤ b ∧ (∀ v ∈ vs, b' ≤ g v) ∧ ((b', w') = (b, w) ∨ w' ∈ vs ∧ b' = g w')
  | [], b, w => ⟨b, w, rfl, Nat.le_refl _, by simp, Or.inl rfl⟩
  | v :: vs, b, w => by
      rw [List.foldl_cons]
      simp only []
      split
      · rename_i hlt
        obtain ⟨b', w', hrun, hle, hall, hfound⟩ := foldl_pick g vs (g v) v
        refine ⟨b', w', hrun, hle.trans (Nat.le_of_lt hlt), ?_, Or.inr ?_⟩
        · exact List.forall_mem_cons.2 ⟨hle, hall⟩
        · rcases hfound with heq | ⟨hmem, heq⟩
          · obtain ⟨rfl, rfl⟩ := Prod.mk.inj heq
            exact ⟨List.mem_cons_self .., rfl⟩
          · exact ⟨List.mem_cons_of_mem v hmem, heq⟩
      · rename_i hle'
        obtain ⟨b', w', hrun, hle, hall, hfound⟩ := foldl_pick g vs b w
        refine ⟨b', w', hrun, hle, ?_, ?_⟩
        · exact List.forall_mem_cons.2 ⟨hle.trans (Nat.le_of_not_lt hle'), hall⟩
        · exact hfound.imp_right fun ⟨hmem, heq⟩ => ⟨List.mem_cons_of_mem v hmem, heq⟩

/-- The variable that is picked has the cheapest continuation. -/
theorem pick_spec (S : t.Sound) (depth : Nat) (e : Elimination) (hstage : t.Stage placed us) (hne : us ≠ []) :
    ∃ v ∈ us, t.pick t.scope depth e placed = some v ∧ ∀ w ∈ us,
      t.continuation (depth - 1) e placed v ≤ t.continuation (depth - 1) e placed w := by
  obtain ⟨vs, hvs, hfold⟩ := hstage.foldl S (fun _ => Iff.rfl)
    (fun best v =>
      match best with
      | some (b, w) =>
          if t.continuation (depth - 1) e placed v < b then
            some (t.continuation (depth - 1) e placed v, v)
          else some (b, w)
      | none => some (t.continuation (depth - 1) e placed v, v))
    (none : Option (Nat × Variable))
  have hpick := congrArg (Option.map (·.2)) hfold
  change t.pick t.scope depth e placed = _ at hpick
  rw [hpick]
  cases vs with
  | nil =>
      obtain ⟨v, hv⟩ := List.exists_mem_of_ne_nil _ hne
      cases (hvs v).2 hv
  | cons v vs =>
      rw [List.foldl_cons]
      obtain ⟨b, w, hrun, hle, hall, hfound⟩ := foldl_pick (t.continuation (depth - 1) e placed) vs
        (t.continuation (depth - 1) e placed v) v
      have hw : w ∈ v :: vs ∧ b = t.continuation (depth - 1) e placed w := by
        rcases hfound with heq | ⟨hmem, heq⟩
        · obtain ⟨rfl, rfl⟩ := Prod.mk.inj heq
          exact ⟨List.mem_cons_self .., rfl⟩
        · exact ⟨List.mem_cons_of_mem v hmem, heq⟩
      refine ⟨w, (hvs w).1 hw.1, congrArg (Option.map (·.2)) hrun, fun x hx => ?_⟩
      rw [← hw.2]
      rcases List.mem_cons.1 ((hvs x).2 hx) with rfl | hx
      · exact hle
      · exact hall x hx

theorem lookaheadFrom_spec (S : t.Sound) (depth left : Nat) :
    ∀ {us placed : List Variable} {e : Elimination}, t.Stage placed us → us.length = left →
      left ≤ depth → Walked t.bound us e →
      ∃ o, o ~ us ∧ t.lookaheadFrom t.scope depth left e placed = placed.reverse ++ o ∧
        ∀ o', o' ~ us → t.cost o ≤ t.cost o' := by
  induction left with
  | zero =>
      intro us placed e hstage hlength hdepth W
      obtain rfl := List.length_eq_zero_iff.1 hlength
      exact ⟨[], .refl _, (List.append_nil _).symm, fun o' _ => Nat.zero_le _⟩
  | succ left ih =>
      intro us placed e hstage hlength hdepth W
      have hne : us ≠ [] := by
        rintro rfl
        cases hlength
      have hafter := fun v (hv : v ∈ us) => S.continuation hstage hv W fun W' => by
        refine cheapest_spec S (depth - 1) (hstage.place hv) ?_ W'
        rw [List.length_erase_of_mem hv]
        omega
      obtain ⟨v, hv, hpick, hbest⟩ := pick_spec S depth e hstage hne
      obtain ⟨o, ho, hrun, hleast⟩ := ih (hstage.place hv)
        (by rw [List.length_erase_of_mem hv, hlength]; rfl) (Nat.le_of_succ_le hdepth)
        (S.visit (hstage.nodup S) hv W)
      have hvo : v :: o ~ us := List.cons_perm_iff_perm_erase.2 ⟨hv, ho⟩
      refine ⟨v :: o, hvo, ?_, fun o' ho' => ?_⟩
      · rw [lookaheadFrom, hpick]
        simp only []
        rw [hrun, List.reverse_cons, List.append_assoc]
        rfl
      · obtain ⟨w, o', hw, rfl⟩ := exists_cons hne ho'
        obtain ⟨-, o'', ho'', heq⟩ := hafter v hv
        calc t.cost (v :: o) = plus (t.width us) (t.cost o) := S.cost_of_perm hvo
          _ ≤ plus (t.width us) (t.cost o'') :=
              plus_le_plus (hleast o'' (List.cons_perm_iff_perm_erase.1 ho'').2)
          _ = t.cost (v :: o'') := (S.cost_of_perm ho'').symm
          _ = t.continuation (depth - 1) e placed v := heq
          _ ≤ t.continuation (depth - 1) e placed w := hbest w hw
          _ ≤ t.cost (w :: o') := (hafter w hw).1 o' ho'

theorem lookahead_optimal (S : t.Sound) (htime : t.expired = false) {depth : Nat}
    (hdepth : t.scope.length ≤ depth) : t.Optimal (t.lookahead depth) := by
  obtain ⟨o, ho, hrun, hleast⟩ := lookaheadFrom_spec S
    (min (max depth 1) (t.scope.length + 1)) t.scope.length (Stage.start t) rfl (by omega)
    (S.walked_start (.refl _))
  have hlookahead : t.lookahead depth = o := by
    rw [lookahead, htime]
    exact hrun
  rw [hlookahead]
  exact S.optimal ho hleast

end BayesCircuit.Ordering.Task
