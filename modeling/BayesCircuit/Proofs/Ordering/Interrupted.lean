import BayesCircuit.Proofs.Ordering.BestFirst
import BayesCircuit.Proofs.Ordering.Components

/-!
# Searches that run out of time

Whenever the clock stops a search, what it returns is an ordering of the partition. The searches for
a sort keep a sort that is complete; brute force keeps the best complete ordering, and falls back to
a sort if there is none; the best-first search falls back to one when it gives up; and the lookahead
places a variable at each level, however short of time it is.
-/

namespace BayesCircuit.Ordering.Task

open Collection
open scoped List

variable {κ : Type} {look : StateM κ Bool} {t : Task} {ns us placed ready : List Variable}
variable {before : Variable → List Variable} {waiting : Array Nat} {c v x : Variable}

/-! ## Sorts -/

theorem topological_sorted (D : t.Directed ns before)
    (hscore : ∀ roots, roots ~ t.roots → t.bound.score (t.depthFirst roots) t.log < maxScore) :
    Always (Timed.topological look t) (Sorted ns before) :=
  (topological_always hscore).mono fun _ ⟨_, hroots, ho⟩ => ho ▸ D.depthFirst_sorted hroots

/-- One turn of the search by components keeps a sort, the new one or the one it had. -/
theorem componentsFrom_step (D : t.Directed ns before) {fuel : Nat} {roots : List Variable}
    {best : Option (List Variable × Nat)} (hroots : roots ~ t.roots)
    (hbest : ∀ b ∈ best, Sorted ns before b.1) : ∃ next : List Variable × Nat,
      Sorted ns before next.1 ∧ Timed.componentsFrom look t (fuel + 1) roots best =
        if !(Permutation.step roots).1 then pure next.1
        else look >>= fun expired => if expired then pure next.1
          else Timed.componentsFrom look t fuel (Permutation.step roots).2 (some next) := by
  have hordering := componentOrdering_sorted D hroots
  cases best with
  | none => exact ⟨_, hordering, rfl⟩
  | some best =>
      refine ⟨if best.1.isEmpty || t.bound.compute .nodes (t.componentOrdering roots) < best.2 then
        (t.componentOrdering roots, t.bound.compute .nodes (t.componentOrdering roots)) else best,
        ?_, rfl⟩
      split
      · exact hordering
      · exact hbest best rfl

theorem componentsFrom_sorted (D : t.Directed ns before) : ∀ {fuel : Nat} {roots : List Variable}
    {best : Option (List Variable × Nat)}, roots ~ t.roots →
    (∀ b ∈ best, Sorted ns before b.1) → best ≠ none ∨ 0 < fuel →
    Always (Timed.componentsFrom look t fuel roots best) (Sorted ns before)
  | 0, roots, none, _, _, hfuel => absurd (hfuel.resolve_left fun h => h rfl) (Nat.lt_irrefl 0)
  | 0, roots, some best, _, hbest, _ => .pure (hbest best rfl)
  | fuel + 1, roots, best, hroots, hbest, _ => by
      obtain ⟨next, hnext, hstep⟩ := componentsFrom_step D hroots hbest
      rw [hstep]
      refine .ite (fun _ => .pure hnext) fun _ => .step fun expired => ?_
      refine .ite (fun _ => .pure hnext) fun _ => ?_
      refine componentsFrom_sorted D (Permutation.perm_step.trans hroots) ?_
        (Or.inl (Option.some_ne_none _))
      rintro b hb
      obtain rfl := Option.some.inj hb
      exact hnext

theorem components_sorted (D : t.Directed ns before)
    (hscore : ∀ roots, roots ~ t.roots → t.bound.score (t.depthFirst roots) t.log < maxScore) :
    Always (Timed.components look t) (Sorted ns before) := by
  have hroots : Ascending.ofList t.roots ~ t.roots := Ascending.ofList_perm D.nodup_roots
  rw [Timed.components]
  refine .ite (fun _ => topological_sorted D hscore) fun _ => ?_
  exact componentsFrom_sorted D hroots (fun _ hb => absurd hb (Option.not_mem_none _))
    (Or.inr (orderCount_pos _))

/-! ## All sorts -/

theorem getD_modify_pred : (waiting.modify c (· - 1)).getD x 0 =
    if x = c then waiting.getD c 0 - 1 else waiting.getD x 0 := by
  rw [Array.getD_eq_getD_getElem?, Array.getElem?_modify, Array.getD_eq_getD_getElem?,
    Array.getD_eq_getD_getElem?]
  by_cases hx : c = x
  · subst hx
    cases waiting[c]? <;> simp
  · rw [if_neg hx, if_neg (Ne.symm hx)]

theorem foldl_modify_pred : ∀ (cs : List Variable) (waiting : Array Nat), cs.Nodup →
    CountsDown (waiting.getD · 0)
      ((cs.foldl (fun w c => w.modify c (· - 1)) waiting).getD · 0) cs
      (cs.filter (waiting.getD · 0 == 1))
  | [], _, _ => .nil
  | c :: cs, waiting, hnodup => by
      obtain ⟨hc, hcs⟩ := List.nodup_cons.1 hnodup
      have hrest := foldl_modify_pred cs (waiting.modify c (· - 1)) hcs
      have hsame : cs.filter ((waiting.modify c (· - 1)).getD · 0 == 1) =
          cs.filter (waiting.getD · 0 == 1) := List.filter_congr fun x hx => by
        rw [getD_modify_pred, if_neg]
        rintro rfl
        exact hc hx
      rw [hsame] at hrest
      simp only [getD_modify_pred] at hrest
      have hcons : CountsDown (waiting.getD · 0) _ (c :: cs)
          (if waiting.getD c 0 = 1 then c :: _ else _) := .cons hc hrest
      rw [List.filter_cons]
      simp only [beq_iff_eq]
      exact hcons

/-- What a search may place next is what is ready. -/
theorem mem_free (hscope : t.scope ~ ns) (K : Sorts ns before (waiting.getD · 0) ready placed) :
    v ∈ t.scope.filter (fun v => waiting.getD v 0 == 0 && !placed.contains v) ↔ v ∈ ready := by
  rw [List.mem_filter, hscope.mem_iff, Bool.and_eq_true, beq_iff_eq, Bool.not_eq_true',
    ← Bool.not_eq_true, List.contains_iff_mem]
  constructor
  · rintro ⟨hv, hzero, hnew⟩
    exact (List.mem_append.1 ((K.free v hv).2 hzero)).resolve_right hnew
  · intro hv
    have hin := K.subset (List.mem_append_left _ hv)
    exact ⟨hin, (K.free v hin).1 (List.mem_append_left _ hv),
      fun hplaced => (List.nodup_append.1 K.nodup).2.2 v hv v hplaced rfl⟩

/-- The state of a sort after one of the variables that are ready has been placed. -/
theorem sorts_place (D : t.Directed ns before)
    (K : Sorts ns before (waiting.getD · 0) ready placed) (hv : v ∈ ready) :
    ∃ ready', Sorts ns before
      (((t.childrenOf v).foldl (fun w c => w.modify c (· - 1)) waiting).getD · 0) ready'
      (v :: placed) := by
  have hin := K.subset (List.mem_append_left _ hv)
  exact ⟨_, (K.perm_ready (List.perm_cons_erase hv).symm).place D.nodup_before (D.children v hin)
    (foldl_modify_pred (t.childrenOf v) waiting (D.nodup_children v hin))⟩

theorem allFrom_sorted (D : t.Directed ns before) (hscope : t.scope ~ ns) :
    ∀ {fuel : Nat} {waiting : Array Nat} {ready placed : List Variable}
      {best : List Variable × Nat}, Sorts ns before (waiting.getD · 0) ready placed →
      ns.length < fuel + placed.length → Sorted ns before best.1 →
      Always (Timed.allFrom look t fuel waiting placed best) fun b => Sorted ns before b.1
  | 0, waiting, ready, placed, best, K, hfuel, _ => by
      have hlength := K.length_le
      omega
  | fuel + 1, waiting, ready, placed, best, K, hfuel, hbest => by
      rw [Timed.allFrom]
      refine .step fun expired => .ite (fun _ => .pure hbest) fun _ => ?_
      refine .ite (fun hnone => .pure ?_) fun _ => .foldlM hbest fun best hbest v hv => ?_
      · have hready : ready = [] := List.eq_nil_iff_forall_not_mem.2 fun v hv =>
          List.not_mem_nil (List.isEmpty_iff.1 hnone ▸ (mem_free hscope K).2 hv)
        split
        · exact Sorts.complete D.nodup D.grounded D.subset (hready ▸ K)
        · exact hbest
      · obtain ⟨ready', hnext⟩ := sorts_place D K ((mem_free hscope K).1 hv)
        refine allFrom_sorted D hscope hnext ?_ hbest
        rw [List.length_cons]
        omega

theorem allTopological_sorted (D : t.Directed ns before) (hscope : t.scope ~ ns)
    (hsize : t.size = t.scope.length)
    (hscore : ∀ roots, roots ~ t.roots → t.bound.score (t.depthFirst roots) t.log < maxScore) :
    Always (Timed.allTopological look t) (Sorted ns before) := by
  rw [Timed.allTopological]
  refine (topological_sorted D hscore).bind fun first hfirst => ?_
  have hfuel : ns.length < t.size + 1 + ([] : List Variable).length := by
    rw [hsize, hscope.length_eq]
    exact Nat.lt_succ_self _
  exact (allFrom_sorted D hscope (D.sorts_start (.refl _)) hfuel hfirst).bind fun _ hbest =>
    .pure hbest

/-! ## Branching -/

theorem bruteFrom_always (S : t.Sound) {scope : List Variable}
    (hscope : ∀ v, v ∈ scope ↔ v ∈ t.scope) : ∀ {left : Nat} {e : Elimination}
    {us placed : List Variable} {cost : Nat} {best : List Variable × Nat},
    t.Stage placed us → us.length = left → best.1 = [] ∨ best.1 ~ t.scope →
    Always (Timed.bruteFrom look t scope left e placed cost best) fun b => b.1 = [] ∨ b.1 ~ t.scope
  | 0, e, us, placed, cost, best, hstage, hleft, hbest => by
      obtain rfl : us = [] := List.length_eq_zero_iff.1 hleft
      rw [Stage, List.append_nil] at hstage
      refine .pure ?_
      split
      · exact Or.inr hstage
      · exact hbest
  | left + 1, e, us, placed, cost, best, hstage, hleft, hbest => by
      rw [Timed.bruteFrom]
      refine .step fun expired => .ite (fun _ => .pure hbest) fun _ => ?_
      refine .foldlM hbest fun best hbest v hv => .ite (fun _ => .pure hbest) fun hnew => ?_
      refine .ite (fun _ => .pure hbest) fun _ => ?_
      have hin : v ∈ us := (hstage.mem_iff S).2 ⟨(hscope v).1 hv, by simpa using hnew⟩
      refine bruteFrom_always S hscope (hstage.place hin) ?_ hbest
      rw [List.length_erase_of_mem hin, hleft]
      rfl

theorem bruteForce_always (S : t.Sound) (htop : Always (Timed.topological look t) (· ~ t.scope)) :
    Always (Timed.bruteForce look t) (· ~ t.scope) := by
  have hmem : ∀ v, v ∈ Ascending.ofList t.scope ↔ v ∈ t.scope := fun v => Ascending.mem_ofList
  have hperm : Ascending.ofList t.scope ~ t.scope := Ascending.ofList_perm S.nodup
  rw [Timed.bruteForce]
  refine (bruteFrom_always S hmem (Stage.start t) hperm.length_eq.symm (Or.inl rfl)).bind
    fun best hbest => .ite (fun hfull => .pure ?_) fun _ => htop
  rcases hbest with hnone | hbest
  · rw [hnone, beq_iff_eq, hperm.length_eq, List.length_nil, eq_comm,
      List.length_eq_zero_iff] at hfull
    rw [hnone, hfull]
  · exact hbest

theorem bestFrom_always (S : t.Sound) {upper : Nat} : ∀ {fuel : Nat} {heap : Heap Beginning}
    {closed : Std.HashSet VariableSet}, t.Searching upper heap closed →
    Always (Timed.bestFrom look t upper fuel heap closed) fun found => ∀ o ∈ found, o ~ t.scope
  | 0, _, _, _ => .pure fun _ h => absurd h (Option.not_mem_none _)
  | fuel + 1, heap, closed, Q => by
      rw [Timed.bestFrom]
      cases hpop : heap.pop? Beginning.before with
      | none => exact .pure fun _ h => absurd h (Option.not_mem_none _)
      | some first =>
          obtain ⟨b, rest⟩ := first
          refine .ite (fun hfull => .pure fun o ho => ?_) fun hmore => ?_
          · obtain ⟨π, hπ, -, rfl⟩ := Q.entries b (Heap.items_pop hpop ▸ Multiset.mem_cons_self b _)
            obtain rfl := Option.some.inj ho
            exact hπ.perm S ((beq_iff_eq.1 hfull).trans S.size_eq)
          · refine .ite (fun hclosed => bestFrom_always S (Q.skip hpop hclosed)) fun hopen => ?_
            refine .step fun expired => .ite (fun _ => ?_) fun _ => ?_
            · exact .pure fun _ h => absurd h (Option.not_mem_none _)
            · have hnext := Q.close S hpop (mt beq_iff_eq.2 hmore) (by simpa using hopen)
              exact bestFrom_always S hnext

theorem bestFirst_always (S : t.Sound) (htop : Always (Timed.topological look t) (· ~ t.scope)) :
    Always (Timed.bestFirst look t) (· ~ t.scope) := by
  rw [Timed.bestFirst]
  refine htop.bind fun first hfirst => .ite (fun _ => .pure hfirst) fun _ => ?_
  refine (bestFrom_always S searching_start).bind fun found hfound => .pure ?_
  cases found with
  | none => exact hfirst
  | some o => exact hfound o rfl

theorem lookaheadFrom_always (S : t.Sound) {depth : Nat} : ∀ {left : Nat} {e : Elimination}
    {us placed : List Variable}, t.Stage placed us → us.length = left →
    Always (Timed.lookaheadFrom look t t.scope depth left e placed) (· ~ t.scope)
  | 0, e, us, placed, hstage, hleft => by
      obtain rfl : us = [] := List.length_eq_zero_iff.1 hleft
      rw [Stage, List.append_nil] at hstage
      exact .pure hstage
  | left + 1, e, us, placed, hstage, hleft => by
      have hne : us ≠ [] := List.ne_nil_of_length_eq_add_one hleft
      rw [Timed.lookaheadFrom]
      refine .step fun expired => ?_
      obtain ⟨v, hv, hpick, -⟩ := pick_spec S
        (min (if expired then 1 else max depth 1) (t.scope.length + 1)) e hstage hne
      simp only [hpick]
      refine lookaheadFrom_always S (hstage.place hv) ?_
      rw [List.length_erase_of_mem hv, hleft]
      rfl

theorem lookahead_always (S : t.Sound) {depth : Nat} :
    Always (Timed.lookahead look t depth) (· ~ t.scope) :=
  lookaheadFrom_always S (Stage.start t) rfl

end BayesCircuit.Ordering.Task
