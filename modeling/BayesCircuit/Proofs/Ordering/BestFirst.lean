import BayesCircuit.Proofs.Collection.Search
import BayesCircuit.Proofs.Collection.VariableSet
import BayesCircuit.Proofs.Ordering.Exhaustive
import BayesCircuit.Proofs.Ordering.Topological
import Mathlib.Data.List.Sublists

/-!
# The searches for an optimal ordering

## The search that extends the cheapest beginning first

Every beginning is known by what it has spent and the set of its variables. While the set of a
beginning is not closed, one of its own beginnings is represented in the queue by one that has spent
no more (`Searching.exists_cheaper`). So what comes first in the queue has spent the least for its
set, and the first complete beginning is an optimal ordering.
-/

namespace BayesCircuit.Ordering.Task

open Collection BayesCircuit.Bound
open scoped List

variable {t : Task} {us placed π o : List Variable} {v : Variable} {upper : Nat}
variable {b : Beginning} {heap rest : Heap Beginning} {closed : Std.HashSet VariableSet}

/-! ## Beginnings -/

/-- The variables that have not been placed. -/
def others (t : Task) (placed : List Variable) : List Variable :=
  t.scope.filter (!placed.contains ·)

/-- What the levels of a beginning cost, the last of which is listed first. -/
def spent (t : Task) : List Variable → Nat
  | [] => 0
  | _ :: placed => plus (spent t placed) (t.width (t.others placed))

/-- Different variables of the partition. -/
structure Legal (t : Task) (placed : List Variable) : Prop where
  nodup : placed.Nodup
  subset : placed ⊆ t.scope

/-- A beginning with what is known about it. -/
def entry (t : Task) (placed : List Variable) : Beginning :=
  ⟨t.spent placed, placed, .ofList t.net.size placed⟩

theorem mem_others : v ∈ t.others placed ↔ v ∈ t.scope ∧ v ∉ placed := by
  rw [others, List.mem_filter, Bool.not_eq_true', ← Bool.not_eq_true, List.contains_iff_mem]

theorem Sound.nodup_others (S : t.Sound) : (t.others placed).Nodup := S.nodup.filter _

theorem Legal.nil : t.Legal [] := ⟨List.nodup_nil, List.nil_subset _⟩

theorem Legal.tail (h : t.Legal (v :: placed)) : t.Legal placed :=
  ⟨h.nodup.of_cons, (List.cons_subset.1 h.subset).2⟩

theorem Legal.cons (h : t.Legal placed) (hv : v ∈ t.others placed) : t.Legal (v :: placed) :=
  ⟨List.nodup_cons.2 ⟨(mem_others.1 hv).2, h.nodup⟩,
    List.cons_subset.2 ⟨(mem_others.1 hv).1, h.subset⟩⟩

theorem Legal.stage (S : t.Sound) (h : t.Legal placed) : t.Stage placed (t.others placed) := by
  refine (List.perm_ext_iff_of_nodup ?_ S.nodup).2 fun v => ?_
  · refine List.nodup_append.2 ⟨List.nodup_reverse.2 h.nodup, S.nodup_others, ?_⟩
    rintro v hv w hw rfl
    exact (mem_others.1 hw).2 (List.mem_reverse.1 hv)
  · rw [List.mem_append, List.mem_reverse, mem_others]
    have hsub := @h.subset v
    tauto

theorem Legal.lt (S : t.Sound) (h : t.Legal placed) : ∀ v ∈ placed, v < t.net.size :=
  fun v hv => S.lt v (h.subset hv)

theorem Legal.length_le (S : t.Sound) (h : t.Legal placed) : placed.length ≤ t.scope.length := by
  have hlength := (h.stage S).length
  omega

theorem Legal.perm (S : t.Sound) (h : t.Legal placed) (hfull : placed.length = t.scope.length) :
    placed.reverse ~ t.scope := by
  have hstage := h.stage S
  have hlength := hstage.length
  have hnone : t.others placed = [] := List.length_eq_zero_iff.1 (by omega)
  rw [Stage, hnone, List.append_nil] at hstage
  exact hstage

theorem legal_of_perm (S : t.Sound) (h : o ~ t.scope) : t.Legal o.reverse :=
  ⟨List.nodup_reverse.2 (h.nodup_iff.2 S.nodup), fun _ hv => h.mem_iff.1 (List.mem_reverse.1 hv)⟩

theorem spent_le_saturated : ∀ {placed : List Variable}, t.spent placed ≤ saturated
  | [] => Nat.zero_le _
  | _ :: _ => plus_le_saturated

theorem spent_le_cons : t.spent placed ≤ t.spent (v :: placed) := le_plus spent_le_saturated

/-- What a complete ordering has spent in the end. -/
theorem spent_append (S : t.Sound) : ∀ {us placed : List Variable}, t.Stage placed us →
    t.spent (us.reverse ++ placed) = plus (t.spent placed) (t.cost us)
  | [], placed, _ => (plus_zero spent_le_saturated).symm
  | v :: us, placed, hstage => by
      have hothers : v :: us ~ t.others placed := by
        refine (List.perm_ext_iff_of_nodup (hstage.nodup S) S.nodup_others).2 fun w => ?_
        rw [hstage.mem_iff S, mem_others, ← Bool.not_eq_true, List.contains_iff_mem]
      have hplace := hstage.place (List.mem_cons_self ..)
      rw [List.erase_cons_head] at hplace
      rw [List.reverse_cons, List.append_assoc]
      change t.spent (us.reverse ++ (v :: placed)) = _
      rw [spent_append S hplace, spent, cost, width_perm S.indexed hothers, plus_assoc]

theorem spent_reverse (S : t.Sound) (h : o ~ t.scope) : t.spent o.reverse = t.cost o := by
  have htotal : t.spent (o.reverse ++ []) = plus (t.spent []) (t.cost o) := spent_append S h
  rw [List.append_nil] at htotal
  rw [htotal, spent, plus, Nat.zero_add, Nat.min_eq_left cost_le_saturated]

/-- The state after a beginning is that of a walk. -/
theorem replay_spec (S : t.Sound) : ∀ {placed : List Variable}, t.Legal placed →
    Walked t.bound (t.others placed) (t.replay placed)
  | [], _ => by
      have hall : t.others [] = t.scope := List.filter_eq_self.2 fun v _ => rfl
      rw [hall]
      exact S.walked_start (.refl _)
  | v :: placed, h => by
      have hv : v ∈ t.others placed :=
        mem_others.2 ⟨(List.cons_subset.1 h.subset).1, (List.nodup_cons.1 h.nodup).1⟩
      have hothers : (t.others placed).erase v ~ t.others (v :: placed) := by
        refine (List.perm_ext_iff_of_nodup (S.nodup_others.erase v) S.nodup_others).2
          fun w => ?_
        rw [S.nodup_others.mem_erase_iff, mem_others, mem_others, List.mem_cons]
        tauto
      have hreplay : t.replay (v :: placed) = ((t.replay placed).visit t.bound v).2 := by
        rw [replay, List.reverse_cons, List.foldl_append]
        rfl
      rw [hreplay]
      exact (S.visit S.nodup_others hv (replay_spec S h.tail)).perm S.indexed hothers

/-- The extensions of a beginning. -/
theorem mem_extensions (S : t.Sound) (h : t.Legal placed) :
    b ∈ t.extensions upper closed (t.entry placed) ↔ ∃ v ∈ t.others placed,
      t.spent (v :: placed) ≤ upper ∧
      closed.contains (.ofList t.net.size (v :: placed)) = false ∧ b = t.entry (v :: placed) := by
  have W := replay_spec S h
  have hextensions : t.extensions upper closed (t.entry placed) = t.scope.filterMap fun v =>
      if v ∈ t.others placed ∧ t.spent (v :: placed) ≤ upper ∧
        closed.contains (.ofList t.net.size (v :: placed)) = false
      then some (t.entry (v :: placed)) else none := by
    refine List.filterMap_congr fun v hv => ?_
    by_cases hmem : v ∈ placed
    · have hin : (t.entry placed).visited.contains v = true :=
        (VariableSet.contains_ofList (h.lt S)).2 hmem
      rw [if_pos hin, if_neg fun h => (mem_others.1 h.1).2 hmem]
    · have hout : ¬ (t.entry placed).visited.contains v = true :=
        mt (VariableSet.contains_ofList (h.lt S)).1 hmem
      have hothers : v ∈ t.others placed := mem_others.2 ⟨hv, hmem⟩
      have hadding : (t.entry placed).visited.adding v = .ok (.ofList t.net.size (v :: placed)) :=
        VariableSet.adding_ofList (List.forall_mem_cons.2 ⟨S.lt v hv, h.lt S⟩)
      have hspent : plus (t.entry placed).cost (t.level (t.replay (t.entry placed).placed) v).1 =
          t.spent (v :: placed) :=
        congrArg (plus (t.spent placed)) (S.level S.nodup_others hothers W).1
      change (if _ then _ else _) = _
      rw [if_neg hout, hadding]
      change (if _ then _ else some (Beginning.mk (plus (t.entry placed).cost _) _ _)) = _
      rw [hspent]
      simp only [Bool.or_eq_true, decide_eq_true_eq]
      by_cases hdear : upper < t.spent (v :: placed)
      · rw [if_pos (Or.inl hdear), if_neg fun h => absurd h.2.1 (Nat.not_le_of_lt hdear)]
      · by_cases hclosed : closed.contains (.ofList t.net.size (v :: placed)) = true
        · rw [if_pos (Or.inr hclosed),
            if_neg fun h => absurd (h.2.2.symm.trans hclosed) (by decide)]
        · rw [if_neg (not_or.2 ⟨hdear, hclosed⟩),
            if_pos ⟨hothers, Nat.le_of_not_lt hdear, Bool.of_not_eq_true hclosed⟩]
          rfl
  rw [hextensions, List.mem_filterMap]
  constructor
  · rintro ⟨v, -, heq⟩
    split at heq
    · rename_i hcond
      exact ⟨v, hcond.1, hcond.2.1, hcond.2.2, (Option.some.inj heq).symm⟩
    · cases heq
  · rintro ⟨v, hv, hle, hopen, rfl⟩
    exact ⟨v, (mem_others.1 hv).1, if_pos ⟨hv, hle, hopen⟩⟩

theorem length_extensions : (t.extensions upper closed b).length ≤ t.scope.length :=
  List.length_filterMap_le _ _

/-! ## The queue -/

/-- The beginning has no open set before it: it is empty or its set without the last variable is
closed. -/
def Reached (t : Task) (closed : Std.HashSet VariableSet) : List Variable → Prop
  | [] => True
  | _ :: placed => closed.contains (.ofList t.net.size placed) = true

/-- What the search keeps. -/
structure Searching (t : Task) (upper : Nat) (heap : Heap Beginning)
    (closed : Std.HashSet VariableSet) : Prop where
  ordered : heap.Ordered (·.cost ≤ ·.cost)
  entries : ∀ b ∈ heap.items, ∃ π, t.Legal π ∧ t.spent π ≤ upper ∧ b = t.entry π
  incomplete : ∀ s, closed.contains s = true →
    ∃ π, t.Legal π ∧ π.length < t.scope.length ∧ s = .ofList t.net.size π
  cheaper : ∀ π, t.Legal π → t.Reached closed π →
    closed.contains (.ofList t.net.size π) = false → t.spent π ≤ upper →
    ∃ b ∈ heap.items, b.visited = .ofList t.net.size π ∧ b.cost ≤ t.spent π

theorem follows_before : Heap.Follows Beginning.before (·.cost ≤ ·.cost) where
  trans := Nat.le_trans
  of_before {a b} h := by
    simp only [Beginning.before, Bool.or_eq_true, Bool.and_eq_true, decide_eq_true_eq,
      beq_iff_eq] at h
    omega
  of_not_before {a b} h := by
    simp only [Beginning.before, Bool.or_eq_false_iff, decide_eq_false_iff_not] at h
    omega

/-- A set that is not closed has a representative in the queue on the way to it. -/
theorem Searching.exists_cheaper (Q : t.Searching upper heap closed) : ∀ {π : List Variable},
    t.Legal π → closed.contains (.ofList t.net.size π) = false → t.spent π ≤ upper →
    ∃ b ∈ heap.items, b.cost ≤ t.spent π
  | [], hπ, hopen, hle => by
      obtain ⟨b, hb, -, hcost⟩ := Q.cheaper [] hπ trivial hopen hle
      exact ⟨b, hb, hcost⟩
  | v :: π, hπ, hopen, hle => by
      cases hclosed : closed.contains (.ofList t.net.size π) with
      | true =>
          obtain ⟨b, hb, -, hcost⟩ := Q.cheaper (v :: π) hπ hclosed hopen hle
          exact ⟨b, hb, hcost⟩
      | false =>
          obtain ⟨b, hb, hcost⟩ := Q.exists_cheaper hπ.tail hclosed (spent_le_cons.trans hle)
          exact ⟨b, hb, hcost.trans spent_le_cons⟩

/-- What comes first has spent no more than any beginning of an open set. -/
theorem Searching.first_le (Q : t.Searching upper heap closed)
    (hpop : heap.pop? Beginning.before = some (b, rest)) (hπ : t.Legal π)
    (hopen : closed.contains (.ofList t.net.size π) = false) : b.cost ≤ t.spent π := by
  have hitems := Heap.items_pop hpop
  by_cases hle : t.spent π ≤ upper
  · obtain ⟨b', hb', hcost⟩ := Q.exists_cheaper hπ hopen hle
    rw [hitems, Multiset.mem_cons] at hb'
    rcases hb' with rfl | hb'
    · exact hcost
    · exact ((Q.ordered.pop follows_before hpop).1 b' hb').trans hcost
  · obtain ⟨π', -, hle', rfl⟩ := Q.entries b (hitems ▸ Multiset.mem_cons_self b _)
    change t.spent π' ≤ _
    omega

/-! ## Steps -/

/-- A step of the search, whatever the number of closed sets. -/
inductive Step (t : Task) (upper : Nat) :
    Heap Beginning × Std.HashSet VariableSet → Heap Beginning × Std.HashSet VariableSet → Prop
  | skip {heap rest : Heap Beginning} {closed : Std.HashSet VariableSet} {b : Beginning} :
      heap.pop? Beginning.before = some (b, rest) →
      b.placed.length ≠ t.size → closed.contains b.visited = true →
      Step t upper (heap, closed) (rest, closed)
  | close {heap rest : Heap Beginning} {closed : Std.HashSet VariableSet} {b : Beginning} :
      heap.pop? Beginning.before = some (b, rest) →
      b.placed.length ≠ t.size → closed.contains b.visited = false →
      Step t upper (heap, closed)
        ((t.extensions upper (closed.insert b.visited) b).foldl
          (fun h x => h.push Beginning.before x) rest, closed.insert b.visited)

theorem Searching.skip (Q : t.Searching upper heap closed)
    (hpop : heap.pop? Beginning.before = some (b, rest))
    (hclosed : closed.contains b.visited = true) : t.Searching upper rest closed := by
  have hitems := Heap.items_pop hpop
  refine ⟨(Q.ordered.pop follows_before hpop).2, fun b' hb' => ?_, Q.incomplete, ?_⟩
  · exact Q.entries b' (hitems ▸ Multiset.mem_cons_of_mem hb')
  · intro π hπ hreached hopen hle
    obtain ⟨b', hb', hvisited, hcost⟩ := Q.cheaper π hπ hreached hopen hle
    rw [hitems, Multiset.mem_cons] at hb'
    rcases hb' with rfl | hb'
    · rw [hvisited, hopen] at hclosed
      cases hclosed
    · exact ⟨b', hb', hvisited, hcost⟩

theorem Searching.close (S : t.Sound) (Q : t.Searching upper heap closed)
    (hpop : heap.pop? Beginning.before = some (b, rest)) (hmore : b.placed.length ≠ t.size)
    (hopen : closed.contains b.visited = false) :
    t.Searching upper ((t.extensions upper (closed.insert b.visited) b).foldl
      (fun h x => h.push Beginning.before x) rest) (closed.insert b.visited) := by
  have hitems := Heap.items_pop hpop
  obtain ⟨π, hπ, hle, rfl⟩ := Q.entries b (hitems ▸ Multiset.mem_cons_self b _)
  have hinsert : ∀ s, (closed.insert (t.entry π).visited).contains s = true ↔
      s = .ofList t.net.size π ∨ closed.contains s = true := fun s => by
    rw [Std.HashSet.contains_insert, Bool.or_eq_true, beq_iff_eq, eq_comm]
    rfl
  refine ⟨(Q.ordered.pop follows_before hpop).2.foldl_push follows_before _, ?_, ?_, ?_⟩
  · intro b' hb'
    rw [Heap.items_foldl_push, Multiset.mem_add, Multiset.mem_coe] at hb'
    rcases hb' with hb' | hb'
    · obtain ⟨v, hv, hle, -, rfl⟩ := (mem_extensions S hπ).1 hb'
      exact ⟨v :: π, hπ.cons hv, hle, rfl⟩
    · exact Q.entries b' (hitems ▸ Multiset.mem_cons_of_mem hb')
  · intro s hs
    rcases (hinsert s).1 hs with rfl | hs
    · refine ⟨π, hπ, Nat.lt_of_le_of_ne (hπ.length_le S) ?_, rfl⟩
      rw [← S.size_eq]
      exact hmore
    · exact Q.incomplete s hs
  · intro ρ hρ hreached hout hspent
    have hnew := mt (hinsert (.ofList t.net.size ρ)).2 (by rw [hout]; decide)
    rw [not_or, Bool.not_eq_true] at hnew
    obtain ⟨hne, hold⟩ := hnew
    -- An old representative has another set than the one that is closed now.
    have hkeep : t.Reached closed ρ → ∃ b' ∈ rest.items,
        b'.visited = .ofList t.net.size ρ ∧ b'.cost ≤ t.spent ρ := by
      intro hreached
      obtain ⟨b', hb', hvisited, hcost⟩ := Q.cheaper ρ hρ hreached hold hspent
      rw [hitems, Multiset.mem_cons] at hb'
      rcases hb' with rfl | hb'
      · exact absurd hvisited.symm hne
      · exact ⟨b', hb', hvisited, hcost⟩
    have hrest : (∃ b' ∈ rest.items, b'.visited = .ofList t.net.size ρ ∧ b'.cost ≤ t.spent ρ) →
        ∃ b' ∈ ((t.extensions upper (closed.insert (t.entry π).visited) (t.entry π)).foldl
          (fun h x => h.push Beginning.before x) rest).items,
          b'.visited = .ofList t.net.size ρ ∧ b'.cost ≤ t.spent ρ := by
      rintro ⟨b', hb', hvisited, hcost⟩
      refine ⟨b', ?_, hvisited, hcost⟩
      rw [Heap.items_foldl_push, Multiset.mem_add]
      exact Or.inr hb'
    cases ρ with
    | nil => exact hrest (hkeep trivial)
    | cons v ρ =>
        rcases (hinsert _).1 hreached with hsame | hreached
        · -- The extension of what has been closed represents the set.
          have hperm : ρ ~ π := VariableSet.ofList_injective (hρ.tail.lt S) (hπ.lt S)
            hρ.tail.nodup hπ.nodup hsame
          have hv : v ∈ t.others π := mem_others.2 ⟨(List.cons_subset.1 hρ.subset).1,
            mt hperm.mem_iff.2 (List.nodup_cons.1 hρ.nodup).1⟩
          have hset : VariableSet.ofList t.net.size (v :: π) = .ofList t.net.size (v :: ρ) :=
            VariableSet.ofList_perm (hρ.lt S) (hperm.symm.cons v)
          have hothers : t.others ρ ~ t.others π := by
            refine (List.perm_ext_iff_of_nodup S.nodup_others S.nodup_others).2 fun w => ?_
            rw [mem_others, mem_others, hperm.mem_iff]
          have hfirst : t.spent π ≤ t.spent ρ :=
            Q.first_le hpop hρ.tail (by rw [hsame]; exact hopen)
          have hcost : t.spent (v :: π) ≤ t.spent (v :: ρ) := by
            rw [spent, spent, width_perm S.indexed hothers]
            exact plus_le_plus_right hfirst
          refine ⟨t.entry (v :: π), ?_, hset, hcost⟩
          rw [Heap.items_foldl_push, Multiset.mem_add, Multiset.mem_coe]
          refine Or.inl ((mem_extensions S hπ).2 ⟨v, hv, hcost.trans hspent, ?_, rfl⟩)
          rw [hset]
          exact hout
        · exact hrest (hkeep hreached)

theorem Searching.step (S : t.Sound) {s s' : Heap Beginning × Std.HashSet VariableSet}
    (h : t.Step upper s s') (Q : t.Searching upper s.1 s.2) : t.Searching upper s'.1 s'.2 := by
  cases h with
  | skip hpop hmore hclosed => exact Q.skip hpop hclosed
  | close hpop hmore hopen => exact Q.close S hpop hmore hopen

/-- The search finds a complete beginning that has spent the least, if it never gives up. -/
theorem Searching.run (S : t.Sound) (htime : t.expired = false)
    (hfirst : ∃ o, o ~ t.scope ∧ t.cost o ≤ upper) (fuel : Nat) :
    ∀ {heap : Heap Beginning} {closed : Std.HashSet VariableSet}, t.Searching upper heap closed →
      (∀ s, Relation.ReflTransGen (t.Step upper) (heap, closed) s → s.2.size ≤ maxClosed) →
      heap.items.card + (maxClosed - closed.size) * t.scope.length < fuel →
      ∃ o, o ~ t.scope ∧ t.bestFrom upper fuel heap closed = some o ∧
        ∀ o', o' ~ t.scope → t.cost o ≤ t.cost o' := by
  induction fuel with
  | zero =>
      intro heap closed _ _ hfuel
      exact absurd hfuel (Nat.not_lt_zero _)
  | succ fuel ih =>
      intro heap closed Q hfew hfuel
      have hopen : ∀ o, o ~ t.scope →
          closed.contains (.ofList t.net.size o.reverse) = false := by
        intro o ho
        cases hclosed : closed.contains (.ofList t.net.size o.reverse) with
        | false => rfl
        | true =>
            obtain ⟨π, hπ, hlength, heq⟩ := Q.incomplete _ hclosed
            have hfull := legal_of_perm S ho
            have hperm := VariableSet.ofList_injective (hfull.lt S) (hπ.lt S)
              hfull.nodup hπ.nodup heq
            have hsame := hperm.length_eq
            rw [List.length_reverse, ho.length_eq] at hsame
            omega
      rw [bestFrom]
      cases hpop : heap.pop? Beginning.before with
      | none =>
          obtain ⟨o, ho, hle⟩ := hfirst
          obtain ⟨b, hb, -⟩ := Q.exists_cheaper (legal_of_perm S ho) (hopen o ho)
            ((spent_reverse S ho).trans_le hle)
          rw [Heap.pop_eq_none.1 hpop] at hb
          exact absurd hb (Multiset.notMem_zero b)
      | some found =>
          obtain ⟨b, rest⟩ := found
          have hitems := Heap.items_pop hpop
          rw [hitems, Multiset.card_cons] at hfuel
          simp only []
          split
          · rename_i hcomplete
            obtain ⟨π, hπ, -, rfl⟩ := Q.entries b (hitems ▸ Multiset.mem_cons_self b _)
            have hperm : π.reverse ~ t.scope :=
              hπ.perm S ((beq_iff_eq.1 hcomplete).trans S.size_eq)
            refine ⟨π.reverse, hperm, rfl, fun o' ho' => ?_⟩
            rw [← spent_reverse S hperm, ← spent_reverse S ho', List.reverse_reverse]
            exact Q.first_le hpop (legal_of_perm S ho') (hopen o' ho')
          · rename_i hmore
            have hmore := mt beq_iff_eq.2 hmore
            split
            · rename_i hclosed
              refine ih (Q.skip hpop hclosed) (fun s hs => hfew s ?_) (by omega)
              exact .head (.skip hpop hmore hclosed) hs
            · rename_i hopen'
              have hopen' := Bool.of_not_eq_true hopen'
              have hstep : t.Step upper (heap, closed) _ := .close hpop hmore hopen'
              have hsize : (closed.insert b.visited).size = closed.size + 1 := by
                rw [Std.HashSet.size_insert, if_neg]
                rw [Std.HashSet.mem_iff_contains, hopen']
                decide
              have hle := hfew _ (.single hstep)
              rw [hsize] at hle
              have hcontinue : (t.expired || decide (maxClosed < (closed.insert b.visited).size)) =
                  false := by
                rw [htime, hsize, Bool.false_or, decide_eq_false_iff_not]
                omega
              simp only [hcontinue]
              refine ih (Q.close S hpop hmore hopen') (fun s hs => hfew s (.head hstep hs)) ?_
              have hlength : (t.extensions upper (closed.insert b.visited) b).length ≤ _ :=
                length_extensions
              obtain ⟨left, hleft⟩ : ∃ left, maxClosed - closed.size = left + 1 :=
                ⟨maxClosed - closed.size - 1, by omega⟩
              have hnext : maxClosed - (closed.size + 1) = left := by omega
              rw [hleft, Nat.succ_mul] at hfuel
              rw [Heap.items_foldl_push, Multiset.card_add, Multiset.coe_card, hsize, hnext]
              omega

/-- What the search starts with. -/
def firstState (t : Task) : Heap Beginning × Std.HashSet VariableSet :=
  (Heap.leaf.push Beginning.before ⟨0, [], .empty t.net.size⟩, ∅)

theorem searching_start : t.Searching upper t.firstState.1 t.firstState.2 where
  ordered := Heap.Ordered.push follows_before (show Heap.leaf.Ordered _ from trivial)
  entries b hb := by
    rw [firstState, Heap.items_push, Multiset.mem_cons] at hb
    rcases hb with rfl | hb
    · exact ⟨[], Legal.nil, Nat.zero_le _, rfl⟩
    · exact absurd hb (Multiset.notMem_zero b)
  incomplete s hs := by
    rw [firstState, Std.HashSet.contains_empty] at hs
    cases hs
  cheaper π hπ hreached hopen hle := by
    cases π with
    | nil =>
        refine ⟨t.entry [], ?_, rfl, Nat.le_refl _⟩
        rw [firstState, Heap.items_push]
        exact Multiset.mem_cons_self _ _
    | cons v π =>
        rw [Reached, firstState, Std.HashSet.contains_empty] at hreached
        cases hreached

/-- The search closes few enough sets not to give up. -/
def ClosesFew (t : Task) : Prop :=
  ∀ s, Relation.ReflTransGen (t.Step (t.bound.compute .nodes t.topological)) t.firstState s →
    s.2.size ≤ maxClosed

theorem bestFirst_optimal (S : t.Sound) (htime : t.expired = false)
    (htop : t.topological ~ t.scope) (hfew : t.ClosesFew) :
    t.Optimal t.bestFirst := by
  rw [bestFirst]
  simp only []
  split
  · -- There is only one ordering.
    rename_i hsmall
    rw [S.size_eq] at hsmall
    refine S.optimal htop fun o' ho' => ?_
    have heq : t.topological = o' := by
      have hperm := htop.trans ho'.symm
      have hlength := ho'.length_eq
      rcases o' with _ | ⟨v, _ | ⟨w, o'⟩⟩
      · exact hperm.eq_nil
      · exact List.perm_singleton.1 hperm
      · simp only [List.length_cons] at hlength
        omega
    rw [heq]
  · have hfuel : t.firstState.1.items.card + (maxClosed - t.firstState.2.size) * t.scope.length <
        (maxClosed + 2) * (t.size + 1) := by
      have hcard : t.firstState.1.items.card = 1 := by
        rw [firstState, Heap.items_push, Multiset.card_cons]
        rfl
      have hsize : t.firstState.2.size = 0 := Std.HashSet.size_empty
      rw [hcard, hsize, S.size_eq, Nat.sub_zero, Nat.add_mul, Nat.mul_succ, Nat.mul_succ]
      omega
    obtain ⟨o, ho, hrun, hleast⟩ := Searching.run S htime
      ⟨t.topological, htop, (S.compute_eq_cost htop).ge⟩ _ searching_start hfew hfuel
    have hfound : (t.bestFrom (t.bound.compute .nodes t.topological)
        ((maxClosed + 2) * (t.size + 1))
        (Heap.leaf.push Beginning.before ⟨0, [], .empty t.net.size⟩) ∅).getD t.topological = o :=
      congrArg (·.getD t.topological) hrun
    rw [hfound]
    exact S.optimal ho hleast

/-- With at most `20` variables there are not enough sets to give up. -/
theorem closesFew_of_length_le (S : t.Sound) (h : t.scope.length ≤ 20) : t.ClosesFew := by
  intro s hs
  have Q : t.Searching (t.bound.compute .nodes t.topological) s.1 s.2 := by
    induction hs with
    | refl => exact searching_start
    | tail _ hstep ih => exact ih.step S hstep
  have hsub : s.2.toList ⊆ t.scope.sublists.map (VariableSet.ofList t.net.size) := by
    intro x hx
    obtain ⟨π, hπ, -, rfl⟩ := Q.incomplete x (Std.HashSet.mem_toList.1 hx)
    refine List.mem_map.2 ⟨t.scope.filter π.contains, ?_, ?_⟩
    · exact List.mem_sublists.2 List.filter_sublist
    · refine VariableSet.ofList_perm (hπ.lt S) ?_
      refine (List.perm_ext_iff_of_nodup (S.nodup.filter _) hπ.nodup).2 fun v => ?_
      rw [List.mem_filter, List.contains_iff_mem]
      have := @hπ.subset v
      tauto
  have hnodup : s.2.toList.Nodup := by
    have := Std.HashSet.distinct_toList (m := s.2)
    refine this.imp fun h => ?_
    simpa using h
  have hlength := (List.subperm_of_subset hnodup hsub).length_le
  rw [Std.HashSet.length_toList, List.length_map, List.length_sublists] at hlength
  exact hlength.trans (Nat.pow_le_pow_right (by decide) h)

end BayesCircuit.Ordering.Task

/-!
## The exact searches are optimal

On the partitions of an acyclic network, brute force, the best-first search and a lookahead over all
levels return orderings with the same bound on nodes, which is the least of all orderings. Of the
logarithm, by which the topological sorts are compared, only a bound at the sizes of the domains
matters.
-/

namespace BayesCircuit.Ordering.Task

open Collection BayesCircuit.Bound
open scoped List

variable {net : Network} {p : Partition} {owned : List Variable} {log : Float → Float}

/-- An ordering of the partition with a given bound on nodes. -/
def Attains (t : Task) (bound : Nat) (o : List Variable) : Prop :=
  o ~ t.partition.scope ∧ t.bound.compute .nodes o = bound

/-- On a partition of an acyclic network with at least one variable, brute force, a best-first
search that does not close too many sets, and a lookahead over at least as many levels as there are
variables return orderings of the partition whose saturated bound on nodes is the least of all its
orderings. The logarithms of the domain sizes only have to be at most `64`. -/
theorem searches_attain_least (log : Float → Float) (hnet : net.Linked) (hacyclic : net.Acyclic)
    (hp : Partition.ofOwned net owned = .ok p) (hpos : 1 ≤ p.size)
    (hlog : ∀ v ∈ p.scope, log (Float.ofNat (net.dimOf v)) ≤ 64) :
    ∃ least, (∀ o, o ~ p.scope → least ≤ (Bound.ofPartition net p).compute .nodes o) ∧
      Attains (ofPartition net p false log) least (ofPartition net p false log).bruteForce ∧
      ((ofPartition net p false log).ClosesFew →
        Attains (ofPartition net p false log) least (ofPartition net p false log).bestFirst) ∧
      ∀ depth, p.size ≤ depth →
        Attains (ofPartition net p false log) least
          ((ofPartition net p false log).lookahead depth) := by
  have hproper := Partition.proper_ofOwned hp
  have S : (ofPartition net p false log).Sound := sound_ofPartition hnet hproper
  have hscope : (ofPartition net p false log).scope ~ p.scope := scope_perm hproper
  have htop : (ofPartition net p false log).topological ~ (ofPartition net p false log).scope :=
    topological_perm S (fun v hv => hlog v (hscope.mem_iff.1 hv)) fun roots hroots =>
      ((directed_ofPartition hnet hacyclic hproper).depthFirst_sorted hroots).perm.trans hscope.symm
  have hlength : (ofPartition net p false log).scope.length = p.size := S.size_eq.symm
  have hne : (ofPartition net p false log).scope ≠ [] := by
    intro hnone
    rw [hnone] at hlength
    simp only [List.length_nil] at hlength
    omega
  have hbrute := bruteForce_optimal S rfl hne htop
  -- All optimal orderings have the bound of the one that brute force finds.
  have hattains : ∀ {o}, (ofPartition net p false log).Optimal o →
      Attains (ofPartition net p false log)
        ((Bound.ofPartition net p).compute .nodes (ofPartition net p false log).bruteForce) o :=
    fun {o} ho => ⟨ho.perm.trans hscope,
      Nat.le_antisymm (ho.least _ hbrute.perm) (hbrute.least _ ho.perm)⟩
  refine ⟨_, fun o ho => hbrute.least o (ho.trans hscope.symm), hattains hbrute,
    fun hfew => hattains (bestFirst_optimal S rfl htop hfew), fun depth hdepth => ?_⟩
  exact hattains (lookahead_optimal S rfl (hlength.trans_le hdepth))

/-- The two coins with the logarithm of their two values. -/
def coinTask : Task := ofPartition twoCoins ⟨[0, 1], []⟩ false fun _ => 0.6931471805599453

theorem searches_attain_least_twoCoins :
    ∃ least, (∀ o, o ~ [0, 1] → least ≤ coinTask.bound.compute .nodes o) ∧
      Attains coinTask least coinTask.bruteForce ∧ Attains coinTask least coinTask.bestFirst ∧
      Attains coinTask least (coinTask.lookahead 2) := by
  have hp := Partition.proper_ofOwned ofOwned_twoCoins
  have hfew : coinTask.ClosesFew := closesFew_of_length_le
    (sound_ofPartition wellFormed_twoCoins.linked hp) (by decide)
  obtain ⟨least, hleast, hbrute, hbest, hlook⟩ :=
    searches_attain_least (fun _ => 0.6931471805599453) wellFormed_twoCoins.linked
      acyclic_twoCoins ofOwned_twoCoins (by decide) fun v _ => by decide +kernel
  exact ⟨least, hleast, hbrute, hbest hfew, hlook 2 (by decide)⟩

end BayesCircuit.Ordering.Task
