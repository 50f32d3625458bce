import BayesCircuit.Collection.Heap
import BayesCircuit.Collection.Permutation
import BayesCircuit.Proofs.Outcome
import Mathlib.Algebra.Order.Group.Multiset
import Mathlib.Data.Finset.Card
import Mathlib.Data.List.Basic
import Mathlib.Data.List.Lex
import Mathlib.Data.List.Permutation
import Mathlib.Data.List.TakeWhile
import Mathlib.Order.Bounds.Basic
import Mathlib.Tactic.Abel

/-!
# Rearrangements and heaps

Stepping to the next list in lexicographic order only rearranges it. No rearrangement lies in
between (`next_le`), and only a list that never increases has no next one (`next_eq_none`), so a
walk meets exactly the rearrangements that do not come before its first list (`ahead`), in ascending
order (`exists_walk`).

A heap is read as the multiset of its elements. Pushing adds one, and what is popped comes first
among them, as long as no element of a subtree comes before its root (`Ordered`).
-/

namespace BayesCircuit.Collection.Permutation

open scoped List

variable {α : Type} [LT α] [DecidableLT α] {x : α} {xs ys : List α}

/-- An exchange takes the last of the greater elements at the beginning of a list. -/
theorem exchange_spec (h : exchange x xs = some ys) : ∃ front y,
    xs = front ++ y :: xs.dropWhile (x < ·) ∧ x < y ∧
      ys = y :: (front ++ x :: xs.dropWhile (x < ·)).reverse := by
  unfold exchange at h
  simp only [] at h
  split at h
  · cases h
  · rename_i y hy
    obtain rfl := Option.some.inj h
    obtain ⟨front, hfront⟩ := List.getLast?_eq_some_iff.1 hy
    refine ⟨front, y, ?_, ?_, ?_⟩
    · conv_lhs => rw [← List.takeWhile_append_dropWhile (p := (x < ·)) (l := xs), hfront]
      simp
    · have hmem : y ∈ xs.takeWhile (x < ·) := List.mem_of_mem_getLast? hy
      exact of_decide_eq_true (List.mem_takeWhile_imp (p := (x < ·)) hmem)
    · rw [hfront, List.dropLast_concat]

theorem perm_exchange (h : exchange x xs = some ys) : ys ~ x :: xs := by
  obtain ⟨front, y, hxs, -, rfl⟩ := exchange_spec h
  conv_rhs => rw [hxs]
  calc y :: (front ++ x :: xs.dropWhile (x < ·)).reverse
      ~ y :: (front ++ x :: xs.dropWhile (x < ·)) := (List.reverse_perm _).cons y
    _ ~ y :: x :: (front ++ xs.dropWhile (x < ·)) := List.perm_middle.cons y
    _ ~ x :: y :: (front ++ xs.dropWhile (x < ·)) := List.Perm.swap ..
    _ ~ x :: (front ++ y :: xs.dropWhile (x < ·)) := List.perm_middle.symm.cons x

theorem perm_next : ∀ {xs ys : List α}, next xs = some ys → ys ~ xs
  | [], ys, h => by cases h
  | x :: xs, ys, h => by
      rw [next] at h
      cases hnext : next xs with
      | none =>
          rw [hnext] at h
          exact perm_exchange h
      | some zs =>
          rw [hnext] at h
          obtain rfl := Option.some.inj h
          exact (perm_next hnext).cons x

theorem step_of_next (h : next xs = some ys) : step xs = (true, ys) := by
  rw [step, h]

theorem step_of_next_eq_none (h : next xs = none) : step xs = (false, xs.reverse) := by
  rw [step, h]

theorem perm_step : (step xs).2 ~ xs := by
  unfold step
  split
  · exact perm_next ‹_›
  · exact List.reverse_perm xs

/-! ## Lexicographic order -/

section

variable {α : Type} [LinearOrder α] {x : α} {xs ys zs : List α}

/-- A list that ascends is the least among its rearrangements. -/
theorem le_of_ascends : ∀ {xs ys : List α}, xs.Pairwise (· ≤ ·) → ys ~ xs → xs ≤ ys
  | [], ys, _, hperm => hperm.eq_nil ▸ le_refl _
  | x :: xs, [], _, hperm => absurd hperm.symm.eq_nil (List.cons_ne_nil x xs)
  | x :: xs, y :: ys, hascends, hperm => by
      obtain ⟨hx, hxs⟩ := List.pairwise_cons.1 hascends
      have hle : x ≤ y := by
        rcases List.mem_cons.1 (hperm.mem_iff.1 (List.mem_cons_self ..)) with rfl | hy
        · exact le_refl _
        · exact hx y hy
      rcases hle.lt_or_eq with hlt | rfl
      · exact le_of_lt (List.cons_lt_cons_iff.2 (Or.inl hlt))
      · exact List.cons_le_cons x (le_of_ascends hxs ((List.perm_cons x).1 hperm))

/-- A list that never increases is the greatest among its rearrangements. -/
theorem le_of_descends : ∀ {xs ys : List α}, xs.Pairwise (· ≥ ·) → ys ~ xs → ys ≤ xs
  | [], ys, _, hperm => hperm.eq_nil ▸ le_refl _
  | x :: xs, [], _, hperm => absurd hperm.symm.eq_nil (List.cons_ne_nil x xs)
  | x :: xs, y :: ys, hdescends, hperm => by
      obtain ⟨hx, hxs⟩ := List.pairwise_cons.1 hdescends
      have hle : y ≤ x := by
        rcases List.mem_cons.1 (hperm.mem_iff.1 (List.mem_cons_self ..)) with rfl | hy
        · exact le_refl _
        · exact hx y hy
      rcases hle.lt_or_eq with hlt | rfl
      · exact le_of_lt (List.cons_lt_cons_iff.2 (Or.inl hlt))
      · exact List.cons_le_cons y (le_of_descends hxs ((List.perm_cons y).1 hperm))

/-- Nothing is exchanged if the list does not begin with a greater element. -/
theorem exchange_eq_none : exchange x xs = none ↔ ∀ y ∈ xs.head?, y ≤ x := by
  unfold exchange
  cases xs with
  | nil => simp
  | cons y ys =>
      by_cases hlt : x < y
      · cases hlast : (y :: ys.takeWhile (x < ·)).getLast? with
        | none => simp at hlast
        | some z => simp [hlt, hlast]
      · simp [hlt, le_of_not_gt hlt]

/-- Only a list that never increases has no next rearrangement. -/
theorem next_eq_none : ∀ {xs : List α}, next xs = none ↔ xs.Pairwise (· ≥ ·)
  | [] => iff_of_true rfl .nil
  | x :: xs => by
      rw [next, List.pairwise_cons, ← next_eq_none]
      cases hnext : next xs with
      | some ys => simp
      | none =>
          have hdescends := next_eq_none.1 hnext
          simp only [and_true, exchange_eq_none]
          cases xs with
          | nil => simp
          | cons y ys =>
              have hy := (List.pairwise_cons.1 hdescends).1
              simp only [List.head?_cons, Option.mem_some_iff, forall_eq', List.forall_mem_cons]
              exact ⟨fun hle => ⟨hle, fun z hz => (hy z hz).trans hle⟩, And.left⟩

theorem lt_next : ∀ {xs ys : List α}, next xs = some ys → xs < ys
  | [], ys, h => by cases h
  | x :: xs, ys, h => by
      rw [next] at h
      cases hnext : next xs with
      | some zs =>
          rw [hnext] at h
          obtain rfl := Option.some.inj h
          exact List.cons_lt_cons_iff.2 (Or.inr ⟨rfl, lt_next hnext⟩)
      | none =>
          rw [hnext] at h
          obtain ⟨front, y, -, hlt, rfl⟩ := exchange_spec h
          exact List.cons_lt_cons_iff.2 (Or.inl hlt)

/-- After an exchange, what follows the first element ascends. -/
theorem ascends_of_exchange {front back : List α} {y : α}
    (hdescends : (front ++ y :: back).Pairwise (· ≥ ·)) (hlt : x < y) (hback : ∀ z ∈ back, z ≤ x) :
    (front ++ x :: back).reverse.Pairwise (· ≤ ·) := by
  rw [List.pairwise_reverse]
  rw [List.pairwise_append, List.pairwise_cons] at hdescends ⊢
  obtain ⟨hfront, ⟨-, hpairs⟩, hcross⟩ := hdescends
  refine ⟨hfront, ⟨hback, hpairs⟩, fun a ha b hb => ?_⟩
  rcases List.mem_cons.1 hb with rfl | hb
  · exact hlt.le.trans (hcross a ha y (List.mem_cons_self ..))
  · exact hcross a ha b (List.mem_cons_of_mem y hb)

theorem le_of_mem_dropWhile : ∀ {xs : List α}, xs.Pairwise (· ≥ ·) →
    ∀ z ∈ xs.dropWhile (x < ·), z ≤ x
  | y :: ys, hdescends, z, hz => by
      obtain ⟨hy, hys⟩ := List.pairwise_cons.1 hdescends
      rw [List.dropWhile_cons] at hz
      split at hz
      · exact le_of_mem_dropWhile hys z hz
      · rename_i hle
        have hle := le_of_not_gt (mt decide_eq_true hle)
        rcases List.mem_cons.1 hz with rfl | hz
        · exact hle
        · exact (hy z hz).trans hle

/-- No rearrangement lies between a list and the next one. -/
theorem next_le : ∀ {xs ys zs : List α}, next xs = some ys → zs ~ xs → xs < zs → ys ≤ zs
  | [], ys, zs, h, _, _ => by cases h
  | x :: xs, ys, [], _, hperm, _ => absurd hperm.symm.eq_nil (List.cons_ne_nil x xs)
  | x :: xs, ys, z :: zs, h, hperm, hlt => by
      rw [next] at h
      cases hnext : next xs with
      | some ws =>
          rw [hnext] at h
          obtain rfl := Option.some.inj h
          rcases List.cons_lt_cons_iff.1 hlt with hx | ⟨rfl, htail⟩
          · exact le_of_lt (List.cons_lt_cons_iff.2 (Or.inl hx))
          · exact List.cons_le_cons x (next_le hnext ((List.perm_cons x).1 hperm) htail)
      | none =>
          rw [hnext] at h
          have hdescends := next_eq_none.1 hnext
          obtain ⟨front, y, hxs, hy, rfl⟩ := exchange_spec h
          have hback := le_of_mem_dropWhile (x := x) hdescends
          generalize xs.dropWhile (x < ·) = back at *
          subst hxs
          rcases List.cons_lt_cons_iff.1 hlt with hx | ⟨rfl, htail⟩
          · -- The least of the greater elements comes first, and the others ascend.
            have hle : y ≤ z := by
              have hz := hperm.mem_iff.1 (List.mem_cons_self ..)
              rw [List.mem_cons, List.mem_append, List.mem_cons] at hz
              rcases hz with rfl | hz | rfl | hz
              · exact absurd hx (lt_irrefl z)
              · exact (List.pairwise_append.1 hdescends).2.2 z hz y (List.mem_cons_self ..)
              · exact le_refl z
              · exact absurd hx (hback z hz).not_gt
            rcases hle.lt_or_eq with hlt | rfl
            · exact le_of_lt (List.cons_lt_cons_iff.2 (Or.inl hlt))
            · refine List.cons_le_cons y (le_of_ascends (ascends_of_exchange hdescends hy hback) ?_)
              have hperm : y :: zs ~ y :: (front ++ x :: back) :=
                hperm.trans ((perm_exchange h).symm.trans ((List.reverse_perm _).cons y))
              exact ((List.perm_cons y).1 hperm).trans (List.reverse_perm _).symm
          · have hle := le_of_descends hdescends ((List.perm_cons x).1 hperm)
            exact absurd htail hle.not_gt

/-- The rearrangements of a list that do not come before it. -/
def ahead (xs : List α) : Finset (List α) := xs.permutations.toFinset.filter (xs ≤ ·)

theorem mem_ahead : ys ∈ ahead xs ↔ ys ~ xs ∧ xs ≤ ys := by
  rw [ahead, Finset.mem_filter, List.mem_toFinset, List.mem_permutations]

theorem mem_ahead_self : xs ∈ ahead xs := mem_ahead.2 ⟨.refl xs, le_refl xs⟩

theorem card_ahead_le : (ahead xs).card ≤ xs.length.factorial :=
  calc (ahead xs).card ≤ xs.permutations.toFinset.card := Finset.card_filter_le _ _
    _ ≤ xs.permutations.length := List.toFinset_card_le _
    _ = xs.length.factorial := List.length_permutations xs

/-- A list that never increases is the last one ahead of itself. -/
theorem ahead_of_descends (h : xs.Pairwise (· ≥ ·)) : ahead xs = {xs} := by
  ext zs
  rw [mem_ahead, Finset.mem_singleton]
  constructor
  · rintro ⟨hperm, hle⟩
    exact le_antisymm (le_of_descends h hperm) hle
  · rintro rfl
    exact ⟨.refl zs, le_refl zs⟩

theorem ahead_of_next (h : next xs = some ys) : ahead xs = insert xs (ahead ys) := by
  ext zs
  have hperm := perm_next h
  rw [Finset.mem_insert, mem_ahead, mem_ahead]
  constructor
  · rintro ⟨hzs, hle⟩
    rcases hle.lt_or_eq with hlt | rfl
    · exact Or.inr ⟨hzs.trans hperm.symm, next_le h hzs hlt⟩
    · exact Or.inl rfl
  · rintro (rfl | ⟨hzs, hle⟩)
    · exact ⟨.refl zs, le_refl zs⟩
    · exact ⟨hzs.trans hperm, (lt_next h).le.trans hle⟩

theorem card_ahead_of_next (h : next xs = some ys) : (ahead xs).card = (ahead ys).card + 1 := by
  rw [ahead_of_next h, Finset.card_insert_of_notMem]
  intro hmem
  exact (mem_ahead.1 hmem).2.not_gt (lt_next h)

/-- All rearrangements are ahead of a list that ascends. -/
theorem mem_ahead_of_ascends (h : xs.Pairwise (· ≤ ·)) : ys ∈ ahead xs ↔ ys ~ xs := by
  rw [mem_ahead]
  exact and_iff_left_of_imp (le_of_ascends h)

/-- The lists from one on, each of them the step from the one before, up to the step that leads
back. -/
inductive Walk : List α → List (List α) → Prop
  | last {xs ys : List α} : step xs = (false, ys) → Walk xs [xs]
  | next {xs ys : List α} {yss : List (List α)} :
      step xs = (true, ys) → Walk ys yss → Walk xs (xs :: yss)

/-- The first part of a step is the list that comes next in lexicographic order. -/
theorem isLeast_next (h : next xs = some ys) : IsLeast {zs | zs ~ xs ∧ xs < zs} ys :=
  ⟨⟨perm_next h, lt_next h⟩, fun _ hzs => next_le h hzs.1 hzs.2⟩

/-- Stepping goes through all rearrangements ahead, in ascending order. -/
theorem exists_walk (xs : List α) : ∃ yss, Walk xs yss ∧ yss.Pairwise (· < ·) ∧
    ∀ ys, ys ∈ yss ↔ ys ∈ ahead xs := by
  induction hcard : (ahead xs).card generalizing xs with
  | zero => exact absurd (Finset.card_eq_zero.1 hcard) (Finset.ne_empty_of_mem mem_ahead_self)
  | succ n ih =>
      cases hnext : next xs with
      | none =>
          refine ⟨[xs], .last (step_of_next_eq_none hnext), List.pairwise_singleton _ _,
            fun ys => ?_⟩
          rw [ahead_of_descends (next_eq_none.1 hnext), List.mem_singleton, Finset.mem_singleton]
      | some zs =>
          obtain ⟨yss, hwalk, hascends, hmem⟩ :=
            ih zs (Nat.succ.inj ((card_ahead_of_next hnext).symm.trans hcard))
          refine ⟨xs :: yss, .next (step_of_next hnext) hwalk,
            List.pairwise_cons.2 ⟨fun ys hys => ?_, hascends⟩, fun ys => ?_⟩
          · exact (lt_next hnext).trans_le (mem_ahead.1 ((hmem ys).1 hys)).2
          · rw [ahead_of_next hnext, List.mem_cons, Finset.mem_insert, hmem]

/-- A step leads to the least rearrangement that is greater than a list, if there is one, and to the
one that ascends otherwise. So who starts from a list that ascends comes to the end, and visits each
rearrangement once, in lexicographic order. -/
theorem step_successor (xs : List α) :
    ((∃ zs, zs ~ xs ∧ xs < zs) →
      ∃ ys, step xs = (true, ys) ∧ IsLeast {zs | zs ~ xs ∧ xs < zs} ys) ∧
    ((¬ ∃ zs, zs ~ xs ∧ xs < zs) →
      ∃ ys, step xs = (false, ys) ∧ ys ~ xs ∧ ys.Pairwise (· ≤ ·)) ∧
    (xs.Pairwise (· ≤ ·) → ∃ yss, Walk xs yss ∧ yss.Nodup ∧ yss.Pairwise (· < ·) ∧
      ∀ ys, ys ∈ yss ↔ ys ~ xs) := by
  refine ⟨fun ⟨zs, hperm, hlt⟩ => ?_, fun hnone => ?_, fun hascends => ?_⟩
  · cases hnext : next xs with
    | none => exact absurd hlt (le_of_descends (next_eq_none.1 hnext) hperm).not_gt
    | some ys => exact ⟨ys, step_of_next hnext, isLeast_next hnext⟩
  · cases hnext : next xs with
    | none =>
        refine ⟨xs.reverse, step_of_next_eq_none hnext, List.reverse_perm xs, ?_⟩
        exact List.pairwise_reverse.2 (next_eq_none.1 hnext)
    | some ys => exact absurd ⟨ys, (isLeast_next hnext).1⟩ hnone
  · obtain ⟨yss, hwalk, hpairs, hmem⟩ := exists_walk xs
    refine ⟨yss, hwalk, hpairs.imp ne_of_lt, hpairs, fun ys => ?_⟩
    rw [hmem, mem_ahead_of_ascends hascends]

/-- The list that ascends with two ones and a two has three rearrangements. -/
theorem step_successor_twice : [1, 1, 2].Pairwise (· ≤ ·) ∧
    step [1, 2, 1] = (true, [2, 1, 1]) ∧ IsLeast {zs | zs ~ [1, 2, 1] ∧ [1, 2, 1] < zs} [2, 1, 1] ∧
    (∃ ys, step [2, 1, 1] = (false, ys) ∧ ys ~ [2, 1, 1] ∧ ys.Pairwise (· ≤ ·)) ∧
    ∃ yss, Walk [1, 1, 2] yss ∧ yss.Nodup ∧ ∀ ys, ys ∈ yss ↔ ys ~ [1, 1, 2] := by
  have hascends : [1, 1, 2].Pairwise (· ≤ ·) := by decide
  have hgreater : ∃ zs, zs ~ [1, 2, 1] ∧ [1, 2, 1] < zs := ⟨[2, 1, 1], by decide, by decide⟩
  have hnone : ¬ ∃ zs, zs ~ [2, 1, 1] ∧ [2, 1, 1] < zs := by
    rintro ⟨zs, hperm, hlt⟩
    exact (le_of_descends (by decide) hperm).not_gt hlt
  obtain ⟨ys, hstep, hleast⟩ := (step_successor [1, 2, 1]).1 hgreater
  obtain rfl : [2, 1, 1] = ys := congrArg Prod.snd hstep
  obtain ⟨yss, hwalk, hnodup, -, hmem⟩ := (step_successor [1, 1, 2]).2.2 hascends
  exact ⟨hascends, hstep, hleast, (step_successor [2, 1, 1]).2.1 hnone, yss, hwalk, hnodup, hmem⟩

end

end BayesCircuit.Collection.Permutation

namespace BayesCircuit.Collection.Heap

variable {α : Type} {before : α → α → Bool} {x : α} {h a b : Heap α}

/-- The elements. -/
def items : Heap α → Multiset α
  | leaf => 0
  | node _ l x r => x ::ₘ (l.items + r.items)

theorem size_eq_card : ∀ h : Heap α, h.size = h.items.card
  | leaf => rfl
  | node _ l x r => by
      rw [size, items, Multiset.card_cons, Multiset.card_add, size_eq_card l, size_eq_card r]

theorem items_join : (join x a b).items = x ::ₘ (a.items + b.items) := by
  unfold join
  split
  · rfl
  · rw [items, add_comm]

theorem items_merge (before : α → α → Bool) (a b : Heap α) :
    (merge before a b).items = a.items + b.items := by
  fun_induction merge before a b with
  | case1 b => exact (zero_add b.items).symm
  | case2 a => exact (add_zero a.items).symm
  | case3 ra la x rb sa ma y mb hfirst ih =>
      rw [items_join, ih, items, items]
      simp only [← Multiset.singleton_add]
      abel
  | case4 ra la x rb sa ma y mb hfirst ih =>
      rw [items_join, ih, items, items]
      simp only [← Multiset.singleton_add]
      abel

theorem items_push : (push before x h).items = x ::ₘ h.items := by
  rw [push, items_merge, items, items, add_zero, Multiset.cons_add, zero_add]

theorem items_foldl_push : ∀ (xs : List α) (h : Heap α),
    (xs.foldl (fun h x => h.push before x) h).items = (xs : Multiset α) + h.items
  | [], h => (zero_add h.items).symm
  | x :: xs, h => by
      rw [List.foldl_cons, items_foldl_push xs, items_push, Multiset.add_cons, ← Multiset.cons_coe,
        Multiset.cons_add]

theorem items_pop (hpop : h.pop? before = some (x, a)) : h.items = x ::ₘ a.items := by
  cases h with
  | leaf => cases hpop
  | node r l y m =>
      obtain ⟨rfl, rfl⟩ := Prod.mk.inj (Option.some.inj hpop)
      rw [items_merge, items]

theorem pop_eq_none : h.pop? before = none ↔ h.items = 0 := by
  cases h with
  | leaf => simp [pop?, items]
  | node r l y m => simp [pop?, items]

/-- No element of a subtree comes before its root, in a preorder that the queue follows. -/
def Ordered (le : α → α → Prop) : Heap α → Prop
  | leaf => True
  | node _ l x r => (∀ y ∈ l.items + r.items, le x y) ∧ l.Ordered le ∧ r.Ordered le

variable {le : α → α → Prop}

theorem ordered_join : (join x a b).Ordered le ↔
    (∀ y ∈ a.items + b.items, le x y) ∧ a.Ordered le ∧ b.Ordered le := by
  unfold join
  split
  · rfl
  · rw [Ordered, add_comm, and_comm (a := b.Ordered le)]

/-- What the order of a queue has to do with a preorder. -/
structure Follows (before : α → α → Bool) (le : α → α → Prop) : Prop where
  trans : ∀ {x y z}, le x y → le y z → le x z
  of_before : ∀ {x y}, before x y = true → le x y
  of_not_before : ∀ {x y}, before x y = false → le y x

/-- All elements come after the root of a heap that comes after another element. -/
theorem Ordered.le_all (F : Follows before le) {r : Nat} {y : α}
    (hord : (node r a y b).Ordered le) (hle : le x y) : ∀ z ∈ (node r a y b).items, le x z := by
  intro z hz
  rw [items, Multiset.mem_cons] at hz
  rcases hz with rfl | hz
  · exact hle
  · exact F.trans hle (hord.1 z hz)

theorem Ordered.merge (F : Follows before le) (a b : Heap α) :
    a.Ordered le → b.Ordered le → (Heap.merge before a b).Ordered le := by
  fun_induction Heap.merge before a b with
  | case1 b => exact fun _ hb => hb
  | case2 a => exact fun ha _ => ha
  | case3 ra la x rb sa ma y mb hfirst ih =>
      intro ha hb
      obtain ⟨hroot, hma, hmb⟩ := hb
      refine ordered_join.2 ⟨fun z hz => ?_, hma, ih ha hmb⟩
      rw [items_merge, Multiset.mem_add, Multiset.mem_add] at hz
      rcases hz with hz | hz | hz
      · exact hroot z (Multiset.mem_add.2 (Or.inl hz))
      · exact ha.le_all F (F.of_before hfirst) z hz
      · exact hroot z (Multiset.mem_add.2 (Or.inr hz))
  | case4 ra la x rb sa ma y mb hfirst ih =>
      intro ha hb
      obtain ⟨hroot, hla, hrb⟩ := ha
      refine ordered_join.2 ⟨fun z hz => ?_, hla, ih hrb hb⟩
      rw [items_merge, Multiset.mem_add, Multiset.mem_add] at hz
      rcases hz with hz | hz | hz
      · exact hroot z (Multiset.mem_add.2 (Or.inl hz))
      · exact hroot z (Multiset.mem_add.2 (Or.inr hz))
      · exact hb.le_all F (F.of_not_before (Bool.of_not_eq_true hfirst)) z hz

theorem Ordered.push (F : Follows before le) (hord : h.Ordered le) :
    (h.push before x).Ordered le :=
  Ordered.merge F _ _ ⟨by simp [items], trivial, trivial⟩ hord

theorem Ordered.foldl_push (F : Follows before le) : ∀ (xs : List α) {h : Heap α}, h.Ordered le →
    (xs.foldl (fun h x => h.push before x) h).Ordered le
  | [], _, hord => hord
  | _ :: xs, _, hord => Ordered.foldl_push F xs (hord.push F)

/-- What is popped comes before all others, which stay ordered. -/
theorem Ordered.pop (F : Follows before le) (hord : h.Ordered le)
    (hpop : h.pop? before = some (x, a)) : (∀ y ∈ a.items, le x y) ∧ a.Ordered le := by
  cases h with
  | leaf => cases hpop
  | node r l y m =>
      obtain ⟨rfl, rfl⟩ := Prod.mk.inj (Option.some.inj hpop)
      obtain ⟨hroot, hl, hm⟩ := hord
      refine ⟨fun z hz => hroot z ?_, Ordered.merge F _ _ hl hm⟩
      rwa [items_merge] at hz

end BayesCircuit.Collection.Heap
