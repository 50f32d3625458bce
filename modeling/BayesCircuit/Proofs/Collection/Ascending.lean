import BayesCircuit.Collection.Ascending
import BayesCircuit.Counter
import Mathlib.Data.List.Sort
import Mathlib.Order.Basic

/-!
# Ascending lists as sets

Membership in the lists that `insert`, `erase`, `union` and `ofList` make, and that they ascend. Two
ascending lists with the same members are equal. On ascending lists, `Counter.projection` finds the
position of every member, as the search in `Counter.projectionUnsorted` does.
-/

namespace BayesCircuit.Collection.Ascending

variable {u v : Nat} {xs ys : List Nat}

/-- A list without repetitions, the smallest number first. -/
abbrev Strict (xs : List Nat) : Prop := xs.Pairwise (· < ·)

@[simp]
theorem mem_insert : u ∈ insert v xs ↔ u = v ∨ u ∈ xs := by
  induction xs with
  | nil => simp [insert]
  | cons x xs ih =>
      unfold insert
      split
      · simp
      · split
        · rw [List.mem_cons, ih, List.mem_cons, or_left_comm]
        · have : v = x := by omega
          simp [this]

@[simp]
theorem mem_union : u ∈ union xs ys ↔ u ∈ xs ∨ u ∈ ys := by
  unfold union
  induction ys generalizing xs with
  | nil => simp
  | cons y ys ih => rw [List.foldl_cons, ih, mem_insert, List.mem_cons, or_comm (a := u = y), or_assoc]

@[simp]
theorem mem_ofList : u ∈ ofList xs ↔ u ∈ xs := by
  simp [ofList]

@[simp]
theorem mem_erase : u ∈ erase v xs ↔ u ∈ xs ∧ u ≠ v := by
  simp [erase]

@[simp]
theorem mem_diff : u ∈ diff xs ys ↔ u ∈ xs ∧ u ∉ ys := by
  simp [diff]

theorem strict_insert (h : Strict xs) : Strict (insert v xs) := by
  induction xs with
  | nil => exact List.pairwise_singleton _ _
  | cons x xs ih =>
      obtain ⟨hx, hxs⟩ := List.pairwise_cons.1 h
      unfold insert
      split
      · rename_i hv
        refine List.pairwise_cons.2 ⟨fun u hu => ?_, h⟩
        rcases List.mem_cons.1 hu with rfl | hu
        · exact hv
        · exact hv.trans (hx u hu)
      · split
        · rename_i hv
          refine List.pairwise_cons.2 ⟨fun u hu => ?_, ih hxs⟩
          rcases mem_insert.1 hu with rfl | hu
          · exact hv
          · exact hx u hu
        · exact h

theorem strict_union (h : Strict xs) : Strict (union xs ys) := by
  unfold union
  induction ys generalizing xs with
  | nil => exact h
  | cons y ys ih => exact ih (strict_insert h)

theorem strict_ofList : Strict (ofList xs) := strict_union List.Pairwise.nil

theorem strict_erase (h : Strict xs) : Strict (erase v xs) := h.filter _

theorem Strict.nodup (h : Strict xs) : xs.Nodup := h.imp fun hlt => Nat.ne_of_lt hlt

/-- An ascending list is determined by its members. -/
theorem Strict.eq_of_mem (hx : Strict xs) (hy : Strict ys) (h : ∀ u, u ∈ xs ↔ u ∈ ys) : xs = ys := by
  have hperm : xs.Perm ys := (List.perm_ext_iff_of_nodup hx.nodup hy.nodup).2 h
  exact hperm.eq_of_pairwise (fun _ _ _ _ h h' => absurd (h.trans h') (Nat.lt_irrefl _)) hx hy

theorem ofList_eq (hy : Strict ys) (h : ∀ u, u ∈ xs ↔ u ∈ ys) : ofList xs = ys :=
  strict_ofList.eq_of_mem hy fun u => by rw [mem_ofList, h]

/-- Sorting different numbers only rearranges them. -/
theorem ofList_perm (h : xs.Nodup) : (ofList xs).Perm xs :=
  (List.perm_ext_iff_of_nodup strict_ofList.nodup h).2 fun _ => mem_ofList

/-! ## Positions -/

theorem projectionFrom_eq : ∀ {i : Nat} {xs ys : List Nat}, Strict xs → Strict ys →
    Counter.projectionFrom i xs ys = ys.map fun y => (xs.findIdx? (· == y)).map (· + i)
  | i, xs, [], _, _ => by
      rw [Counter.projectionFrom]
      rfl
  | i, [], y :: ys, hx, hy => by
      rw [Counter.projectionFrom, projectionFrom_eq hx (List.pairwise_cons.1 hy).2]
      rfl
  | i, x :: xs, y :: ys, hx, hy => by
      obtain ⟨hx₁, hx₂⟩ := List.pairwise_cons.1 hx
      obtain ⟨hy₁, hy₂⟩ := List.pairwise_cons.1 hy
      -- numbers above `x` are found in the rest of the list
      have hrest : ∀ z, x < z → ((x :: xs).findIdx? (· == z)).map (· + i) =
          (xs.findIdx? (· == z)).map (· + (i + 1)) := by
        intro z hz
        have hne : (x == z) = false := by simpa using Nat.ne_of_lt hz
        rw [List.findIdx?_cons, hne, if_neg (by decide), Option.map_map]
        congr 1
        funext j
        simp only [Function.comp_apply]
        omega
      rw [Counter.projectionFrom]
      split
      · rename_i hlt
        rw [projectionFrom_eq hx₂ hy]
        refine List.map_congr_left fun z hz => (hrest z ?_).symm
        rcases List.mem_cons.1 hz with rfl | hz
        · exact hlt
        · exact hlt.trans (hy₁ z hz)
      · rename_i hge
        split
        · rename_i hlt
          have hnone : (x :: xs).findIdx? (· == y) = none := by
            rw [List.findIdx?_eq_none_iff]
            intro z hz
            rcases List.mem_cons.1 hz with rfl | hz
            · simpa using Nat.ne_of_gt hlt
            · simpa using Nat.ne_of_gt (hlt.trans (hx₁ z hz))
          rw [projectionFrom_eq hx hy₂, List.map_cons, hnone]
          rfl
        · obtain rfl : x = y := by omega
          rw [projectionFrom_eq hx₂ hy₂, List.map_cons, List.findIdx?_cons]
          simp only [BEq.rfl, if_true, Option.map_some, Nat.zero_add]
          congr 1
          exact List.map_congr_left fun z hz => (hrest z (hy₁ z hz)).symm
termination_by _ xs ys => xs.length + ys.length

theorem projection_eq (hx : Strict xs) (hy : Strict ys) :
    Counter.projection xs ys = Counter.projectionUnsorted xs ys := by
  rw [Counter.projection, projectionFrom_eq hx hy, Counter.projectionUnsorted]
  simp

/-- What stands at the position of a member. -/
theorem getD_of_findIdx? {α : Type} {f : Nat → α} {d : α} {p : Nat}
    (h : xs.findIdx? (· == u) = some p) : (xs.map f).getD p d = f u := by
  obtain ⟨hp, hu, _⟩ := List.findIdx?_eq_some_iff_getElem.1 h
  have hu : xs[p] = u := by simpa using hu
  rw [List.getD_eq_getElem?_getD, List.getElem?_map, List.getElem?_eq_getElem hp, hu]
  rfl

theorem exists_findIdx? (h : u ∈ xs) : ∃ p, xs.findIdx? (· == u) = some p := by
  cases hp : xs.findIdx? (· == u) with
  | some p => exact ⟨p, rfl⟩
  | none =>
      rw [List.findIdx?_eq_none_iff] at hp
      simpa using hp u h

end BayesCircuit.Collection.Ascending
