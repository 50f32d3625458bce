import BayesCircuit.Collection.Arena
import Mathlib.Data.List.Perm.Subperm

/-!
# The free list of an arena

The slots that can be handed out again are those that are empty, each listed once
(`Arena.Valid`). Under this condition an arena is a finite map: `alloc` adds a value under a
number that was not there, `free` takes one away, `modify` and `set` change one, and all of them leave
every other slot alone. `used` counts the values (`Valid.used_eq`), and `toList` lists them
(`mem_toList`).

A `History` is what can happen to an arena. Slots are made only when all are in use, so there are
never more of them than were in use at one time.
-/

namespace BayesCircuit.Collection.Arena

variable {α : Type} {a b : Arena α} {x y : α} {i j : Nat}

/-- The free list names every empty slot once. -/
structure Valid (a : Arena α) : Prop where
  nodup : a.vacant.Nodup
  mem_vacant : ∀ i, i ∈ a.vacant ↔ i < a.size ∧ a.get? i = none
  used_add : a.used + a.vacant.length = a.size

/-! ## Slots -/

theorem lt_size_of_get? (h : a.get? i = some x) : i < a.size := by
  unfold get? at h
  by_contra hi
  rw [Array.getElem?_eq_none (by simpa [size] using hi)] at h
  cases h

theorem get?_eq_none_of_size_le (h : a.size ≤ i) : a.get? i = none := by
  cases hx : a.get? i with
  | none => rfl
  | some x => exact absurd (lt_size_of_get? hx) (by omega)

theorem isUsed_iff : a.isUsed i = true ↔ ∃ x, a.get? i = some x := by
  simp [isUsed, Option.isSome_iff_exists]

theorem get_eq_ok (h : a.get? i = some x) : a.get i = .ok x := by
  simp [get, expect, h]

theorem get_eq_ok_iff : a.get i = .ok x ↔ a.get? i = some x := by
  unfold get expect
  cases a.get? i <;> simp [abort]

@[simp]
theorem get?_empty : (empty : Arena α).get? i = none := by
  simp [empty, get?]

theorem eq_empty_of_reserve {bits : Nat} (h : reserve bits = .ok a) : a = empty := by
  unfold reserve require ensure at h
  split at h <;> cases h
  rfl

theorem valid_empty : (empty : Arena α).Valid where
  nodup := by simp [empty]
  mem_vacant := by simp [empty, size]
  used_add := by simp [empty, size]

/-! ## Making a slot -/

theorem get?_alloc_self (ha : a.Valid) : (a.alloc x).2.get? (a.alloc x).1 = some x := by
  unfold alloc
  split
  · rename_i i rest h
    have hi : i < a.size := ((ha.mem_vacant i).1 (by simp [h])).1
    simp only [size] at hi
    simp [get?, hi]
  · simp [get?]

theorem get?_alloc_of_ne (h : j ≠ (a.alloc x).1) : (a.alloc x).2.get? j = a.get? j := by
  unfold alloc at h ⊢
  split at h
  · simp only [get?]
    rw [Array.getElem?_setIfInBounds_ne (Ne.symm h)]
  · simp only [get?]
    rw [Array.getElem?_push]
    simp only [h, if_false]

/-- A new value gets a number that was not in use. -/
theorem get?_alloc_fst (ha : a.Valid) : a.get? (a.alloc x).1 = none := by
  unfold alloc
  split
  · rename_i i rest h
    exact ((ha.mem_vacant i).1 (by simp [h])).2
  · exact get?_eq_none_of_size_le (Nat.le_refl _)

theorem get?_alloc (ha : a.Valid) :
    (a.alloc x).2.get? j = if j = (a.alloc x).1 then some x else a.get? j := by
  split
  · rename_i h
    rw [h, get?_alloc_self ha]
  · rename_i h
    exact get?_alloc_of_ne h

theorem used_alloc : (a.alloc x).2.used = a.used + 1 := by
  unfold alloc
  split <;> rfl

theorem valid_alloc (ha : a.Valid) : (a.alloc x).2.Valid := by
  have hget := fun j => get?_alloc (x := x) (j := j) ha
  have hused := used_alloc (a := a) (x := x)
  have hadd := ha.used_add
  cases hv : a.vacant with
  | nil =>
      have hall : a.alloc x = (a.slots.size, ⟨a.slots.push (some x), [], a.used + 1⟩) := by
        simp [alloc, hv]
      rw [hall] at hget hused ⊢
      rw [hv] at hadd
      refine ⟨by simp, fun i => ?_, by simp [size] at hadd ⊢; omega⟩
      have hmem := ha.mem_vacant i
      rw [hv] at hmem
      simp only [size, Array.size_push, hget i] at hmem ⊢
      by_cases hi : i = a.slots.size
      · simp [hi]
      · simp only [hi, if_false]
        rw [show i < a.slots.size + 1 ↔ i < a.slots.size by omega]
        exact hmem
  | cons i₀ rest =>
      have hall : a.alloc x =
          (i₀, ⟨a.slots.setIfInBounds i₀ (some x), rest, a.used + 1⟩) := by
        simp [alloc, hv]
      have hn := ha.nodup
      rw [hall] at hget hused ⊢
      rw [hv] at hadd hn
      obtain ⟨hnot, hrest⟩ := List.nodup_cons.1 hn
      refine ⟨hrest, fun i => ?_, by simp [size] at hadd ⊢; omega⟩
      have hmem := ha.mem_vacant i
      rw [hv] at hmem
      simp only [size, Array.size_setIfInBounds, hget i] at hmem ⊢
      by_cases hi : i = i₀
      · subst hi
        simp [hnot]
      · simp only [hi, if_false]
        rw [← hmem]
        simp [hi]

/-! ## Emptying a slot -/

/-- Slots in use are not vacant, so there are no more of them than are counted. -/
theorem Valid.length_le_used {l : List Nat} (ha : a.Valid) (hl : l.Nodup)
    (h : ∀ i ∈ l, (a.get? i).isSome = true) : l.length ≤ a.used := by
  have hnodup : (l ++ a.vacant).Nodup := by
    refine List.nodup_append.2 ⟨hl, ha.nodup, ?_⟩
    rintro i hi _ hv rfl
    have hsome := h i hi
    rw [((ha.mem_vacant i).1 hv).2] at hsome
    cases hsome
  have hrange : ∀ i ∈ l ++ a.vacant, i ∈ List.range a.size := by
    intro i hi
    rcases List.mem_append.1 hi with hi | hi
    · obtain ⟨x, hx⟩ := Option.isSome_iff_exists.1 (h i hi)
      exact List.mem_range.2 (lt_size_of_get? hx)
    · exact List.mem_range.2 ((ha.mem_vacant i).1 hi).1
  have hlen := (hnodup.subperm hrange).length_le
  rw [List.length_append, List.length_range] at hlen
  have hadd := ha.used_add
  omega

theorem Valid.used_pos (ha : a.Valid) (h : a.get? i = some x) : 0 < a.used := by
  have hnodup : [i].Nodup := List.nodup_cons.2 ⟨List.not_mem_nil, List.nodup_nil⟩
  refine ha.length_le_used hnodup fun j hj => ?_
  rw [List.mem_singleton.1 hj, h]
  rfl

theorem free_eq_ok (h : a.get? i = some x) :
    a.free i = .ok (x, ⟨a.slots.setIfInBounds i none, i :: a.vacant, a.used - 1⟩) := by
  simp [free, get_eq_ok h, bind, Except.bind, pure, Except.pure]

/-- Emptying a slot is possible if it is in use. -/
theorem free_eq_ok_iff : a.free i = .ok (x, b) ↔
    a.get? i = some x ∧ b = ⟨a.slots.setIfInBounds i none, i :: a.vacant, a.used - 1⟩ := by
  constructor
  · intro h
    cases hx : a.get i with
    | error f => simp [free, hx, bind, Except.bind] at h
    | ok y =>
        have hy := get_eq_ok_iff.1 hx
        rw [free_eq_ok hy] at h
        cases h
        exact ⟨hy, rfl⟩
  · rintro ⟨h, rfl⟩
    exact free_eq_ok h

theorem get?_of_free (h : a.free i = .ok (x, b)) :
    b.get? j = if j = i then none else a.get? j := by
  obtain ⟨hx, rfl⟩ := free_eq_ok_iff.1 h
  have hi := lt_size_of_get? hx
  by_cases hj : j = i
  · subst hj
    simp only [size] at hi
    simp [get?, hi]
  · simp only [get?, hj, if_false]
    rw [Array.getElem?_setIfInBounds_ne (Ne.symm hj)]

theorem valid_of_free (ha : a.Valid) (h : a.free i = .ok (x, b)) : b.Valid := by
  have hget := fun j => get?_of_free (j := j) h
  obtain ⟨hsome, rfl⟩ := free_eq_ok_iff.1 h
  have hi := lt_size_of_get? hsome
  have hnot : i ∉ a.vacant := by
    rw [ha.mem_vacant]
    simp [hsome]
  have hadd := ha.used_add
  have hpos := ha.used_pos hsome
  refine ⟨List.nodup_cons.2 ⟨hnot, ha.nodup⟩, fun k => ?_, ?_⟩
  · rw [hget k]
    simp only [size, Array.size_setIfInBounds, List.mem_cons]
    by_cases hk : k = i
    · subst hk
      simpa [size] using hi
    · simp only [hk, false_or, if_false]
      exact ha.mem_vacant k
  · simp only [size, Array.size_setIfInBounds, List.length_cons] at hadd ⊢
    omega

/-! ## Changing a value -/

theorem get?_modify (f : α → α) :
    (a.modify i f).get? j = if j = i then (a.get? j).map f else a.get? j := by
  simp only [modify, get?, Array.getElem?_modify]
  by_cases hj : j = i
  · subst hj
    cases a.slots[j]? with
    | none => simp
    | some o => cases o <;> simp
  · simp [hj, Ne.symm hj]

theorem valid_modify (ha : a.Valid) (f : α → α) : (a.modify i f).Valid where
  nodup := ha.nodup
  mem_vacant k := by
    have hsize : (a.modify i f).size = a.size := by simp [modify, size]
    rw [get?_modify, hsize]
    have := ha.mem_vacant k
    simp only [modify] at this ⊢
    rw [this]
    split <;> simp
  used_add := by
    have := ha.used_add
    simpa [modify, size] using this

/-- Replacing a value changes it to the new one. -/
theorem set_eq_ok (h : a.isUsed i = true) : a.set i x = .ok (a.modify i fun _ => x) := by
  obtain ⟨y, hy⟩ := isUsed_iff.1 h
  have hslot : a.slots[i]? = some (some y) := Option.join_eq_some_iff.1 hy
  have hslots : a.slots.setIfInBounds i (some x) = a.slots.modify i (·.map fun _ => x) := by
    refine Array.ext_getElem? fun j => ?_
    rw [Array.getElem?_setIfInBounds, Array.getElem?_modify]
    by_cases hj : i = j
    · subst hj
      rw [if_pos rfl, if_pos (Array.getElem?_eq_some_iff.1 hslot).1, if_pos rfl, hslot]
      rfl
    · simp [hj]
  simp [set, modify, require, ensure, h, hslots, bind, Except.bind, pure, Except.pure]

theorem set_eq_ok_iff : a.set i x = .ok b ↔ a.isUsed i = true ∧ b = a.modify i fun _ => x := by
  cases h : a.isUsed i with
  | false => simp [set, require, ensure, abort, h, bind, Except.bind]
  | true => simp [set_eq_ok h, eq_comm]

@[simp]
theorem size_modify (f : α → α) : (a.modify i f).size = a.size := by
  simp [modify, size]

/-! ## The values of all slots -/

/-- The slots in use, in ascending order. -/
def occupied (a : Arena α) : List Nat := (List.range a.size).filter a.isUsed

theorem isUsed_eq_false_iff : a.isUsed i = false ↔ a.get? i = none := by
  simp [isUsed]

theorem toList_eq : a.toList = (List.range a.size).filterMap fun i => (a.get? i).map (i, ·) := by
  have hzip : a.slots.toList.zipIdx = (List.range a.size).map fun i => (a.get? i, i) := by
    refine List.ext_getElem (by simp [size]) fun i hi _ => ?_
    have hlt : i < a.slots.size := by simpa using hi
    simp [get?, Array.getElem?_eq_getElem hlt]
  rw [toList, hzip, List.filterMap_map]
  rfl

theorem mem_toList : (i, x) ∈ a.toList ↔ a.get? i = some x := by
  rw [toList_eq, List.mem_filterMap]
  constructor
  · rintro ⟨j, _, h⟩
    obtain ⟨y, hy, h⟩ := Option.map_eq_some_iff.1 h
    cases h
    exact hy
  · intro h
    exact ⟨i, List.mem_range.2 (lt_size_of_get? h), by rw [h]; rfl⟩

theorem map_fst_toList : a.toList.map (·.1) = a.occupied := by
  rw [toList_eq, List.map_filterMap, occupied, ← List.filterMap_eq_filter]
  refine List.filterMap_congr fun i _ => ?_
  cases h : a.get? i <;> simp [isUsed, h, Option.guard]

/-- The slots are listed in ascending order. -/
theorem ascends_toList : a.toList.Pairwise (·.1 < ·.1) := by
  rw [← List.pairwise_map, map_fst_toList]
  exact List.pairwise_lt_range.filter _

/-- The number that is kept is the number of slots in use. -/
theorem Valid.used_eq (ha : a.Valid) : a.used = a.occupied.length := by
  have hvacant : a.vacant.Perm ((List.range a.size).filter (!a.isUsed ·)) := by
    refine (List.perm_ext_iff_of_nodup ha.nodup (List.nodup_range.filter _)).2 fun i => ?_
    rw [ha.mem_vacant, List.mem_filter, List.mem_range, Bool.not_eq_true', isUsed_eq_false_iff]
  have hall := (List.filter_append_perm a.isUsed (List.range a.size)).length_eq
  rw [List.length_append, ← hvacant.length_eq, List.length_range] at hall
  have hadd := ha.used_add
  rw [occupied]
  omega

/-! ## What happens to an arena -/

/-- What happens to a slot. -/
inductive Event (α : Type) where
  | stored (i : Nat) (x : α)
  | emptied (i : Nat)

/-- What was stored in a slot since it was emptied for the last time, of the latest event first. -/
def lastStored (i : Nat) : List (Event α) → Option α
  | [] => none
  | .stored j x :: events => if i = j then some x else lastStored i events
  | .emptied j :: events => if i = j then none else lastStored i events

/-- What has happened to an arena, the latest event first, and how many slots were in use at one
time at most. -/
inductive History : List (Event α) → Nat → Arena α → Prop where
  | reserve {bits : Nat} {a : Arena α} : Arena.reserve bits = .ok a → History [] 0 a
  | alloc {events : List (Event α)} {peak i : Nat} {a b : Arena α} {x : α} :
      History events peak a → a.alloc x = (i, b) →
      History (.stored i x :: events) (max peak b.occupied.length) b
  | set {events : List (Event α)} {peak i : Nat} {a b : Arena α} {x : α} :
      History events peak a → a.set i x = .ok b →
      History (.stored i x :: events) (max peak b.occupied.length) b
  | free {events : List (Event α)} {peak i : Nat} {a b : Arena α} {x : α} :
      History events peak a → a.free i = .ok (x, b) →
      History (.emptied i :: events) (max peak b.occupied.length) b

variable {events : List (Event α)} {peak : Nat}

theorem History.valid (h : History events peak a) : a.Valid := by
  induction h with
  | reserve h => exact eq_empty_of_reserve h ▸ valid_empty
  | @alloc _ _ _ a b x _ hrun ih =>
      have hb : (a.alloc x).2 = b := congrArg Prod.snd hrun
      exact hb ▸ valid_alloc ih
  | set _ hrun ih => exact (set_eq_ok_iff.1 hrun).2 ▸ valid_modify ih _
  | free _ hrun ih => exact valid_of_free ih hrun

/-- A slot holds what was stored in it. -/
theorem History.get?_eq (h : History events peak a) : a.get? i = lastStored i events := by
  induction h with
  | reserve h => rw [eq_empty_of_reserve h, get?_empty, lastStored]
  | @alloc _ _ j a b x hold hrun ih =>
      have hget := get?_alloc (x := x) (j := i) hold.valid
      rw [hrun] at hget
      rw [hget, lastStored, ih]
  | @set _ _ j a b x _ hrun ih =>
      obtain ⟨hused, rfl⟩ := set_eq_ok_iff.1 hrun
      obtain ⟨y, hy⟩ := isUsed_iff.1 hused
      rw [get?_modify, lastStored, ← ih]
      split
      · rename_i hij
        rw [hij, hy, Option.map_some]
      · rfl
  | free _ hrun ih => rw [get?_of_free hrun, lastStored, ih]

/-- There are as many slots as were in use at one time. -/
theorem History.size_eq (h : History events peak a) : a.size = peak := by
  induction h with
  | reserve h =>
      rw [eq_empty_of_reserve h]
      rfl
  | @alloc _ peak i a b x hold hrun ih =>
      have hnew := hold.alloc hrun
      rw [← hnew.valid.used_eq]
      have hused : b.used = a.used + 1 := by rw [← used_alloc (x := x), hrun]
      have hadd := hold.valid.used_add
      have hsize : b.size = if a.vacant = [] then a.size + 1 else a.size := by
        unfold Arena.alloc at hrun
        split at hrun <;> cases hrun <;> simp [*, size]
      split at hsize
      · rename_i hvacant
        rw [hvacant, List.length_nil] at hadd
        omega
      · rename_i hvacant
        have hpos := List.length_pos_iff.2 hvacant
        omega
  | @set _ peak i a b x hold hrun ih =>
      have hnew := hold.set hrun
      obtain ⟨-, rfl⟩ := set_eq_ok_iff.1 hrun
      have hadd := hnew.valid.used_add
      rw [← hnew.valid.used_eq, size_modify]
      rw [size_modify] at hadd
      omega
  | @free _ peak i a b x hold hrun ih =>
      have hnew := hold.free hrun
      have hadd := hnew.valid.used_add
      have hsize : b.size = a.size := by
        rw [(free_eq_ok_iff.1 hrun).2, size, Array.size_setIfInBounds, size]
      rw [← hnew.valid.used_eq]
      omega

/-- Whatever has happened to an arena, a slot in use is never handed out: the free list names every
empty slot once, a new value gets a slot that was empty and leaves all others alone, each slot holds
what was stored in it last, and slots in use can be written and emptied. There are as many slots as
were in use at one time, and the slots in use are counted and listed in ascending order. -/
theorem History.slots_kept (h : History events peak a) :
    (a.vacant.Nodup ∧ ∀ i, i ∈ a.vacant ↔ i < a.size ∧ a.isUsed i = false) ∧
    (∀ x, a.isUsed (a.alloc x).1 = false ∧ (a.alloc x).2.get? (a.alloc x).1 = some x ∧
      ∀ j, j ≠ (a.alloc x).1 → (a.alloc x).2.get? j = a.get? j) ∧
    (∀ i x, a.get i = .ok x ↔ lastStored i events = some x) ∧
    (∀ i, a.isUsed i = true → (∃ x b, a.free i = .ok (x, b) ∧ lastStored i events = some x) ∧
      ∀ y, ∃ b, a.set i y = .ok b) ∧
    a.used = a.occupied.length ∧ a.size = peak ∧
    a.toList.Pairwise (·.1 < ·.1) ∧ ∀ i x, (i, x) ∈ a.toList ↔ a.get? i = some x := by
  have ha := h.valid
  refine ⟨⟨ha.nodup, fun i => ?_⟩, fun x => ⟨?_, get?_alloc_self ha, fun j => get?_alloc_of_ne⟩,
    fun i x => ?_, fun i hi => ⟨?_, fun y => ⟨_, set_eq_ok hi⟩⟩, ha.used_eq, h.size_eq,
    ascends_toList, fun i x => mem_toList⟩
  · rw [ha.mem_vacant, isUsed_eq_false_iff]
  · rw [isUsed_eq_false_iff, get?_alloc_fst ha]
  · rw [get_eq_ok_iff, h.get?_eq]
  · obtain ⟨x, hx⟩ := isUsed_iff.1 hi
    exact ⟨x, _, free_eq_ok hx, h.get?_eq ▸ hx⟩

/-- Of two slots the first is emptied and gets another value, and the second one is written: slot two
has never been made. -/
theorem slots_kept_reused : ∃ a : Arena Char,
    History [.stored 1 'd', .stored 0 'c', .emptied 0, .stored 1 'b', .stored 0 'a'] 2 a ∧
    a.vacant = [] ∧ a.size = 2 ∧ a.get 0 = .ok 'c' ∧ a.get 1 = .ok 'd' ∧
    a.isUsed (a.alloc 'e').1 = false ∧ a.toList = [(0, 'c'), (1, 'd')] := by
  have hreserve : Arena.reserve 2 = .ok (empty : Arena Char) := rfl
  have hboth := ((History.reserve hreserve).alloc (x := 'a') rfl).alloc (x := 'b') rfl
  have hstored := ((hboth.free (i := 0) rfl).alloc (x := 'c') rfl).set (i := 1) (x := 'd') rfl
  obtain ⟨_, halloc, hget, _, _, hsize, _⟩ := hstored.slots_kept
  exact ⟨_, hstored, rfl, hsize, (hget 0 'c').2 rfl, (hget 1 'd').2 rfl, (halloc 'e').1, rfl⟩

end BayesCircuit.Collection.Arena
