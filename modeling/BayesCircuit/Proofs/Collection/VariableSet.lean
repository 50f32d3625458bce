import BayesCircuit.Collection.VariableSet
import Mathlib.Data.Finset.Card

/-!
# Sets of variables as finite sets of numbers

A bit of a word can be looked up, set and cleared by its mask (`marks_eq`, `getLsbD_or_mask`,
`getLsbD_and_not_mask`), and taking off the lowest bit that is set leaves those above it
(`getLsbD_dropLowest`), so `ones` lists the bits of a word in ascending order.

A set `Represents` a finite set of numbers if it has its members and counts them. Every operation
keeps this, so a set is determined by its capacity and its members (`Represents.eq_iff`), whatever
was done to it before (`serveAll_finset`). The set of the variables of a list does not depend on
their order.
-/

namespace BayesCircuit.Collection.VariableSet

variable {word : BitVec 64} {s t : VariableSet} {m : Finset Nat} {n i u v : Nat} {us vs : List Nat}

/-! ## The bits of a word -/

theorem getLsbD_mask (hi : i < 64) : (mask v).getLsbD i = decide (i = v % 64) := by
  have hv : v % 64 < 64 := Nat.mod_lt v (by decide)
  rw [mask, BitVec.getLsbD_shiftLeft, BitVec.getLsbD_one, Bool.eq_iff_iff]
  simp only [Bool.and_eq_true, Bool.not_eq_true', decide_eq_true_eq, decide_eq_false_iff_not]
  omega

theorem marks_eq : marks word v = word.getLsbD (v % 64) := by
  have hv : v % 64 < 64 := Nat.mod_lt v (by decide)
  rw [marks, Bool.eq_iff_iff, bne_iff_ne]
  constructor
  · intro hne
    by_contra hbit
    refine hne (BitVec.eq_of_getLsbD_eq fun i hi => ?_)
    rw [BitVec.getLsbD_and, getLsbD_mask hi, BitVec.getLsbD_zero]
    by_cases h : i = v % 64
    · rw [h, Bool.of_not_eq_true hbit, Bool.false_and]
    · rw [decide_eq_false h, Bool.and_false]
  · intro hbit hzero
    have hand := congrArg (BitVec.getLsbD · (v % 64)) hzero
    simp [hbit, getLsbD_mask hv] at hand

/-- Only the bit of a number is changed by adding its mask. -/
theorem getLsbD_or_mask (hi : i < 64) :
    (word ||| mask v).getLsbD i = (decide (i = v % 64) || word.getLsbD i) := by
  rw [BitVec.getLsbD_or, getLsbD_mask hi, Bool.or_comm]

theorem getLsbD_and_not_mask (hi : i < 64) :
    (word &&& ~~~mask v).getLsbD i = (!decide (i = v % 64) && word.getLsbD i) := by
  rw [BitVec.getLsbD_and, BitVec.getLsbD_not, getLsbD_mask hi, decide_eq_true hi, Bool.true_and,
    Bool.and_comm]

/-- A number and its predecessor have the ones of the number in common, without the lowest one. -/
theorem testBit_and_pred : ∀ {n i : Nat}, (n &&& (n - 1)).testBit i = true ↔
    n.testBit i = true ∧ ∃ j < i, n.testBit j = true
  | n, 0 => by
      rw [Nat.testBit_and, Bool.and_eq_true]
      simp only [Nat.testBit_zero, decide_eq_true_eq]
      omega
  | n, i + 1 => by
      rw [Nat.testBit_and, Nat.testBit_add_one, Nat.testBit_add_one]
      rcases Nat.mod_two_eq_zero_or_one n with heven | hodd
      · have hhalf : (n - 1) / 2 = n / 2 - 1 := by omega
        have hlow : n.testBit 0 = false := by simp [heven]
        rw [hhalf, ← Nat.testBit_and, testBit_and_pred]
        refine and_congr_right fun _ => ⟨?_, ?_⟩
        · rintro ⟨j, hj, hbit⟩
          exact ⟨j + 1, by omega, by rwa [Nat.testBit_add_one]⟩
        · rintro ⟨j, hj, hbit⟩
          cases j with
          | zero => exact absurd (hlow.symm.trans hbit) Bool.false_ne_true
          | succ j => exact ⟨j, by omega, by rwa [Nat.testBit_add_one] at hbit⟩
      · have hhalf : (n - 1) / 2 = n / 2 := by omega
        have hlow : n.testBit 0 = true := by simp [hodd]
        rw [hhalf, Bool.and_self]
        exact (and_iff_left ⟨0, Nat.succ_pos i, hlow⟩).symm

/-- Taking off the lowest one of a word leaves those above it. -/
theorem getLsbD_dropLowest (h : word ≠ 0#64) : (word &&& (word - 1#64)).getLsbD i = true ↔
    word.getLsbD i = true ∧ word.ctz.toNat < i := by
  rw [← BitVec.testBit_toNat, BitVec.toNat_and, toNat_sub_one h, testBit_and_pred]
  simp only [BitVec.testBit_toNat]
  refine and_congr_right fun _ => ⟨?_, fun hlt => ⟨_, hlt, BitVec.getLsbD_true_ctz_of_ne_zero h⟩⟩
  rintro ⟨j, hj, hbit⟩
  by_contra hle
  have hclear := BitVec.getLsbD_false_of_lt_ctz (x := word) (i := j) (by omega)
  exact absurd (hclear.symm.trans hbit) Bool.false_ne_true

theorem mem_ones : i ∈ ones word ↔ word.getLsbD i = true := by
  fun_induction ones word with
  | case1 => simp
  | case2 word h ih =>
      rw [List.mem_cons, ih, getLsbD_dropLowest h]
      constructor
      · rintro (rfl | ⟨hbit, -⟩)
        · exact BitVec.getLsbD_true_ctz_of_ne_zero h
        · exact hbit
      · intro hbit
        rcases Nat.lt_trichotomy i word.ctz.toNat with hlt | heq | hlt
        · have hclear := BitVec.getLsbD_false_of_lt_ctz hlt
          exact absurd (hclear.symm.trans hbit) Bool.false_ne_true
        · exact Or.inl heq
        · exact Or.inr ⟨hbit, hlt⟩

theorem ones_ascend : (ones word).Pairwise (· < ·) := by
  fun_induction ones word with
  | case1 => exact .nil
  | case2 word h ih =>
      exact List.pairwise_cons.2 ⟨fun i hi => ((getLsbD_dropLowest h).1 (mem_ones.1 hi)).2, ih⟩

theorem lt_of_mem_ones (h : i ∈ ones word) : i < 64 := by
  by_contra hle
  have hclear := BitVec.getLsbD_of_ge word i (by omega)
  exact absurd (hclear.symm.trans (mem_ones.1 h)) Bool.false_ne_true

/-! ## Members -/

theorem contains_iff : s.contains v = true ↔
    ∃ word, s.words[v / 64]? = some word ∧ word.getLsbD (v % 64) = true := by
  simp only [contains, Option.any_eq_true, marks_eq]

theorem lt_capacity_iff : v < s.capacity ↔ v / 64 < s.words.size := by
  rw [capacity]
  omega

theorem lt_capacity_of_contains (h : s.contains v = true) : v < s.capacity := by
  obtain ⟨word, hword, -⟩ := contains_iff.1 h
  exact lt_capacity_iff.2 (Array.getElem?_eq_some_iff.1 hword).1

/-- Sets of one capacity are equal if they have the same members, and count as many. -/
theorem ext (hcapacity : s.capacity = t.capacity) (hcard : s.card = t.card)
    (hmem : ∀ u, s.contains u = t.contains u) : s = t := by
  have hsize : s.words.size = t.words.size := by
    rw [capacity, capacity] at hcapacity
    omega
  have hwords : s.words = t.words := by
    refine Array.ext hsize fun i hi hi' => BitVec.eq_of_getLsbD_eq fun j hj => ?_
    have hdiv : (64 * i + j) / 64 = i := by omega
    have hmod : (64 * i + j) % 64 = j := by omega
    have hbit := hmem (64 * i + j)
    simpa only [contains, marks_eq, hdiv, hmod, Array.getElem?_eq_getElem hi,
      Array.getElem?_eq_getElem hi', Option.any_some] using hbit
  obtain ⟨_, _⟩ := s
  obtain ⟨_, _⟩ := t
  exact congrArg₂ VariableSet.mk hwords hcard

/-- Changing a bit of a word changes only whether its number is a member. -/
theorem contains_set {w : BitVec 64} {k : Nat} (hword : s.words[v / 64]? = some word)
    (hothers : ∀ i < 64, i ≠ v % 64 → w.getLsbD i = word.getLsbD i) :
    contains ⟨s.words.setIfInBounds (v / 64) w, k⟩ u =
      if u = v then w.getLsbD (v % 64) else s.contains u := by
  have hlt : v / 64 < s.words.size := (Array.getElem?_eq_some_iff.1 hword).1
  rw [contains, Array.getElem?_setIfInBounds]
  by_cases hdiv : u / 64 = v / 64
  · rw [if_pos hdiv.symm, if_pos hlt, Option.any_some, marks_eq]
    by_cases huv : u = v
    · rw [if_pos huv, huv]
    · rw [if_neg huv, contains, hdiv, hword, Option.any_some, marks_eq]
      exact hothers _ (Nat.mod_lt u (by decide)) (by omega)
  · have huv : u ≠ v := fun heq => hdiv (heq ▸ rfl)
    rw [if_neg (Ne.symm hdiv), if_neg huv, contains]

theorem capacity_set {w : BitVec 64} {k : Nat} :
    capacity ⟨s.words.setIfInBounds i w, k⟩ = s.capacity := by
  rw [capacity, capacity, Array.size_setIfInBounds]

theorem exists_word (hv : v < s.capacity) :
    ∃ word, s.words[v / 64]? = some word ∧ s.contains v = marks word v := by
  have hword := Array.getElem?_eq_getElem (lt_capacity_iff.1 hv)
  exact ⟨_, hword, by rw [contains, hword, Option.any_some]⟩

theorem insert_of_contains (h : s.contains v = true) : s.insert v = .ok (false, s) := by
  obtain ⟨word, hword, hmarks⟩ := exists_word (lt_capacity_of_contains h)
  simp [insert, fetch, expect, hword, ← hmarks, h, bind, Except.bind, pure, Except.pure]

/-- A number that is not a member can be added. -/
theorem insert_of_not_contains (hv : v < s.capacity) (h : s.contains v = false) :
    ∃ t, s.insert v = .ok (true, t) ∧ t.capacity = s.capacity ∧ t.card = s.card + 1 ∧
      ∀ u, t.contains u = if u = v then true else s.contains u := by
  obtain ⟨word, hword, hmarks⟩ := exists_word hv
  have hbit : (word ||| mask v).getLsbD (v % 64) = true := by
    rw [getLsbD_or_mask (Nat.mod_lt v (by decide)), decide_eq_true rfl, Bool.true_or]
  refine ⟨⟨s.words.setIfInBounds (v / 64) (word ||| mask v), s.card + 1⟩, ?_, capacity_set, rfl,
    fun u => ?_⟩
  · simp [insert, fetch, expect, hword, ← hmarks, h, bind, Except.bind, pure, Except.pure]
  · rw [contains_set hword, hbit]
    intro i hi hne
    rw [getLsbD_or_mask hi, decide_eq_false hne, Bool.false_or]

theorem erase_of_not_contains (h : s.contains v = false) : s.erase v = (false, s) := by
  rw [erase]
  split
  · rfl
  · rename_i word hword
    have hmarks : marks word v = false := by
      rw [← h, contains, hword, Option.any_some]
    simp [hmarks]

theorem erase_of_contains (h : s.contains v = true) :
    ∃ t, s.erase v = (true, t) ∧ t.capacity = s.capacity ∧ t.card = s.card - 1 ∧
      ∀ u, t.contains u = if u = v then false else s.contains u := by
  obtain ⟨word, hword, hmarks⟩ := exists_word (lt_capacity_of_contains h)
  have hbit : (word &&& ~~~mask v).getLsbD (v % 64) = false := by
    rw [getLsbD_and_not_mask (Nat.mod_lt v (by decide)), decide_eq_true rfl, Bool.not_true,
      Bool.false_and]
  refine ⟨⟨s.words.setIfInBounds (v / 64) (word &&& ~~~mask v), s.card - 1⟩, ?_, capacity_set, rfl,
    fun u => ?_⟩
  · rw [erase, hword]
    simp [← hmarks, h]
  · rw [contains_set hword, hbit]
    intro i hi hne
    rw [getLsbD_and_not_mask hi, decide_eq_false hne, Bool.not_false, Bool.true_and]

/-! ## Finite sets of numbers -/

/-- A set has certain members, and as many as are counted. -/
structure Represents (s : VariableSet) (m : Finset Nat) : Prop where
  contains_iff : ∀ v, s.contains v = true ↔ v ∈ m
  card_eq : s.card = m.card

theorem Represents.contains_eq (h : s.Represents m) : s.contains v = decide (v ∈ m) := by
  rw [Bool.eq_iff_iff, h.contains_iff, decide_eq_true_iff]

/-- Two sets of one capacity are equal exactly if they have the same members. -/
theorem Represents.eq_iff {m' : Finset Nat} (hs : s.Represents m) (ht : t.Represents m')
    (hcapacity : s.capacity = t.capacity) : s = t ↔ ∀ v, s.contains v = t.contains v := by
  refine ⟨fun heq _ => by rw [heq], fun hmem => ext hcapacity ?_ hmem⟩
  have hsame : m = m' := Finset.ext fun v => by
    rw [← hs.contains_iff, ← ht.contains_iff, hmem]
  rw [hs.card_eq, ht.card_eq, hsame]

theorem represents_empty : (empty n).Represents ∅ where
  contains_iff v := by
    rw [VariableSet.contains_iff]
    simp +contextual [empty, Array.getElem?_replicate]
  card_eq := rfl

/-- Without words that have bits there are no members. -/
theorem represents_clear : s.clear.Represents ∅ where
  contains_iff v := by
    rw [VariableSet.contains_iff]
    simp [clear]
  card_eq := rfl

theorem capacity_clear : s.clear.capacity = s.capacity := by
  rw [capacity, capacity, clear, Array.size_map]

theorem Represents.insert (h : s.Represents m) (hv : v < s.capacity) :
    ∃ t, s.insert v = .ok (decide (v ∉ m), t) ∧ t.Represents (Insert.insert v m) ∧
      t.capacity = s.capacity := by
  by_cases hmem : v ∈ m
  · refine ⟨s, ?_, by rwa [Finset.insert_eq_of_mem hmem], rfl⟩
    rw [insert_of_contains ((h.contains_iff v).2 hmem), decide_eq_false (not_not_intro hmem)]
  · obtain ⟨t, hrun, hcapacity, hcard, hcontains⟩ :=
      insert_of_not_contains hv (Bool.of_not_eq_true (mt (h.contains_iff v).1 hmem))
    refine ⟨t, by rw [hrun, decide_eq_true hmem], ⟨fun u => ?_, ?_⟩, hcapacity⟩
    · rw [hcontains, Finset.mem_insert, ← h.contains_iff]
      by_cases huv : u = v <;> simp [huv]
    · rw [hcard, h.card_eq, Finset.card_insert_of_notMem hmem]

theorem Represents.erase (h : s.Represents m) :
    ∃ t, s.erase v = (decide (v ∈ m), t) ∧ t.Represents (m.erase v) ∧ t.capacity = s.capacity := by
  by_cases hmem : v ∈ m
  · obtain ⟨t, hrun, hcapacity, hcard, hcontains⟩ :=
      erase_of_contains ((h.contains_iff v).2 hmem)
    refine ⟨t, by rw [hrun, decide_eq_true hmem], ⟨fun u => ?_, ?_⟩, hcapacity⟩
    · rw [hcontains, Finset.mem_erase, ← h.contains_iff]
      by_cases huv : u = v <;> simp [huv]
    · rw [hcard, h.card_eq, Finset.card_erase_of_mem hmem]
  · refine ⟨s, ?_, by rwa [Finset.erase_eq_of_notMem hmem], rfl⟩
    rw [erase_of_not_contains (Bool.of_not_eq_true (mt (h.contains_iff v).1 hmem)),
      decide_eq_false hmem]

theorem Represents.adding (h : s.Represents m) (hv : v < s.capacity) :
    ∃ t, s.adding v = .ok t ∧ t.Represents (Insert.insert v m) ∧ t.capacity = s.capacity := by
  obtain ⟨t, hrun, ht, hcapacity⟩ := h.insert hv
  exact ⟨t, by rw [VariableSet.adding, hrun]; rfl, ht, hcapacity⟩

theorem Represents.insertMany (h : s.Represents m) (hvs : ∀ v ∈ vs, v < s.capacity) :
    ∃ t, s.insertMany vs = .ok t ∧ t.Represents (m ∪ vs.toFinset) ∧ t.capacity = s.capacity := by
  induction vs generalizing s m with
  | nil => exact ⟨s, rfl, by rwa [List.toFinset_nil, Finset.union_empty], rfl⟩
  | cons v vs ih =>
      obtain ⟨hv, hvs⟩ := List.forall_mem_cons.1 hvs
      obtain ⟨t, hrun, ht, hcapacity⟩ := h.adding hv
      obtain ⟨t', hrun', ht', hcapacity'⟩ := ih ht fun u hu => hcapacity ▸ hvs u hu
      refine ⟨t', ?_, ?_, hcapacity'.trans hcapacity⟩
      · rw [VariableSet.insertMany, List.foldlM_cons, hrun]
        exact hrun'
      · rwa [List.toFinset_cons, Finset.union_insert, ← Finset.insert_union]

theorem mem_toList : v ∈ s.toList ↔ s.contains v = true := by
  rw [toList, List.mem_flatMap, contains_iff]
  constructor
  · rintro ⟨⟨word, i⟩, hword, hv⟩
    obtain ⟨j, hj, rfl⟩ := List.mem_map.1 hv
    have hlt := lt_of_mem_ones hj
    have hdiv : (64 * i + j) / 64 = i := by omega
    have hmod : (64 * i + j) % 64 = j := by omega
    rw [List.mem_zipIdx_iff_getElem?, Array.getElem?_toList] at hword
    exact ⟨word, by rwa [hdiv], by rw [hmod]; exact mem_ones.1 hj⟩
  · rintro ⟨word, hword, hbit⟩
    refine ⟨(word, v / 64), ?_, List.mem_map.2 ⟨v % 64, mem_ones.2 hbit, Nat.div_add_mod v 64⟩⟩
    rwa [List.mem_zipIdx_iff_getElem?, Array.getElem?_toList]

/-- The members of an earlier word are smaller than those of a later one. -/
theorem toList_ascends : s.toList.Pairwise (· < ·) := by
  have hindex : s.words.toList.zipIdx.Pairwise (·.2 < ·.2) := by
    rw [← List.pairwise_map, List.zipIdx_map_snd]
    exact List.pairwise_lt_range'
  refine List.pairwise_flatMap.2 ⟨fun (word, i) _ => ?_, hindex.imp fun {p q} hlt u hu v hv => ?_⟩
  · exact List.pairwise_map.2 (ones_ascend.imp fun hlt => Nat.add_lt_add_left hlt _)
  · obtain ⟨j, hj, rfl⟩ := List.mem_map.1 hu
    obtain ⟨k, -, rfl⟩ := List.mem_map.1 hv
    have hj := lt_of_mem_ones hj
    omega

/-! ## Sets of the variables of a list -/

/-- The set of the variables of a list; what exceeds the capacity is left out. -/
def ofList (n : Nat) : List Nat → VariableSet
  | [] => .empty n
  | v :: vs =>
      match (ofList n vs).adding v with
      | .ok s => s
      | .error _ => ofList n vs

theorem represents_ofList : ∀ {vs : List Nat}, (∀ v ∈ vs, v < n) →
    (ofList n vs).Represents vs.toFinset ∧ (ofList n vs).capacity = (empty n).capacity
  | [], _ => ⟨represents_empty, rfl⟩
  | v :: vs, h => by
      obtain ⟨hv, hvs⟩ := List.forall_mem_cons.1 h
      obtain ⟨hrep, hcapacity⟩ := represents_ofList hvs
      have hlt : v < (ofList n vs).capacity := by
        rw [hcapacity, capacity, empty, Array.size_replicate]
        omega
      obtain ⟨t, hrun, ht, hsame⟩ := hrep.adding hlt
      rw [ofList, hrun, List.toFinset_cons]
      exact ⟨ht, hsame.trans hcapacity⟩

theorem contains_ofList (h : ∀ v ∈ vs, v < n) : (ofList n vs).contains u = true ↔ u ∈ vs := by
  rw [(represents_ofList h).1.contains_iff, List.mem_toFinset]

theorem adding_ofList (h : ∀ u ∈ v :: vs, u < n) :
    (ofList n vs).adding v = .ok (ofList n (v :: vs)) := by
  obtain ⟨hv, hvs⟩ := List.forall_mem_cons.1 h
  obtain ⟨hrep, hcapacity⟩ := represents_ofList hvs
  have hlt : v < (ofList n vs).capacity := by
    rw [hcapacity, capacity, empty, Array.size_replicate]
    omega
  obtain ⟨t, hrun, -⟩ := hrep.adding hlt
  rw [ofList, hrun]

theorem ofList_perm (hvs : ∀ v ∈ vs, v < n) (h : us.Perm vs) : ofList n us = ofList n vs := by
  obtain ⟨hus, hcapacity⟩ := represents_ofList fun v hv => hvs v (h.mem_iff.1 hv)
  obtain ⟨hvs, hcapacity'⟩ := represents_ofList hvs
  refine (hus.eq_iff hvs (hcapacity.trans hcapacity'.symm)).2 fun v => ?_
  rw [hus.contains_eq, hvs.contains_eq, List.toFinset_eq_of_perm _ _ h]

theorem ofList_injective (hus : ∀ u ∈ us, u < n) (hvs : ∀ v ∈ vs, v < n) (hu : us.Nodup)
    (hv : vs.Nodup) (h : ofList n us = ofList n vs) : us.Perm vs :=
  (List.perm_ext_iff_of_nodup hu hv).2 fun w => by
    rw [← contains_ofList hus, ← contains_ofList hvs, h]

/-! ## Sequences of requests -/

/-- What can be done to a set. After `adding` it goes on with the copy that has one more number. -/
inductive Request where
  | insert (v : Nat)
  | erase (v : Nat)
  | adding (v : Nat)
  | insertMany (vs : List Nat)
  | clear

/-- The numbers that a request adds are below a capacity. -/
def Request.Within (capacity : Nat) : Request → Prop
  | .insert v | .adding v => v < capacity
  | .insertMany vs => ∀ v ∈ vs, v < capacity
  | .erase _ | .clear => True

/-- The answer to a request, if it has one, and the set afterwards. -/
def serve (s : VariableSet) : Request → Outcome (Option Bool × VariableSet)
  | .insert v => (s.insert v).map fun (new, t) => (some new, t)
  | .erase v => .ok (some (s.erase v).1, (s.erase v).2)
  | .adding v => (s.adding v).map (none, ·)
  | .insertMany vs => (s.insertMany vs).map (none, ·)
  | .clear => .ok (none, s.clear)

/-- What happens to the members. -/
def change (m : Finset Nat) : Request → Option Bool × Finset Nat
  | .insert v => (some (decide (v ∉ m)), Insert.insert v m)
  | .erase v => (some (decide (v ∈ m)), m.erase v)
  | .adding v => (none, Insert.insert v m)
  | .insertMany vs => (none, m ∪ vs.toFinset)
  | .clear => (none, ∅)

/-- All answers, and the set afterwards. -/
def serveAll (s : VariableSet) : List Request → Outcome (List (Option Bool) × VariableSet)
  | [] => .ok ([], s)
  | r :: requests => do
      let (answer, s) ← s.serve r
      let (answers, s) ← serveAll s requests
      return (answer :: answers, s)

def changeAll (m : Finset Nat) : List Request → List (Option Bool) × Finset Nat
  | [] => ([], m)
  | r :: requests =>
      let rest := changeAll (change m r).2 requests
      ((change m r).1 :: rest.1, rest.2)

theorem Represents.serve (h : s.Represents m) {r : Request} (hr : r.Within s.capacity) :
    ∃ t, s.serve r = .ok ((change m r).1, t) ∧ t.Represents (change m r).2 ∧
      t.capacity = s.capacity := by
  cases r with
  | insert v =>
      obtain ⟨t, hrun, ht⟩ := h.insert hr
      exact ⟨t, by rw [VariableSet.serve, hrun]; rfl, ht⟩
  | erase v =>
      obtain ⟨t, hrun, ht⟩ := h.erase (v := v)
      exact ⟨t, by rw [VariableSet.serve, hrun]; rfl, ht⟩
  | adding v =>
      obtain ⟨t, hrun, ht⟩ := h.adding hr
      exact ⟨t, by rw [VariableSet.serve, hrun]; rfl, ht⟩
  | insertMany vs =>
      obtain ⟨t, hrun, ht⟩ := h.insertMany hr
      exact ⟨t, by rw [VariableSet.serve, hrun]; rfl, ht⟩
  | clear => exact ⟨s.clear, rfl, represents_clear, capacity_clear⟩

theorem Represents.serveAll (h : s.Represents m) {requests : List Request}
    (hrequests : ∀ r ∈ requests, r.Within s.capacity) :
    ∃ t, s.serveAll requests = .ok ((changeAll m requests).1, t) ∧
      t.Represents (changeAll m requests).2 ∧ t.capacity = s.capacity := by
  induction requests generalizing s m with
  | nil => exact ⟨s, rfl, h, rfl⟩
  | cons r requests ih =>
      obtain ⟨hr, hrequests⟩ := List.forall_mem_cons.1 hrequests
      obtain ⟨t, hrun, ht, hcapacity⟩ := h.serve hr
      obtain ⟨t', hrun', ht', hcapacity'⟩ := ih ht (by rwa [hcapacity])
      refine ⟨t', ?_, ht', hcapacity'.trans hcapacity⟩
      rw [VariableSet.serveAll, hrun]
      change (t.serveAll requests >>= fun rest => pure ((change m r).1 :: rest.1, rest.2)) = _
      rw [hrun']
      rfl

/-- Whatever is done to a new set, it answers as a finite set of numbers does that starts without
any. Afterwards it has the same members, counts them, and lists them in ascending order; and two
sets of one capacity, in whichever way they were built, have equal words and counts exactly if they
have the same members. -/
theorem serveAll_finset {requests : List Request}
    (h : ∀ r ∈ requests, r.Within (empty n).capacity) :
    ∃ s, (empty n).serveAll requests = .ok ((changeAll ∅ requests).1, s) ∧
      n ≤ s.capacity ∧ s.capacity = (empty n).capacity ∧
      let m := (changeAll ∅ requests).2
      (∀ v, s.contains v = decide (v ∈ m)) ∧ s.card = m.card ∧ s.isEmpty = decide (m = ∅) ∧
      s.toList.Pairwise (· < ·) ∧ (∀ v, v ∈ s.toList ↔ v ∈ m) ∧
      ∀ n' requests' answers t, (∀ r ∈ requests', r.Within (empty n').capacity) →
        (empty n').serveAll requests' = .ok (answers, t) → s.capacity = t.capacity →
        (s = t ↔ ∀ v, s.contains v = t.contains v) := by
  obtain ⟨s, hrun, hs, hcapacity⟩ := represents_empty.serveAll h
  refine ⟨s, hrun, ?_, hcapacity, fun _ => hs.contains_eq, hs.card_eq, ?_, toList_ascends,
    fun _ => mem_toList.trans (hs.contains_iff _), fun n' requests' answers t h' hrun' => ?_⟩
  · rw [hcapacity, capacity, empty, Array.size_replicate]
    omega
  · rw [isEmpty, hs.card_eq, Bool.eq_iff_iff, beq_iff_eq, decide_eq_true_iff, Finset.card_eq_zero]
  · obtain ⟨t', ht', hrep, -⟩ := represents_empty.serveAll h'
    obtain ⟨-, rfl⟩ := Prod.mk.inj (Except.ok.inj (ht'.symm.trans hrun'))
    exact hs.eq_iff hrep

/-- Three words get members in two ways. -/
def threeWords : List Request :=
  [.insertMany [65, 3, 129, 64, 5], .erase 64, .insert 3, .erase 64, .adding 0]

def threeWordsAgain : List Request :=
  [.insert 1, .clear, .adding 129, .adding 5, .insertMany [3, 0, 65]]

theorem serveAll_threeWords : (∀ r ∈ threeWords, r.Within (empty 130).capacity) ∧
    (∀ r ∈ threeWordsAgain, r.Within (empty 140).capacity) ∧
    ∃ s, (empty 130).serveAll threeWords =
        .ok ([none, some true, some false, some false, none], s) ∧
      s.card = 5 ∧ s.toList.Pairwise (· < ·) ∧ (∀ v, v ∈ s.toList ↔ v ∈ [0, 3, 5, 65, 129]) ∧
      ∃ answers, (empty 140).serveAll threeWordsAgain = .ok (answers, s) := by
  have h : ∀ r ∈ threeWords, r.Within (empty 130).capacity := by
    simp [threeWords, Request.Within, capacity, empty]
  have h' : ∀ r ∈ threeWordsAgain, r.Within (empty 140).capacity := by
    simp [threeWordsAgain, Request.Within, capacity, empty]
  obtain ⟨s, hrun, -, hcapacity, hmem, hcard, -, hascends, hlist, hequal⟩ := serveAll_finset h
  obtain ⟨t, hrun', -, hcapacity', hmem', -⟩ := serveAll_finset h'
  have hsame : (changeAll ∅ threeWords).2 = (changeAll ∅ threeWordsAgain).2 := by decide
  have heq : s = t := by
    refine (hequal 140 threeWordsAgain _ t h' hrun' (hcapacity.trans hcapacity'.symm)).2 fun v => ?_
    rw [hmem, hmem', hsame]
  have hmembers : (changeAll ∅ threeWords).2 = [0, 3, 5, 65, 129].toFinset := by decide
  refine ⟨h, h', s, hrun, hcard, hascends, fun v => ?_, _, heq ▸ hrun'⟩
  rw [hlist, hmembers, List.mem_toFinset]

end BayesCircuit.Collection.VariableSet
