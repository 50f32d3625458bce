import BayesCircuit.Counter
import Mathlib.Algebra.BigOperators.Group.List.Basic
import Mathlib.Algebra.Order.BigOperators.Group.List
import Mathlib.Data.List.Nodup
import Mathlib.Tactic.Ring

/-!
# Counters and the numbers that they show

A row of wheels is *valid* if every digit is below its radix. The valid rows with given radices show
exactly the numbers below the product of the radices, each of them once (`wheelsOf_value`,
`value_wheelsOf`). So a counter that starts at zero walks through all of them in order
(`walk_zero`).
-/

namespace BayesCircuit.Counter

variable {w : Wheel} {ws : List Wheel} {r n : Nat} {rs ds es : List Nat} {c : Counter}

/-- Every digit is below its radix. -/
def Valid (ws : List Wheel) : Prop := ∀ w ∈ ws, w.digit < w.radix

/-- The number of rows with the radices of a row. -/
def capacity (ws : List Wheel) : Nat := (ws.map (·.radix)).prod

theorem Valid.head (h : Valid (w :: ws)) : w.digit < w.radix := h w (List.mem_cons_self ..)

theorem Valid.tail (h : Valid (w :: ws)) : Valid ws :=
  fun w' hw' => h w' (List.mem_cons_of_mem _ hw')

theorem capacity_cons : capacity (w :: ws) = w.radix * capacity ws := by
  simp [capacity]

theorem Valid.value_lt (h : Valid ws) : wheelsValue ws < capacity ws := by
  induction ws with
  | nil => simp [wheelsValue, capacity]
  | cons w ws ih =>
      have hd := h.head
      have hv := ih h.tail
      rw [wheelsValue, capacity_cons]
      calc w.digit + w.radix * wheelsValue ws
          < w.radix + w.radix * wheelsValue ws := by omega
        _ = w.radix * (wheelsValue ws + 1) := by ring
        _ ≤ w.radix * capacity ws := Nat.mul_le_mul_left _ hv

/-- A valid row is the row that shows its number. -/
theorem Valid.wheelsOf_value (h : Valid ws) : wheelsOf (ws.map (·.radix)) (wheelsValue ws) = ws := by
  induction ws with
  | nil => rfl
  | cons w ws ih =>
      have hd := h.head
      have hpos : 0 < w.radix := by omega
      simp only [List.map_cons, wheelsOf, wheelsValue, Nat.add_mul_mod_self_left,
        Nat.mod_eq_of_lt hd, Nat.add_mul_div_left _ _ hpos, Nat.div_eq_of_lt hd, Nat.zero_add,
        ih h.tail]

@[simp]
theorem map_radix_wheelsOf : (wheelsOf rs n).map (·.radix) = rs := by
  induction rs generalizing n with
  | nil => rfl
  | cons r rs ih => rw [wheelsOf, List.map_cons, ih]

theorem valid_wheelsOf (hr : ∀ r ∈ rs, 0 < r) : Valid (wheelsOf rs n) := by
  induction rs generalizing n with
  | nil => exact fun w hw => absurd hw List.not_mem_nil
  | cons r rs ih =>
      intro w hw
      rcases List.mem_cons.1 hw with rfl | hw
      · exact Nat.mod_lt _ (hr r (List.mem_cons_self ..))
      · exact ih (fun r' hr' => hr r' (List.mem_cons_of_mem _ hr')) w hw

theorem Valid.digit_lt (h : Valid ws) :
    List.Forall₂ (· < ·) (ws.map (·.digit)) (ws.map (·.radix)) := by
  induction ws with
  | nil => exact .nil
  | cons w ws ih => exact .cons h.head (ih h.tail)

theorem value_wheelsOf (hn : n < rs.prod) : wheelsValue (wheelsOf rs n) = n := by
  induction rs generalizing n with
  | nil =>
      rw [List.prod_nil] at hn
      simp only [wheelsOf, wheelsValue]
      omega
  | cons r rs ih =>
      rw [List.prod_cons] at hn
      rw [wheelsOf, wheelsValue, ih (Nat.div_lt_of_lt_mul hn), Nat.mod_add_div]

/-! ## Counting -/

/-- The next row shows the next number, unless that is too large. -/
theorem Valid.incrementWheels_eq (h : Valid ws) :
    incrementWheels ws = if wheelsValue ws + 1 < capacity ws
      then some (wheelsOf (ws.map (·.radix)) (wheelsValue ws + 1)) else none := by
  induction ws with
  | nil => rfl
  | cons w ws ih =>
      have hd := h.head
      have hv := h.tail.value_lt
      have hpos : 0 < w.radix := by omega
      rw [incrementWheels, capacity_cons, wheelsValue]
      by_cases hw : w.digit + 1 < w.radix
      · have hlt : w.digit + w.radix * wheelsValue ws + 1 < w.radix * capacity ws := by
          calc w.digit + w.radix * wheelsValue ws + 1
              < w.radix + w.radix * wheelsValue ws := by omega
            _ = w.radix * (wheelsValue ws + 1) := by ring
            _ ≤ w.radix * capacity ws := Nat.mul_le_mul_left _ hv
        have hnext : w.digit + w.radix * wheelsValue ws + 1 =
            (w.digit + 1) + w.radix * wheelsValue ws := by omega
        rw [if_pos hw, if_pos hlt, List.map_cons, wheelsOf, hnext, Nat.add_mul_mod_self_left,
          Nat.mod_eq_of_lt hw, Nat.add_mul_div_left _ _ hpos, Nat.div_eq_of_lt hw, Nat.zero_add,
          h.tail.wheelsOf_value]
      · -- the wheel is full: the next one moves
        have hnext : w.digit + w.radix * wheelsValue ws + 1 = w.radix * (wheelsValue ws + 1) := by
          have : w.digit + 1 = w.radix := by omega
          calc w.digit + w.radix * wheelsValue ws + 1
              = (w.digit + 1) + w.radix * wheelsValue ws := by omega
            _ = w.radix * (wheelsValue ws + 1) := by rw [this]; ring
        have hiff : w.radix * (wheelsValue ws + 1) < w.radix * capacity ws ↔
            wheelsValue ws + 1 < capacity ws := Nat.mul_lt_mul_left hpos
        rw [if_neg hw, ih h.tail, hnext, List.map_cons, wheelsOf, Nat.mul_mod_right,
          Nat.mul_div_cancel_left _ hpos]
        by_cases hlt : wheelsValue ws + 1 < capacity ws
        · rw [if_pos hlt, if_pos (hiff.2 hlt)]
          rfl
        · rw [if_neg hlt, if_neg (fun h => hlt (hiff.1 h))]
          rfl

theorem Valid.remaining_eq (h : Valid ws) : remaining ws = capacity ws - 1 - wheelsValue ws := by
  induction ws with
  | nil => rfl
  | cons w ws ih =>
      have hd := h.head
      have hv := h.tail.value_lt
      obtain ⟨k, hk⟩ : ∃ k, capacity ws = wheelsValue ws + 1 + k :=
        ⟨capacity ws - (wheelsValue ws + 1), by omega⟩
      have hmax : max w.radix 1 = w.radix := by omega
      have hrest : capacity ws - 1 - wheelsValue ws = k := by omega
      rw [remaining, ih h.tail, hmax, hrest, capacity_cons, wheelsValue, hk]
      have : w.radix * (wheelsValue ws + 1 + k) = w.radix * wheelsValue ws + w.radix + w.radix * k := by
        ring
      omega

theorem walkFrom_eq : ∀ {fuel n}, (∀ r ∈ rs, 0 < r) → n < rs.prod → fuel = rs.prod - 1 - n →
    walkFrom fuel ⟨wheelsOf rs n⟩ =
      (List.range' n (rs.prod - n)).map fun i => ⟨wheelsOf rs i⟩
  | 0, n, _, hn, hf => by
      obtain rfl : n = rs.prod - 1 := by omega
      have : rs.prod - (rs.prod - 1) = 1 := by omega
      rw [this]
      rfl
  | fuel + 1, n, hr, hn, hf => by
      have hv := valid_wheelsOf (n := n) hr
      have hlt : n + 1 < rs.prod := by omega
      have hnext : (⟨wheelsOf rs n⟩ : Counter).increment = some ⟨wheelsOf rs (n + 1)⟩ := by
        rw [increment, hv.incrementWheels_eq, value_wheelsOf hn, map_radix_wheelsOf, capacity,
          map_radix_wheelsOf, if_pos hlt]
        rfl
      have hlen : rs.prod - n = (rs.prod - (n + 1)) + 1 := by omega
      have hfuel : fuel = rs.prod - 1 - (n + 1) := by omega
      rw [hlen, List.range'_succ, List.map_cons, ← walkFrom_eq hr hlt hfuel]
      simp only [walkFrom, hnext]

theorem wheelsOf_zero : wheelsOf rs 0 = rs.map fun r => ⟨0, r⟩ := by
  induction rs with
  | nil => rfl
  | cons r rs ih => rw [wheelsOf, Nat.zero_mod, Nat.zero_div, ih, List.map_cons]

@[simp]
theorem radices_zero : (zero rs).radices = rs := by
  simp [zero, radices, Function.comp_def]

theorem zero_eq : zero rs = ⟨wheelsOf rs 0⟩ := congrArg Counter.mk wheelsOf_zero.symm

/-- A counter over positive radices walks through all rows, in the order of their numbers. -/
theorem walk_zero (hr : ∀ r ∈ rs, 0 < r) :
    (zero rs).walk = (List.range rs.prod).map fun n => ⟨wheelsOf rs n⟩ := by
  have hpos : 0 < rs.prod := List.prod_pos_iff_forall_pos_nat.2 hr
  have hv := valid_wheelsOf (n := 0) hr
  have hrem : remaining (wheelsOf rs 0) = rs.prod - 1 - 0 := by
    rw [hv.remaining_eq, value_wheelsOf hpos, capacity, map_radix_wheelsOf]
  rw [zero_eq, walk, walkFrom_eq hr hpos hrem, List.range_eq_range', Nat.sub_zero]

/-- Whatever the radices are, there is a first row. -/
theorem walk_ne_nil (c : Counter) : c.walk ≠ [] := by
  unfold walk
  cases remaining c.wheels with
  | zero => exact List.cons_ne_nil _ _
  | succ n =>
      rw [walkFrom]
      split
      · exact List.cons_ne_nil _ _
      · exact List.cons_ne_nil _ _

/-! ## The number of a list of digits -/

/-- The number that digits show on wheels with the given radices. -/
def number (rs ds : List Nat) : Nat := wheelsValue (List.zipWith (fun r d => ⟨d, r⟩) rs ds)

theorem value_withDigits (hlen : ds.length = rs.length) : ((zero rs).withDigits ds).value = number rs ds := by
  have hdrop : List.drop ds.length (rs.map fun r => (⟨0, r⟩ : Wheel)) = [] :=
    List.drop_eq_nil_of_le (by simp [hlen])
  rw [value, withDigits, zero, hdrop, List.append_nil, List.zipWith_map_left]
  rfl

theorem valid_zipWith (h : List.Forall₂ (· < ·) ds rs) :
    Valid (List.zipWith (fun r d => (⟨d, r⟩ : Wheel)) rs ds) := by
  induction h with
  | nil => exact fun w hw => absurd hw List.not_mem_nil
  | cons hd _ ih =>
      intro w hw
      rcases List.mem_cons.1 hw with rfl | hw
      · exact hd
      · exact ih w hw

theorem map_radix_zipWith (h : List.Forall₂ (· < ·) ds rs) :
    (List.zipWith (fun r d => (⟨d, r⟩ : Wheel)) rs ds).map (·.radix) = rs := by
  induction h with
  | nil => rfl
  | cons _ _ ih => rw [List.zipWith_cons_cons, List.map_cons, ih]

theorem map_digit_zipWith (h : List.Forall₂ (· < ·) ds rs) :
    (List.zipWith (fun r d => (⟨d, r⟩ : Wheel)) rs ds).map (·.digit) = ds := by
  induction h with
  | nil => rfl
  | cons _ _ ih => rw [List.zipWith_cons_cons, List.map_cons, ih]

theorem number_lt (h : List.Forall₂ (· < ·) ds rs) : number rs ds < rs.prod := by
  have hv := (valid_zipWith h).value_lt
  rwa [capacity, map_radix_zipWith h] at hv

/-- The digits of a row can be read off the number that it shows. -/
theorem wheelsOf_number (h : List.Forall₂ (· < ·) ds rs) :
    wheelsOf rs (number rs ds) = List.zipWith (fun r d => ⟨d, r⟩) rs ds := by
  have hv := (valid_zipWith h).wheelsOf_value
  rwa [map_radix_zipWith h] at hv

theorem digits_wheelsOf_number (h : List.Forall₂ (· < ·) ds rs) :
    (wheelsOf rs (number rs ds)).map (·.digit) = ds := by
  rw [wheelsOf_number h, map_digit_zipWith h]

theorem number_injective (hd : List.Forall₂ (· < ·) ds rs) (he : List.Forall₂ (· < ·) es rs)
    (h : number rs ds = number rs es) : ds = es := by
  rw [← digits_wheelsOf_number hd, h, digits_wheelsOf_number he]

theorem number_digits_wheelsOf (hn : n < rs.prod) :
    number rs ((wheelsOf rs n).map (·.digit)) = n := by
  have hzip : ∀ (rs : List Nat) (n : Nat), List.zipWith (fun r d => (⟨d, r⟩ : Wheel)) rs
      ((wheelsOf rs n).map (·.digit)) = wheelsOf rs n := by
    intro rs
    induction rs with
    | nil => exact fun n => rfl
    | cons r rs ih =>
        intro n
        rw [wheelsOf, List.map_cons, List.zipWith_cons_cons, ih]
  rw [number, hzip, value_wheelsOf hn]

theorem fits_map {dim ρ : Nat → Nat} {us : List Nat} (h : ∀ u ∈ us, ρ u < dim u) :
    List.Forall₂ (· < ·) (us.map ρ) (us.map dim) := by
  rw [List.forall₂_map_left_iff, List.forall₂_map_right_iff, List.forall₂_same]
  exact h

/-- Digits that fit are the values of some function on a list without repetitions. -/
theorem exists_map_eq {dim : Nat → Nat} {us : List Nat} (hnodup : us.Nodup)
    (h : List.Forall₂ (· < ·) ds (us.map dim)) :
    ∃ ρ : Nat → Nat, us.map ρ = ds ∧ ∀ u ∈ us, ρ u < dim u := by
  induction us generalizing ds with
  | nil =>
      cases h
      exact ⟨fun _ => 0, rfl, fun u hu => absurd hu List.not_mem_nil⟩
  | cons u us ih =>
      obtain ⟨hu, hnodup⟩ := List.nodup_cons.1 hnodup
      rw [List.map_cons] at h
      cases h with
      | cons hd hds =>
          rename_i d ds
          obtain ⟨ρ, hρ, hlt⟩ := ih hnodup hds
          have hne : ∀ w ∈ us, w ≠ u := fun w hw he => hu (he ▸ hw)
          refine ⟨Function.update ρ u d, ?_, fun w hw => ?_⟩
          · rw [List.map_cons, Function.update_self, ← hρ]
            congr 1
            exact List.map_congr_left fun w hw => Function.update_of_ne (hne w hw) _ _
          · rcases List.mem_cons.1 hw with rfl | hw
            · rwa [Function.update_self]
            · rw [Function.update_of_ne (hne w hw)]
              exact hlt w hw

/-! ## Counting in order -/

/-- A row with given radices, whose digits are below them. -/
structure Over (rs : List Nat) (c : Counter) : Prop where
  valid : Valid c.wheels
  radices : c.radices = rs

instance : Decidable (Valid ws) := inferInstanceAs (Decidable (∀ w ∈ ws, w.digit < w.radix))

variable {d e : Counter}

theorem Over.capacity_eq (h : Over rs c) : capacity c.wheels = rs.prod := by
  rw [← h.radices]
  rfl

theorem Over.value_lt (h : Over rs c) : c.value < rs.prod := h.capacity_eq ▸ h.valid.value_lt

/-- A row is the one that shows its number. -/
theorem Over.eq_wheelsOf (h : Over rs c) : c = ⟨wheelsOf rs c.value⟩ := by
  have hwheels := h.valid.wheelsOf_value
  rw [show c.wheels.map (·.radix) = rs from h.radices] at hwheels
  exact congrArg Counter.mk hwheels.symm

theorem over_wheelsOf (hpos : ∀ r ∈ rs, 0 < r) : Over rs ⟨wheelsOf rs n⟩ where
  valid := valid_wheelsOf hpos
  radices := map_radix_wheelsOf

theorem over_zero (hpos : ∀ r ∈ rs, 0 < r) : Over rs (zero rs) := zero_eq ▸ over_wheelsOf hpos

theorem value_zero : (zero rs).value = 0 := by
  induction rs with
  | nil => rfl
  | cons r rs ih =>
      have hrest : wheelsValue (rs.map fun r => ⟨0, r⟩) = 0 := ih
      rw [value, zero, List.map_cons, wheelsValue, hrest, Nat.mul_zero]

theorem valueLast_zero : (zero rs).valueLast = 0 := by
  have hzero : (zero rs).reversed = zero rs.reverse := congrArg Counter.mk List.map_reverse.symm
  rw [valueLast, hzero, value_zero]

theorem Over.reversed (h : Over rs c) : Over rs.reverse c.reversed where
  valid w hw := h.valid w (List.mem_reverse.1 hw)
  radices := by
    rw [← h.radices]
    exact List.map_reverse

theorem reversed_reversed : c.reversed.reversed = c := congrArg Counter.mk (List.reverse_reverse _)

theorem over_reversed_iff : Over rs.reverse c.reversed ↔ Over rs c := by
  refine ⟨fun h => ?_, Over.reversed⟩
  have h' := h.reversed
  rwa [List.reverse_reverse, reversed_reversed] at h'

/-- The rows with given radices show the numbers below their product, one each, and a step leads to
the row of the next number, if there is one. -/
structure CountsUp (rs : List Nat) (shown : Counter → Nat)
    (next? : Counter → Outcome (Option Counter)) : Prop where
  lt : ∀ {c}, Over rs c → shown c < rs.prod
  injective : ∀ {c d}, Over rs c → Over rs d → shown c = shown d → c = d
  next : ∀ {c}, Over rs c → shown c + 1 < rs.prod →
    ∃ d, next? c = .ok (some d) ∧ Over rs d ∧ shown d = shown c + 1
  last : ∀ {c}, Over rs c → rs.prod ≤ shown c + 1 → next? c = .ok none

/-- The rows from one on until there is no next one. -/
inductive CountsThrough (next? : Counter → Outcome (Option Counter)) : Counter → List Counter → Prop
  | last {c : Counter} : next? c = .ok none → CountsThrough next? c [c]
  | step {c d : Counter} {cs : List Counter} :
      next? c = .ok (some d) → CountsThrough next? d cs → CountsThrough next? c (c :: cs)

/-- The rows with given radices are listed once each. -/
def EachOnce (rs : List Nat) (cs : List Counter) : Prop :=
  cs.length = rs.prod ∧ cs.Nodup ∧ ∀ c, c ∈ cs ↔ Over rs c

section

variable {shown : Counter → Nat} {next? : Counter → Outcome (Option Counter)}

theorem CountsUp.countsThrough (h : CountsUp rs shown next?) : ∀ {k : Nat} {c : Counter},
    Over rs c → shown c + 1 + k = rs.prod → ∃ cs, CountsThrough next? c cs ∧
      (∀ d ∈ cs, Over rs d) ∧ cs.map shown = List.range' (shown c) (k + 1)
  | 0, c, hc, hk => by
      refine ⟨[c], .last (h.last hc (by omega)), fun d hd => ?_, rfl⟩
      rw [List.mem_singleton.1 hd]
      exact hc
  | k + 1, c, hc, hk => by
      obtain ⟨d, hnext, hd, hshown⟩ := h.next hc (by omega)
      obtain ⟨cs, hcs, hover, hmap⟩ := h.countsThrough (k := k) hd (by omega)
      refine ⟨c :: cs, .step hnext hcs, List.forall_mem_cons.2 ⟨hc, hover⟩, ?_⟩
      rw [List.map_cons, hmap, hshown]
      rfl

/-- Who counts from zero visits each row once. -/
theorem CountsUp.eachOnce (h : CountsUp rs shown next?) (hc : Over rs c) (hzero : shown c = 0) :
    ∃ cs, CountsThrough next? c cs ∧ EachOnce rs cs := by
  have hlt := h.lt hc
  obtain ⟨cs, hcs, hover, hmap⟩ := h.countsThrough (k := rs.prod - 1) hc (by omega)
  rw [hzero, show rs.prod - 1 + 1 = rs.prod by omega] at hmap
  refine ⟨cs, hcs, ?_, List.Nodup.of_map shown (hmap ▸ List.nodup_range'), fun d => ⟨hover d, ?_⟩⟩
  · rw [← List.length_map shown, hmap, List.length_range']
  · intro hd
    have hmem : shown d ∈ cs.map shown := by
      rw [hmap, List.mem_range'_1]
      exact ⟨Nat.zero_le _, by rw [Nat.zero_add]; exact h.lt hd⟩
    obtain ⟨d', hd', heq⟩ := List.mem_map.1 hmem
    rwa [← h.injective (hover d' hd') hd heq]

/-- What counts up counts up from the other end of the row too. -/
theorem CountsUp.reversed (h : CountsUp rs.reverse shown next?) :
    CountsUp rs (fun c => shown c.reversed) fun c => (next? c.reversed).map (·.map Counter.reversed) where
  lt hc := by
    have hlt := h.lt hc.reversed
    rwa [List.prod_reverse] at hlt
  injective {c d} hc hd heq := by
    rw [← reversed_reversed (c := c), h.injective hc.reversed hd.reversed heq, reversed_reversed]
  next {c} hc hlt := by
    obtain ⟨d, hnext, hd, hshown⟩ := h.next hc.reversed (by rwa [List.prod_reverse])
    refine ⟨d.reversed, by rw [hnext]; rfl, ?_, by rw [reversed_reversed, hshown]⟩
    rw [← over_reversed_iff, reversed_reversed]
    exact hd
  last {c} hc hle := by
    rw [h.last hc.reversed (by rwa [List.prod_reverse])]
    rfl

end

/-- Digits that are below half a word can be looked at. -/
theorem Over.checkDigits_eq (h : Over rs c) (hhalf : ∀ r ∈ rs, r < halfWordSize) :
    checkDigits c.wheels = .ok () := by
  have hall : (c.wheels.takeWhile isFull).all (·.digit + 1 < halfWordSize) = true := by
    refine List.all_eq_true.2 fun w hw => decide_eq_true ?_
    have hw := (List.takeWhile_sublist isFull).mem hw
    have hr := hhalf w.radix (h.radices ▸ List.mem_map_of_mem hw)
    have hd := h.valid w hw
    omega
  rw [checkDigits, hall]
  rfl

theorem countsUp_increment (hpos : ∀ r ∈ rs, 0 < r) (hhalf : ∀ r ∈ rs, r < halfWordSize) :
    CountsUp rs value increment? := by
  have hrun : ∀ {c}, Over rs c → increment? c = .ok
      (if c.value + 1 < rs.prod then some ⟨wheelsOf rs (c.value + 1)⟩ else none) := by
    intro c hc
    have hnext := hc.valid.incrementWheels_eq
    rw [hc.capacity_eq, show c.wheels.map (·.radix) = rs from hc.radices] at hnext
    rw [increment?, hc.checkDigits_eq hhalf, increment, hnext, apply_ite (Option.map Counter.mk)]
    rfl
  refine ⟨Over.value_lt, fun hc hd heq => ?_, fun {c} hc hlt => ?_, fun {c} hc hle => ?_⟩
  · rw [hc.eq_wheelsOf, hd.eq_wheelsOf, heq]
  · refine ⟨⟨wheelsOf rs (c.value + 1)⟩, ?_, over_wheelsOf hpos, value_wheelsOf hlt⟩
    rw [hrun hc, if_pos hlt]
  · rw [hrun hc, if_neg (Nat.not_lt.2 hle)]

theorem incrementLast?_eq :
    c.incrementLast? = (c.reversed.increment?).map (·.map Counter.reversed) := by
  rw [incrementLast?, increment?, incrementLast]
  show _ = Except.map _ (checkDigits c.wheels.reverse >>= _)
  cases checkDigits c.wheels.reverse <;> rfl

theorem countsUp_incrementLast (hpos : ∀ r ∈ rs, 0 < r) (hhalf : ∀ r ∈ rs, r < halfWordSize) :
    CountsUp rs valueLast incrementLast? := by
  have hpos' : ∀ r ∈ rs.reverse, 0 < r := fun r hr => hpos r (List.mem_reverse.1 hr)
  have hhalf' : ∀ r ∈ rs.reverse, r < halfWordSize := fun r hr => hhalf r (List.mem_reverse.1 hr)
  have h := (countsUp_increment hpos' hhalf').reversed
  have hnext : incrementLast? = fun c => (increment? c.reversed).map (·.map Counter.reversed) :=
    funext fun c => incrementLast?_eq
  exact hnext ▸ h

/-! ## Machine words -/

/-- The number of a row is the sum of its digits, each times the step of its wheel. -/
theorem sum_stepSizesFrom : ∀ {ws : List Wheel} (step : Nat),
    (List.zipWith (· * ·) (ws.map (·.digit)) (stepSizesFrom step (ws.map (·.radix)))).sum =
      step * wheelsValue ws
  | [], step => by simp [wheelsValue]
  | w :: ws, step => by
      rw [List.map_cons, List.map_cons, stepSizesFrom, List.zipWith_cons_cons, List.sum_cons,
        sum_stepSizesFrom, wheelsValue]
      ring

theorem all_products (hpos : ∀ r ∈ rs, 0 < r) : ∀ {step : Nat}, step < wordSize →
    ((products step rs).all (· < wordSize) = true ↔ step * rs.prod < wordSize) := by
  induction rs with
  | nil => simp [products]
  | cons r rs ih =>
      intro step hstep
      obtain ⟨hr, hrs⟩ := List.forall_mem_cons.1 hpos
      rw [products, List.all_cons, List.prod_cons, ← Nat.mul_assoc, Bool.and_eq_true,
        decide_eq_true_iff]
      by_cases hlt : step * r < wordSize
      · rw [ih hrs hlt, and_iff_right hlt]
      · have hle : step * r ≤ step * r * rs.prod := 
          Nat.le_mul_of_pos_right _ (List.prod_pos_iff_forall_pos_nat.2 hrs)
        simp only [hlt, false_and, false_iff]
        omega

theorem all_products_one (hpos : ∀ r ∈ rs, 0 < r) :
    (products 1 rs).all (· < wordSize) = decide (rs.prod < wordSize) := by
  rw [Bool.eq_iff_iff, all_products hpos (by decide), Nat.one_mul, decide_eq_true_iff]

/-- The rows over positive radices can be counted if their number fits a word. -/
theorem states?_eq (hpos : ∀ r ∈ c.radices, 0 < r) : c.states? = word c.radices.prod := by
  rw [states?, all_products_one hpos, word]
  by_cases h : c.radices.prod < wordSize
  · rw [if_pos h, decide_eq_true h]
    rfl
  · rw [if_neg h, decide_eq_false h]
    rfl

theorem stepSizes?_eq (hpos : ∀ r ∈ c.radices, 0 < r) (h : c.radices.prod < wordSize) :
    c.stepSizes? = .ok c.stepSizes := by
  rw [stepSizes?, all_products_one hpos, decide_eq_true h]
  rfl

/-- If the number of a row fits a word, so do those of its final parts. -/
theorem Valid.fits_eq (h : Valid ws) : fits ws = decide (wheelsValue ws < wordSize) := by
  induction ws with
  | nil => rfl
  | cons w ws ih =>
      have hd := h.head
      have hle : wheelsValue ws ≤ w.radix * wheelsValue ws := Nat.le_mul_of_pos_left _ (by omega)
      rw [fits, ih h.tail, Bool.eq_iff_iff, Bool.and_eq_true, decide_eq_true_iff, decide_eq_true_iff]
      refine and_iff_right_of_imp fun hlt => ?_
      rw [wheelsValue] at hlt
      omega

theorem Over.value?_eq (h : Over rs c) : c.value? = word c.value := by
  rw [value?, h.valid.fits_eq, word, value]
  by_cases hlt : wheelsValue c.wheels < wordSize
  · rw [if_pos hlt, decide_eq_true hlt]
    rfl
  · rw [if_neg hlt, decide_eq_false hlt]
    rfl

/-- Each number below the product of the radices can be shown on a row, whatever the row shows
before, and no other row shows it. -/
structure Shows (rs : List Nat) (shown : Counter → Nat) (show? : Counter → Nat → Outcome Counter) :
    Prop where
  exists_row : ∀ {c n}, c.radices = rs → n < rs.prod →
    ∃ d, show? c n = .ok d ∧ Over rs d ∧ shown d = n
  same_row : ∀ {c d}, c.radices = rs → Over rs d → show? c (shown d) = .ok d

theorem CountsUp.shows {shown : Counter → Nat} {next? : Counter → Outcome (Option Counter)}
    {show? : Counter → Nat → Outcome Counter} (h : CountsUp rs shown next?)
    (hrow : ∀ {c n}, c.radices = rs → n < rs.prod →
      ∃ d, show? c n = .ok d ∧ Over rs d ∧ shown d = n) : Shows rs shown show? where
  exists_row := hrow
  same_row hc hd := by
    obtain ⟨e, hrun, he, heq⟩ := hrow hc (h.lt hd)
    rwa [h.injective he hd heq] at hrun

theorem withValue?_eq (hpos : ∀ r ∈ c.radices, 0 < r) (hword : c.radices.prod < wordSize)
    (hn : n < c.radices.prod) : c.withValue? n = .ok ⟨wheelsOf c.radices n⟩ := by
  rw [withValue?, states?_eq hpos, word, if_pos hword]
  simp only [bind, Except.bind, pure, Except.pure, require, ensure, decide_eq_true hn, if_true]
  rfl

theorem withValueLast?_eq (hpos : ∀ r ∈ c.radices, 0 < r) :
    c.withValueLast? n = .ok (Counter.reversed ⟨wheelsOf c.radices.reverse n⟩) := by
  have hall : c.radices.all (· != 0) = true :=
    List.all_eq_true.2 fun r hr => bne_iff_ne.2 (Nat.pos_iff_ne_zero.1 (hpos r hr))
  have hradices : c.reversed.radices = c.radices.reverse := List.map_reverse
  rw [withValueLast?, hall, withValueLast, withValue, hradices]
  rfl

/-- Counting follows the numbers, with the first wheel or with the last one as the least significant.
A step raises the number by one, and there is none from the last row; who counts from zero sees every
row once. A number that fits a word can be read off its row, and a row can be set to each number with
the last wheel as the least significant. If the number of rows fits a word, a row can also be set to
each number with the first wheel as the least significant, and the number of a row is the sum of its
digits times their steps. -/
theorem counts_in_order (hpos : ∀ r ∈ rs, 0 < r) (hhalf : ∀ r ∈ rs, r < halfWordSize) :
    CountsUp rs value increment? ∧ CountsUp rs valueLast incrementLast? ∧
    (∃ cs, CountsThrough increment? (zero rs) cs ∧ EachOnce rs cs) ∧
    (∃ cs, CountsThrough incrementLast? (zero rs) cs ∧ EachOnce rs cs) ∧
    (∀ c, Over rs c → c.value? = word c.value ∧ c.reversed.value? = word c.valueLast) ∧
    Shows rs valueLast withValueLast? ∧
    (rs.prod < wordSize → Shows rs value withValue? ∧ ∀ c, Over rs c → ∃ steps,
      c.stepSizes? = .ok steps ∧ c.value = (List.zipWith (· * ·) c.digits steps).sum) := by
  have hfirst := countsUp_increment hpos hhalf
  have hlast := countsUp_incrementLast hpos hhalf
  have hpos' : ∀ {c : Counter}, c.radices = rs → ∀ r ∈ c.radices, 0 < r := fun h => h ▸ hpos
  have hzero := over_zero hpos
  refine ⟨hfirst, hlast, hfirst.eachOnce hzero value_zero, hlast.eachOnce hzero valueLast_zero,
    fun c hc => ⟨hc.value?_eq, hc.reversed.value?_eq⟩, hlast.shows fun {c n} hc hn => ?_,
    fun hword => ⟨hfirst.shows fun {c n} hc hn => ?_, fun c hc => ⟨c.stepSizes, ?_, ?_⟩⟩⟩
  · refine ⟨_, withValueLast?_eq (hpos' hc), ?_, ?_⟩
    · rw [← over_reversed_iff, reversed_reversed, hc]
      exact over_wheelsOf fun r hr => hpos r (List.mem_reverse.1 hr)
    · rw [valueLast, reversed_reversed, hc]
      exact value_wheelsOf (by rwa [List.prod_reverse])
  · subst hc
    exact ⟨_, withValue?_eq hpos hword hn, over_wheelsOf hpos, value_wheelsOf hn⟩
  · exact stepSizes?_eq (hpos' hc.radices) (hc.radices ▸ hword)
  · rw [digits, stepSizes, radices, sum_stepSizesFrom, Nat.one_mul, value]

/-- From digits `1, 0, 1` on wheels with two, one and three digits the third wheel moves in one
order and the first one cannot move in the other. -/
theorem counts_in_order_small : (∀ r ∈ [2, 1, 3], 0 < r) ∧ (∀ r ∈ [2, 1, 3], r < halfWordSize) ∧
    [2, 1, 3].prod < wordSize ∧
    (∃ d, increment? ⟨[⟨1, 2⟩, ⟨0, 1⟩, ⟨1, 3⟩]⟩ = .ok (some d) ∧ d.value = 4) ∧
    incrementLast? ⟨[⟨1, 2⟩, ⟨0, 1⟩, ⟨2, 3⟩]⟩ = .ok none ∧
    (∃ cs, CountsThrough incrementLast? (zero [2, 1, 3]) cs ∧ cs.length = 6 ∧ cs.Nodup) ∧
    (∃ d, (zero [2, 1, 3]).withValue? 5 = .ok d ∧ d.value? = .ok 5) ∧
    (zero [2, 1, 3]).withValueLast? 4 = .ok ⟨[⟨1, 2⟩, ⟨0, 1⟩, ⟨1, 3⟩]⟩ := by
  have hpos : ∀ r ∈ [2, 1, 3], 0 < r := by decide
  have hhalf : ∀ r ∈ [2, 1, 3], r < halfWordSize := by decide
  have hword : [2, 1, 3].prod < wordSize := by decide
  obtain ⟨hfirst, hlast, -, ⟨cs, hcs, hlength, hnodup, -⟩, hread, hshow, hwhole⟩ :=
    counts_in_order hpos hhalf
  have hrow : Over [2, 1, 3] ⟨[⟨1, 2⟩, ⟨0, 1⟩, ⟨1, 3⟩]⟩ := ⟨by decide, rfl⟩
  have hfull : Over [2, 1, 3] ⟨[⟨1, 2⟩, ⟨0, 1⟩, ⟨2, 3⟩]⟩ := ⟨by decide, rfl⟩
  obtain ⟨d, hnext, -, hvalue⟩ := hfirst.next hrow (by decide)
  obtain ⟨e, hset, he, hshown⟩ := (hwhole hword).1.exists_row (c := zero [2, 1, 3]) rfl
    (show 5 < [2, 1, 3].prod by decide)
  refine ⟨hpos, hhalf, hword, ⟨d, hnext, hvalue⟩, hlast.last hfull (by decide),
    ⟨cs, hcs, hlength, hnodup⟩, ⟨e, hset, ?_⟩, hshow.same_row rfl hrow⟩
  rw [(hread e he).1, hshown]
  rfl

/-- With five wheels of `65536` digits there are more rows than a word can count: even a small
number cannot be shown, and the number of the first step of the last wheel cannot be read off. -/
theorem rows_beyond_words : (∀ r ∈ List.replicate 5 65536, 0 < r ∧ r < halfWordSize) ∧
    5 < (List.replicate 5 65536).prod ∧
    (∀ c, (zero (List.replicate 5 65536)).withValue? 5 ≠ .ok c) ∧
    Over (List.replicate 5 65536) ⟨List.replicate 4 ⟨0, 65536⟩ ++ [⟨1, 65536⟩]⟩ ∧
    ∀ n, value? ⟨List.replicate 4 ⟨0, 65536⟩ ++ [⟨1, 65536⟩]⟩ ≠ .ok n := by
  have hshow : (zero (List.replicate 5 65536)).withValue? 5 = abort .overflow := rfl
  have hread : value? ⟨List.replicate 4 ⟨0, 65536⟩ ++ [⟨1, 65536⟩]⟩ = abort .overflow := rfl
  refine ⟨by decide, by decide, fun c => ?_, ⟨by decide, rfl⟩, fun n => ?_⟩
  · rw [hshow]
    exact nofun
  · rw [hread]
    exact nofun

end BayesCircuit.Counter
