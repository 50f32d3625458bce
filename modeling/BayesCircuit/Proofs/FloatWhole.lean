import BayesCircuit.Proofs.FloatSum

/-!
# Whole floating-point numbers

Floating-point numbers stand for all whole numbers below `2 ^ 53`. Sums and products of such numbers
that are whole numbers below `2 ^ 53` again are found exactly (`IsWhole.add`, `IsWhole.mul`), because
nothing but zeros is lost in rounding (`roundWithAccuracy_whole`), and they compare like the whole
numbers (`IsWhole.lt_iff`).
-/

namespace BayesCircuit.FloatWhole

open Float.Model Float.Model.UnpackedFloat FloatSum

variable {a b k n : Nat} {x y : Float}

theorem mantissa_pos (h : n ≠ 0) : 0 < n * 2 ^ k :=
  Nat.mul_pos (Nat.pos_of_ne_zero h) (Nat.two_pow_pos k)

/-- The parts of a whole number below `2 ^ 53`: its mantissa has `53` digits. -/
def whole (n : Nat) : UnpackedFloat :=
  if h : n = 0 then .zero .positive
  else .finite .positive (n * 2 ^ (52 - n.log2)) (n.log2 - 52) (mantissa_pos h)

theorem whole_pos (h : n ≠ 0) : whole n =
    .finite .positive (n * 2 ^ (52 - n.log2)) (n.log2 - 52) (mantissa_pos h) := dif_neg h

theorem log2_le (hn : n < 2 ^ 53) : n.log2 ≤ 52 := by
  rcases Nat.eq_zero_or_pos n with rfl | hpos
  · decide
  · have := (Nat.log2_lt hpos.ne').2 hn
    omega

theorem log2_mul_pow (h : n ≠ 0) : (n * 2 ^ k).log2 = n.log2 + k := by
  rw [← Nat.shiftLeft_eq, log2_shift h]

theorem log2_mono (ha : a ≠ 0) (h : a ≤ b) : a.log2 ≤ b.log2 :=
  (Nat.le_log2 (by omega)).2 ((Nat.log2_self_le ha).trans h)

/-! ## Rounding -/

/-- Shifting out zeros leaves no trace. -/
theorem shift_zeros : ∀ (m s : Nat),
    Nat.repeat ExtendedMantissa.shiftRightOne s ⟨m * 2 ^ s, false, false⟩ = ⟨m, false, false⟩
  | m, 0 => by simp [Nat.repeat]
  | m, s + 1 => by
      have hsplit : m * 2 ^ (s + 1) = m * 2 * 2 ^ s := by
        rw [Nat.pow_succ, Nat.mul_comm (2 ^ s) 2, Nat.mul_assoc]
      rw [Nat.repeat, hsplit, shift_zeros (m * 2) s, ExtendedMantissa.shiftRightOne]
      simp

/-- Aligning a whole number only drops zeros. -/
theorem shiftToTargetExponent_whole (h : n ≠ 0) (hn : n < 2 ^ 53) (hk : 52 ≤ n.log2 + k) {e : Int}
    (he : e = -(k : Int)) : shiftToTargetExponent .binary64 (n * 2 ^ k) e .exact =
      (⟨n * 2 ^ (52 - n.log2), false, false⟩, (n.log2 : Int) - 52) := by
  have hlog := log2_le hn
  have hbits : Format.binary64.mantissaBits = 53 := rfl
  have hmin : Format.binary64.minExponent = -1074 := rfl
  have htarget : Format.binary64.targetExponent (totalExponent (n * 2 ^ k) e) = n.log2 - 52 := by
    rw [totalExponent, log2_mul_pow h, Format.targetExponent, hbits, hmin]
    omega
  have hsplit : n * 2 ^ k = n * 2 ^ (52 - n.log2) * 2 ^ (n.log2 + k - 52) := by
    rw [Nat.mul_assoc, ← Nat.pow_add]
    congr 2
    omega
  have hamount : ((n.log2 : Int) - 52 - e).toNat = n.log2 + k - 52 := by omega
  have hexp : e + ((n.log2 + k - 52 : Nat) : Int) = n.log2 - 52 := by omega
  have hzeros : ExtendedMantissa.ofMantissaAndAccuracy (n * 2 ^ k) .exact >>> (n.log2 + k - 52) =
      ⟨n * 2 ^ (52 - n.log2), false, false⟩ := by
    rw [hsplit]
    exact shift_zeros _ _
  simp only [shiftToTargetExponent, shiftToExponent, htarget, hamount, hexp, hzeros]

/-- A whole number is not rounded, however many zeros follow its digits. -/
theorem roundWithAccuracy_whole (h : n ≠ 0) (hn : n < 2 ^ 53) (hk : 52 ≤ n.log2 + k) {e : Int}
    (he : e = -(k : Int)) :
    roundWithAccuracy .binary64 .positive (n * 2 ^ k) e .exact = whole n := by
  have hlog := log2_le hn
  have hagain : shiftToTargetExponent .binary64 (n * 2 ^ (52 - n.log2)) (n.log2 - 52) .exact =
      (⟨n * 2 ^ (52 - n.log2), false, false⟩, (n.log2 : Int) - 52) :=
    shiftToTargetExponent_whole h hn (by omega) (by omega)
  have hrounded : (⟨n * 2 ^ (52 - n.log2), false, false⟩ : ExtendedMantissa).roundedMantissa =
      n * 2 ^ (52 - n.log2) := rfl
  unfold roundWithAccuracy
  simp only [shiftToTargetExponent_whole h hn hk he, hrounded, hagain]
  rw [dif_neg (mantissa_pos h).ne', whole_pos h]

theorem round_whole (h : n ≠ 0) (hn : n < 2 ^ 53) {e : Int} (he : e = -(k : Int)) :
    UnpackedFloat.round .binary64 .positive (n * 2 ^ k) e = whole n := by
  have hlog := log2_le hn
  have hbits : Format.binary64.mantissaBits = 53 := rfl
  have hmin : Format.binary64.minExponent = -1074 := rfl
  have htarget : Format.binary64.targetExponent (totalExponent (n * 2 ^ k) e) = n.log2 - 52 := by
    rw [totalExponent, log2_mul_pow h, Format.targetExponent, hbits, hmin]
    omega
  have hamount : (e - ((n.log2 : Int) - 52)).toNat = 52 - n.log2 - k := by omega
  unfold UnpackedFloat.round decreaseExponent
  simp only [htarget, hamount, Nat.shiftLeft_eq, Nat.mul_assoc, ← Nat.pow_add]
  exact roundWithAccuracy_whole h hn (by omega) (by omega)

/-! ## Sums and products -/

theorem mul_whole (hab : a * b < 2 ^ 53) (ha : a ≠ 0) (hb : b ≠ 0) :
    UnpackedFloat.mul .binary64 (whole a) (whole b) = whole (a * b) := by
  have hne : a * b ≠ 0 := Nat.mul_ne_zero ha hb
  have hale : a ≤ a * b := Nat.le_mul_of_pos_right a (Nat.pos_of_ne_zero hb)
  have hble : b ≤ a * b := Nat.le_mul_of_pos_left b (Nat.pos_of_ne_zero ha)
  have hloga := log2_le (hale.trans_lt hab)
  have hlogb := log2_le (hble.trans_lt hab)
  have hmono := log2_mono ha hale
  have hprod : a * 2 ^ (52 - a.log2) * (b * 2 ^ (52 - b.log2)) =
      a * b * 2 ^ (52 - a.log2 + (52 - b.log2)) := by
    rw [Nat.pow_add]
    ac_rfl
  rw [whole_pos ha, whole_pos hb]
  show roundWithAccuracy .binary64 .positive (a * 2 ^ (52 - a.log2) * (b * 2 ^ (52 - b.log2)))
    ((a.log2 : Int) - 52 + ((b.log2 : Int) - 52)) .exact = _
  rw [hprod]
  exact roundWithAccuracy_whole hne hab (by omega) (by omega)

theorem add_whole (hab : a + b < 2 ^ 53) :
    UnpackedFloat.add .binary64 (whole a) (whole b) = whole (a + b) := by
  by_cases ha : a = 0
  · subst ha
    rw [Nat.zero_add]
    by_cases hb : b = 0
    · subst hb
      rfl
    · rw [whole_pos hb]
      rfl
  by_cases hb : b = 0
  · subst hb
    rw [Nat.add_zero, whole_pos ha]
    rfl
  have hloga := log2_le ((Nat.le_add_right a b).trans_lt hab)
  have hlogb := log2_le ((Nat.le_add_left b a).trans_lt hab)
  -- the smaller exponent belongs to the number with more zeros behind its digits
  obtain ⟨k, hk, hka, hkb⟩ : ∃ k : Nat, min ((a.log2 : Int) - 52) ((b.log2 : Int) - 52) = -(k : Int) ∧
      52 - a.log2 ≤ k ∧ 52 - b.log2 ≤ k :=
    ⟨max (52 - a.log2) (52 - b.log2), by omega, le_max_left .., le_max_right ..⟩
  have halign : ∀ {n : Nat}, n.log2 ≤ 52 → 52 - n.log2 ≤ k →
      (n * 2 ^ (52 - n.log2)) <<< ((n.log2 : Int) - 52 - -(k : Int)).toNat = n * 2 ^ k := by
    intro n hlog hle
    rw [Nat.shiftLeft_eq, Nat.mul_assoc, ← Nat.pow_add]
    congr 2
    omega
  have hsum : ((a * 2 ^ k : Nat) : Int) + ((b * 2 ^ k : Nat) : Int) =
      (((a + b) * 2 ^ k : Nat) : Int) := by
    rw [Nat.add_mul]
    rfl
  have hpos : 0 < (a + b) * 2 ^ k := mantissa_pos (by omega)
  rw [whole_pos ha, whole_pos hb]
  show UnpackedFloat.normalize .binary64
    (((a * 2 ^ (52 - a.log2)) <<< ((a.log2 : Int) - 52 - min _ _).toNat : Nat) +
      ((b * 2 ^ (52 - b.log2)) <<< ((b.log2 : Int) - 52 - min _ _).toNat : Nat))
    (min ((a.log2 : Int) - 52) ((b.log2 : Int) - 52)) .positive = _
  rw [hk, halign hloga hka, halign hlogb hkb, hsum, UnpackedFloat.normalize,
    compare_gt_iff_gt.2 (by exact_mod_cast hpos)]
  simp only [Int.toNat_natCast]
  exact round_whole (by omega) hab rfl

/-! ## Comparing -/

theorem lt_finite {m n : Nat} {e e' : Int} {hm : 0 < m} {hn : 0 < n} :
    (UnpackedFloat.finite .positive m e hm).lt (.finite .positive n e' hn) = true ↔
      e < e' ∨ e = e' ∧ m < n := by
  rw [UnpackedFloat.lt, beq_iff_eq]
  simp only [UnpackedFloat.compare, Option.some.injEq, Ordering.then_eq_lt, compare_lt_iff_lt,
    compare_eq_iff_eq]

theorem lt_whole (ha : a < 2 ^ 53) (hb : b < 2 ^ 53) : (whole a).lt (whole b) = true ↔ a < b := by
  by_cases hb₀ : b = 0
  · subst hb₀
    by_cases ha₀ : a = 0
    · subst ha₀
      exact iff_of_false (by decide) (Nat.lt_irrefl 0)
    · rw [whole_pos ha₀]
      exact iff_of_false Bool.false_ne_true (Nat.not_lt_zero a)
  by_cases ha₀ : a = 0
  · subst ha₀
    rw [whole_pos hb₀]
    exact iff_of_true rfl (Nat.pos_of_ne_zero hb₀)
  have hloga := log2_le ha
  have hlogb := log2_le hb
  rw [whole_pos ha₀, whole_pos hb₀, lt_finite]
  rcases Nat.lt_trichotomy a.log2 b.log2 with hlt | heq | hgt
  · have hpow : a < 2 ^ b.log2 := (Nat.log2_lt ha₀).1 hlt
    exact iff_of_true (.inl (by omega)) (hpow.trans_le (Nat.log2_self_le hb₀))
  · rw [heq, Nat.mul_lt_mul_right (Nat.two_pow_pos _)]
    simp
  · have hpow : b < 2 ^ a.log2 := (Nat.log2_lt hb₀).1 hgt
    exact iff_of_false (by omega) (hpow.trans_le (Nat.log2_self_le ha₀)).not_gt

/-! ## Packing -/

theorem unpack_packComponents {s : Sign} {ex : BitVec 11} {ma : BitVec 52} (hzero : ex ≠ 0#11)
    (hall : ex ≠ -1#11) : ∃ h, UnpackedFloat.unpack .binary64 (packComponents .binary64 s ex ma) =
      .finite s (1#1 ++ ma).toNat ((ex.toNat : Int) - 1075) h := by
  have hpos : 0 < (1#1 ++ ma).toNat := by
    rw [BitVec.toNat_append]
    exact Nat.lt_of_lt_of_le (by decide) Nat.left_le_or
  refine ⟨hpos, ?_⟩
  unfold UnpackedFloat.unpack
  simp only [unpackMantissa_packComponents, unpackExponent_packComponents,
    unpackSign_packComponents, Sign.ofBitVec_toBitVec]
  rw [if_neg hall, if_neg hzero]
  rfl

theorem unpack_pack_whole (hn : n < 2 ^ 53) :
    UnpackedFloat.unpack .binary64 (UnpackedFloat.pack .binary64 (whole n)) = whole n := by
  by_cases h : n = 0
  · subst h
    rfl
  have hlog := log2_le hn
  have hdigits : (n * 2 ^ (52 - n.log2)).log2 = 52 := by
    rw [log2_mul_pow h]
    omega
  have hlow : 2 ^ 52 ≤ n * 2 ^ (52 - n.log2) :=
    (Nat.le_log2 (mantissa_pos h).ne').1 hdigits.ge
  have hhigh : n * 2 ^ (52 - n.log2) < 2 ^ 53 :=
    (Nat.log2_lt (mantissa_pos h).ne').1 (by omega)
  have hbiased : ((n.log2 : Int) - 52 + (Format.binary64.exponentBias : Int) +
      Format.binary64.mantissaBitsWithoutImplicit).toNat = n.log2 + 1023 := by
    show ((n.log2 : Int) - 52 + 1023 + 52).toNat = _
    omega
  have hexp : (BitVec.ofNat 11 (n.log2 + 1023)).toNat = n.log2 + 1023 :=
    Nat.mod_eq_of_lt (by omega)
  have hpack : UnpackedFloat.pack .binary64 (whole n) = packComponents .binary64 .positive
      (BitVec.ofNat 11 (n.log2 + 1023)) (BitVec.ofNat 52 (n * 2 ^ (52 - n.log2))) := by
    rw [whole_pos h]
    simp only [UnpackedFloat.pack, hbiased, hdigits]
    rw [if_neg (by show ¬ 2 ^ 11 ≤ n.log2 + 1023 + 1; omega)]
    rfl
  have hne : ∀ {m : Nat}, m < 2 ^ 11 → n.log2 + 1023 ≠ m →
      BitVec.ofNat 11 (n.log2 + 1023) ≠ BitVec.ofNat 11 m := by
    intro m hm hne heq
    apply hne
    have hnat := congrArg BitVec.toNat heq
    rwa [hexp, BitVec.toNat_ofNat, Nat.mod_eq_of_lt hm] at hnat
  have hzero : BitVec.ofNat 11 (n.log2 + 1023) ≠ 0#11 := hne (by decide) (by omega)
  have hall : BitVec.ofNat 11 (n.log2 + 1023) ≠ 2047#11 := hne (by decide) (by omega)
  obtain ⟨hpos, hunpack⟩ := @unpack_packComponents .positive _
    (BitVec.ofNat 52 (n * 2 ^ (52 - n.log2))) hzero hall
  rw [hpack, hunpack, whole_pos h, UnpackedFloat.finite.injEq, toNat_hidden hlow hhigh, hexp]
  exact ⟨rfl, rfl, by omega⟩

/-! ## Floating-point numbers -/

/-- A floating-point number that stands for a whole number below `2 ^ 53`. -/
structure IsWhole (x : Float) (n : Nat) : Prop where
  lt : n < 2 ^ 53
  unpack_eq : x.toModel.unpack = whole n

theorem IsWhole.add (hx : IsWhole x a) (hy : IsWhole y b) (hab : a + b < 2 ^ 53) :
    IsWhole (x + y) (a + b) where
  lt := hab
  unpack_eq := by
    show UnpackedFloat.unpack .binary64 (UnpackedFloat.pack .binary64
      (UnpackedFloat.add .binary64 x.toModel.unpack y.toModel.unpack)) = _
    rw [hx.unpack_eq, hy.unpack_eq, add_whole hab, unpack_pack_whole hab]

theorem IsWhole.mul (hx : IsWhole x a) (hy : IsWhole y b) (hab : a * b < 2 ^ 53) (ha : a ≠ 0)
    (hb : b ≠ 0) : IsWhole (x * y) (a * b) where
  lt := hab
  unpack_eq := by
    show UnpackedFloat.unpack .binary64 (UnpackedFloat.pack .binary64
      (UnpackedFloat.mul .binary64 x.toModel.unpack y.toModel.unpack)) = _
    rw [hx.unpack_eq, hy.unpack_eq, mul_whole hab ha hb, unpack_pack_whole hab]

theorem IsWhole.lt_iff (hx : IsWhole x a) (hy : IsWhole y b) : x < y ↔ a < b := by
  rw [← lt_whole hx.lt hy.lt, ← hx.unpack_eq, ← hy.unpack_eq]
  exact decide_eq_true_iff

end BayesCircuit.FloatWhole
