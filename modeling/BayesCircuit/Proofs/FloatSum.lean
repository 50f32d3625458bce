import Mathlib

/-!
# Sums of floating-point numbers

A sum of many small floating-point numbers stays small, however many they are: once it has come
close to a power of two that is `2 ^ 54` times as large as the summands, adding one of them is lost
in rounding (`Small.add`). So a sum of numbers that are at most `64` is less than the greatest
number.
-/

namespace BayesCircuit.FloatSum

open Float.Model Float.Model.UnpackedFloat

/-- The number is less than `2 ^ k`. -/
def Under (k : Int) : UnpackedFloat → Prop
  | .notANumber => False
  | .infinity s => s = .negative
  | .zero _ => True
  | .finite .negative .. => True
  | .finite .positive m e _ => m < 2 ^ (k - e).toNat

/-! ## Rounding -/

/-- Shifting keeps the quotient, and the round bit tells that half a unit was dropped. -/
theorem shift_spec (m : Nat) : ∀ s, ∃ half rest,
    Nat.repeat ExtendedMantissa.shiftRightOne s ⟨m, false, false⟩ = ⟨m / 2 ^ s, half, rest⟩ ∧
    (half = true → (2 * (m / 2 ^ s) + 1) * 2 ^ s ≤ 2 * m)
  | 0 => ⟨false, false, by simp [Nat.repeat], by simp⟩
  | s + 1 => by
      obtain ⟨half, rest, hrun, -⟩ := shift_spec m s
      refine ⟨m / 2 ^ s % 2 != 0, half || rest, ?_, fun hodd => ?_⟩
      · rw [Nat.repeat, hrun, ExtendedMantissa.shiftRightOne, Nat.div_div_eq_div_mul,
          ← Nat.pow_succ]
      · have hmod : m / 2 ^ s % 2 = 1 := by
          have := bne_iff_ne.1 hodd
          omega
        have hhalf : 2 * (m / 2 ^ (s + 1)) + 1 = m / 2 ^ s := by
          rw [Nat.pow_succ, ← Nat.div_div_eq_div_mul]
          omega
        rw [hhalf, Nat.pow_succ, ← Nat.mul_assoc, Nat.mul_comm 2 m]
        exact Nat.mul_le_mul_right 2 (Nat.div_mul_le_self m _)

/-- A mantissa is rounded up only if half a unit was dropped. -/
theorem rounded_spec (m s : Nat) :
    (ExtendedMantissa.ofMantissaAndAccuracy m .exact >>> s).roundedMantissa = m / 2 ^ s ∨
    (ExtendedMantissa.ofMantissaAndAccuracy m .exact >>> s).roundedMantissa = m / 2 ^ s + 1 ∧
      (2 * (m / 2 ^ s) + 1) * 2 ^ s ≤ 2 * m := by
  obtain ⟨half, rest, hrun, hhalf⟩ := shift_spec m s
  have hshift : ExtendedMantissa.ofMantissaAndAccuracy m .exact >>> s =
      ⟨m / 2 ^ s, half, rest⟩ := hrun
  rw [hshift, ExtendedMantissa.roundedMantissa]
  cases half with
  | false =>
      left
      cases rest <;> rfl
  | true =>
      have hup := hhalf rfl
      cases rest with
      | false =>
          show m / 2 ^ s + m / 2 ^ s % 2 = _ ∨ m / 2 ^ s + m / 2 ^ s % 2 = _ ∧ _
          rcases Nat.mod_two_eq_zero_or_one (m / 2 ^ s) with hmod | hmod
          · exact Or.inl (by rw [hmod, Nat.add_zero])
          · exact Or.inr ⟨by rw [hmod], hup⟩
      | true => exact Or.inr ⟨rfl, hup⟩

/-- Less than halfway between the greatest number of `53` digits and a power of two, a mantissa is
not rounded up to the power. -/
theorem rounded_lt {m s j : Nat} (h : 2 * m < (2 ^ 54 - 1) * 2 ^ (j + s)) :
    (ExtendedMantissa.ofMantissaAndAccuracy m .exact >>> s).roundedMantissa < 2 ^ (53 + j) := by
  have hpos := Nat.two_pow_pos j
  rw [Nat.pow_add, ← Nat.mul_assoc] at h
  rw [Nat.pow_add]
  rcases rounded_spec m s with heq | ⟨heq, hup⟩
  · have hle : 2 * (m / 2 ^ s) * 2 ^ s ≤ 2 * m := by
      rw [Nat.mul_assoc]
      exact Nat.mul_le_mul_left 2 (Nat.div_mul_le_self m _)
    have hlt := Nat.lt_of_mul_lt_mul_right (hle.trans_lt h)
    omega
  · have hlt := Nat.lt_of_mul_lt_mul_right (hup.trans_lt h)
    omega

theorem totalExponent_le {m : Nat} {e k : Int} (h : m < 2 ^ (k - e).toNat) (hm : 0 < m) :
    totalExponent m e ≤ k := by
  have hlog : m.log2 < (k - e).toNat := (Nat.log2_lt hm.ne').2 h
  rw [totalExponent]
  omega

/-- What rounding makes of a mantissa that has been shifted to the target exponent. -/
theorem roundWithAccuracy_under {k e : Int} {m : Nat} {spec : Format}
    (h : ((ExtendedMantissa.ofMantissaAndAccuracy m .exact >>>
      (spec.targetExponent (totalExponent m e) - e).toNat).roundedMantissa) <
        2 ^ (k - (e + (spec.targetExponent (totalExponent m e) - e).toNat)).toNat) :
    Under k (roundWithAccuracy spec .positive m e .exact) := by
  unfold roundWithAccuracy shiftToTargetExponent shiftToExponent
  simp only []
  generalize hr : (ExtendedMantissa.ofMantissaAndAccuracy m .exact >>>
      (spec.targetExponent (totalExponent m e) - e).toNat).roundedMantissa = r at h ⊢
  generalize e + ((spec.targetExponent (totalExponent m e) - e).toNat : Int) = e' at h ⊢
  generalize (spec.targetExponent (totalExponent r e') - e').toNat = t
  split
  · trivial
  · rename_i hpos
    obtain ⟨half, rest, hrun, -⟩ := shift_spec r t
    have hshift : ExtendedMantissa.ofMantissaAndAccuracy r .exact >>> t =
      ⟨r / 2 ^ t, half, rest⟩ := hrun
    show (ExtendedMantissa.ofMantissaAndAccuracy r .exact >>> t).mantissa < 2 ^ (k - (e' + t)).toNat
    rw [hshift] at hpos ⊢
    have hle : 2 ^ t ≤ r := by
      by_contra hlt
      exact hpos (Nat.div_eq_of_lt (by omega))
    have hlt : t < (k - e').toNat := (Nat.pow_lt_pow_iff_right (by decide)).1 (hle.trans_lt h)
    have hsum : (k - e').toNat = t + (k - (e' + t)).toNat := by omega
    rw [hsum, Nat.pow_add] at h
    exact Nat.div_lt_of_lt_mul h

theorem log2_shift {m : Nat} (hm : m ≠ 0) : ∀ s, (m <<< s).log2 = m.log2 + s
  | 0 => rfl
  | s + 1 => by
      have hne : m <<< s ≠ 0 := by
        rw [Nat.shiftLeft_eq]
        exact Nat.mul_ne_zero hm (Nat.two_pow_pos s).ne'
      rw [Nat.shiftLeft_succ, Nat.log2_two_mul hne, log2_shift hm s, Nat.add_assoc]

theorem totalExponent_shift {m s : Nat} {e : Int} (hm : 0 < m) :
    totalExponent (m <<< s) (e - s) = totalExponent m e := by
  rw [totalExponent, totalExponent, log2_shift hm.ne']
  omega

theorem round_under {m : Nat} {e k : Int} (hm : 0 < m) (hk : Format.binary64.minExponent + 53 ≤ k)
    (he : e + 53 ≤ k) (h : 2 * m < (2 ^ 54 - 1) * 2 ^ (k - 53 - e).toNat) :
    Under k (UnpackedFloat.round .binary64 .positive m e) := by
  have hlt : m < 2 ^ (k - e).toNat := by
    rw [show (k - e).toNat = 53 + (k - 53 - e).toNat by omega, Nat.pow_add]
    have := Nat.two_pow_pos (k - 53 - e).toNat
    omega
  have htotal := totalExponent_le hlt hm
  have htarget : Format.binary64.targetExponent (totalExponent m e) + 53 ≤ k := by
    have : Format.binary64.mantissaBits = 53 := rfl
    rw [Format.targetExponent, this]
    omega
  unfold UnpackedFloat.round decreaseExponent
  simp only []
  apply roundWithAccuracy_under
  generalize hτ : Format.binary64.targetExponent (totalExponent m e) = τ at htarget ⊢
  rw [totalExponent_shift hm, hτ]
  rcases Int.le_total τ e with hcase | hcase
  · have hamount : (τ - (e - ((e - τ).toNat : Int))).toNat = 0 := by omega
    have hexp : (k - (e - ((e - τ).toNat : Int) + (0 : Nat))).toNat =
        53 + ((k - 53 - e).toNat + (e - τ).toNat) := by omega
    rw [hamount, hexp]
    apply rounded_lt
    rw [Nat.shiftLeft_eq, Nat.add_zero, Nat.pow_add, ← Nat.mul_assoc, ← Nat.mul_assoc]
    exact Nat.mul_lt_mul_of_pos_right h (Nat.two_pow_pos _)
  · have hnone : (e - τ).toNat = 0 := by omega
    have hamount : (τ - (e - ((e - τ).toNat : Int))).toNat = (τ - e).toNat := by omega
    have hexp : (k - (e - ((e - τ).toNat : Int) +
        ((τ - (e - ((e - τ).toNat : Int))).toNat : Nat))).toNat = 53 + (k - 53 - τ).toNat := by
      omega
    rw [hexp, hamount, hnone, Nat.shiftLeft_zero]
    apply rounded_lt
    rwa [show (k - 53 - τ).toNat + (τ - e).toNat = (k - 53 - e).toNat by omega]

theorem round_negative {k e : Int} {m : Nat} {spec : Format} :
    Under k (UnpackedFloat.round spec .negative m e) := by
  unfold UnpackedFloat.round roundWithAccuracy
  simp only []
  split <;> trivial

/-! ## Adding -/

/-- The mantissa has `53` digits, or fewer if the exponent is the least one. -/
def Canonical : UnpackedFloat → Prop
  | .finite _ m e _ => m < 2 ^ 53 ∧ (2 ^ 52 ≤ m ∨ e = Format.binary64.minExponent)
  | _ => True

theorem normalize_under {k e M : Int} {s : Sign} (hk : Format.binary64.minExponent + 53 ≤ k)
    (h : 0 < M → e + 53 ≤ k ∧ 2 * M < ((2 ^ 54 - 1) * 2 ^ (k - 53 - e).toNat : Nat)) :
    Under k (UnpackedFloat.normalize .binary64 M e s) := by
  unfold UnpackedFloat.normalize
  rcases Int.lt_trichotomy M 0 with hM | rfl | hM
  · rw [compare_lt_iff_lt.2 hM]
    exact round_negative
  · rw [compare_eq_iff_eq.2 rfl]
    trivial
  · rw [compare_gt_iff_gt.2 hM]
    obtain ⟨he, hlt⟩ := h hM
    exact round_under (by omega) hk he (by omega)

/-- A canonical number below `2 ^ k` is a multiple of its last digit away from it. -/
theorem Canonical.scaled {k e a : Int} {m : Nat} {h : 0 < m}
    (hc : Canonical (.finite .positive m e h)) (hm : Under k (.finite .positive m e h))
    (hk : Format.binary64.minExponent + 53 ≤ k) (ha : a ≤ e) :
    e + 53 ≤ k ∧
      m <<< (e - a).toNat + 2 ^ (k - 53 - a).toNat ≤ 2 ^ 53 * 2 ^ (k - 53 - a).toNat := by
  obtain ⟨hshort, hlong⟩ := hc
  change m < 2 ^ (k - e).toNat at hm
  have he : e + 53 ≤ k := by
    rcases hlong with hlong | rfl
    · have := (Nat.pow_lt_pow_iff_right (show 1 < 2 by decide)).1 (hlong.trans_lt hm)
      omega
    · exact hk
  refine ⟨he, ?_⟩
  have hsum : (k - 53 - a).toNat = (k - 53 - e).toNat + (e - a).toNat := by omega
  rw [Nat.shiftLeft_eq, hsum, Nat.pow_add]
  have hone := Nat.two_pow_pos (k - 53 - e).toNat
  calc m * 2 ^ (e - a).toNat + 2 ^ (k - 53 - e).toNat * 2 ^ (e - a).toNat
      = (m + 2 ^ (k - 53 - e).toNat) * 2 ^ (e - a).toNat := (Nat.add_mul ..).symm
    _ ≤ (2 ^ 53 * 2 ^ (k - 53 - e).toNat) * 2 ^ (e - a).toNat := by
        refine Nat.mul_le_mul_right _ ?_
        have := Nat.le_mul_of_pos_right (2 ^ 53 - 1) hone
        omega
    _ = _ := Nat.mul_assoc ..

theorem scaled_lt {a b k : Int} {m : Nat} (hab : a ≤ b) (h : m < 2 ^ (k - b).toNat) :
    m * 2 ^ (b - a).toNat < 2 ^ (k - a).toNat := by
  rcases Nat.eq_zero_or_pos m with rfl | hm
  · rw [Nat.zero_mul]
    exact Nat.two_pow_pos _
  · have hpos : 0 < k - b := by
      by_contra hle
      rw [show (k - b).toNat = 0 by omega] at h
      omega
    have hsum : (k - a).toNat = (k - b).toNat + (b - a).toNat := by omega
    rw [hsum, Nat.pow_add]
    exact Nat.mul_lt_mul_of_pos_right h (Nat.two_pow_pos _)

theorem scaled_small {k e a : Int} {m : Nat} (hpos : 0 < m) (hm : m < 2 ^ (k - 54 - e).toNat)
    (ha : a ≤ e) : e + 53 ≤ k ∧ 2 * (m <<< (e - a).toNat) < 2 ^ (k - 53 - a).toNat := by
  have hlt := scaled_lt ha hm
  have he : 0 < k - 54 - e := by
    by_contra hle
    rw [show (k - 54 - e).toNat = 0 by omega] at hm
    omega
  have hsum : (k - 53 - a).toNat = (k - 54 - a).toNat + 1 := by omega
  rw [Nat.shiftLeft_eq, hsum, Nat.pow_succ]
  omega

/-- Adding a number that is small enough keeps a sum below a power of two. -/
theorem add_under {k : Int} {x y : UnpackedFloat} (hk : Format.binary64.minExponent + 53 ≤ k)
    (hx : Under k x) (hc : Canonical x) (hy : Under (k - 54) y) :
    Under k (UnpackedFloat.add .binary64 x y) := by
  have hweak : Under k y := by
    cases y with
    | notANumber => exact hy
    | infinity s => exact hy
    | zero s => trivial
    | finite s m e hm =>
        cases s with
        | negative => trivial
        | positive =>
            refine Nat.lt_of_lt_of_le hy (Nat.pow_le_pow_right (by decide) ?_)
            omega
  cases x with
  | notANumber => exact hx.elim
  | infinity s =>
      obtain rfl := hx
      cases y with
      | notANumber => exact hy.elim
      | infinity t =>
          obtain rfl := hy
          rfl
      | zero t => rfl
      | finite t m e hm => rfl
  | zero s =>
      cases y with
      | notANumber => exact hy.elim
      | infinity t => exact hy
      | zero t =>
          show Under k (if _ then _ else _)
          split <;> trivial
      | finite t m e hm => exact hweak
  | finite s₁ m₁ e₁ h₁ =>
      cases y with
      | notANumber => exact hy.elim
      | infinity t => exact hy
      | zero t => exact hx
      | finite s₂ m₂ e₂ h₂ =>
          show Under k (UnpackedFloat.normalize .binary64
            (s₁.apply ((m₁ <<< (e₁ - min e₁ e₂).toNat : Nat) : Int) +
              s₂.apply ((m₂ <<< (e₂ - min e₁ e₂).toNat : Nat) : Int)) (min e₁ e₂) .positive)
          generalize ha : min e₁ e₂ = a
          have ha₁ : a ≤ e₁ := ha ▸ min_le_left ..
          have ha₂ : a ≤ e₂ := ha ▸ min_le_right ..
          apply normalize_under hk
          cases s₁ with
          | negative =>
              cases s₂ with
              | negative =>
                  generalize m₁ <<< (e₁ - a).toNat = n₁
                  generalize m₂ <<< (e₂ - a).toNat = n₂
                  simp only [Sign.apply]
                  omega
              | positive =>
                  obtain ⟨he, hsmall⟩ := scaled_small h₂ hy ha₂
                  generalize m₁ <<< (e₁ - a).toNat = n₁
                  generalize m₂ <<< (e₂ - a).toNat = n₂ at hsmall ⊢
                  generalize 2 ^ (k - 53 - a).toNat = p at hsmall ⊢
                  simp only [Sign.apply]
                  omega
          | positive =>
              obtain ⟨he, hlarge⟩ := hc.scaled hx hk ha₁
              have hone := Nat.two_pow_pos (k - 53 - a).toNat
              generalize m₁ <<< (e₁ - a).toNat = n₁ at hlarge ⊢
              cases s₂ with
              | negative =>
                  generalize m₂ <<< (e₂ - a).toNat = n₂
                  generalize 2 ^ (k - 53 - a).toNat = p at hlarge hone ⊢
                  simp only [Sign.apply]
                  omega
              | positive =>
                  obtain ⟨-, hsmall⟩ := scaled_small h₂ hy ha₂
                  generalize m₂ <<< (e₂ - a).toNat = n₂ at hsmall ⊢
                  generalize 2 ^ (k - 53 - a).toNat = p at hlarge hsmall hone ⊢
                  simp only [Sign.apply]
                  omega

/-! ## Packing -/

theorem canonical_unpack (b : BitVec Format.binary64.numBits) :
    Canonical (UnpackedFloat.unpack .binary64 b) := by
  unfold UnpackedFloat.unpack
  simp only []
  split
  · split <;> trivial
  · split
    · rename_i hexp
      split
      · trivial
      · refine ⟨?_, Or.inr ?_⟩
        · exact Nat.lt_of_lt_of_le (BitVec.isLt _) (by decide)
        · rw [hexp]
          rfl
    · refine ⟨BitVec.isLt _, Or.inl ?_⟩
      rw [BitVec.toNat_append]
      exact Nat.le_trans (by decide) Nat.left_le_or

/-- A number below `2 ^ k` is unpacked from an exponent and a mantissa. -/
theorem under_packComponents {k : Int} {s : Sign} {ex : BitVec 11} {ma : BitVec 52}
    (hk : Format.binary64.minExponent + 53 ≤ k) (hex : ex ≠ -1#11)
    (h : ex ≠ 0#11 → s = .positive →
      (1#1 ++ ma).toNat < 2 ^ (k - ((ex.toNat : Int) - 1075)).toNat) :
    Under k (UnpackedFloat.unpack .binary64 (packComponents .binary64 s ex ma)) := by
  have hmin : Format.binary64.minExponent = -1074 := rfl
  unfold UnpackedFloat.unpack
  simp only [unpackMantissa_packComponents, unpackExponent_packComponents,
    unpackSign_packComponents, Sign.ofBitVec_toBitVec]
  rw [if_neg hex]
  split
  · rename_i hzero
    split
    · trivial
    · cases s with
      | negative => trivial
      | positive =>
          have hexp : (ex.toNat : Int) = 0 := by
            rw [hzero]
            rfl
          refine Nat.lt_of_lt_of_le ma.isLt (Nat.pow_le_pow_right (by decide) ?_)
          have hbias : (Format.binary64.exponentBias : Int) +
            Format.binary64.mantissaBitsWithoutImplicit = 1075 := rfl
          rw [hbias, hexp]
          show 52 ≤ _
          omega
  · rename_i hzero
    cases s with
    | negative => trivial
    | positive => exact h hzero rfl

theorem toNat_hidden {m : Nat} (hlow : 2 ^ 52 ≤ m) (hhigh : m < 2 ^ 53) :
    (1#1 ++ BitVec.ofNat 52 m).toNat = m := by
  have hlt : (BitVec.ofNat 52 m).toNat < 2 ^ 52 := BitVec.isLt _
  rw [BitVec.toNat_append, ← Nat.shiftLeft_add_eq_or_of_lt hlt, BitVec.toNat_ofNat]
  show 1 <<< 52 + m % 2 ^ 52 = m
  omega

/-- Packing a number that is not too large keeps it below a power of two. -/
theorem under_unpack_pack {k : Int} {x : UnpackedFloat} (hk : Format.binary64.minExponent + 53 ≤ k)
    (hmax : k ≤ 900) (hx : Under k x) :
    Under k (UnpackedFloat.unpack .binary64 (UnpackedFloat.pack .binary64 x)) := by
  cases x with
  | notANumber => exact hx.elim
  | infinity s =>
      obtain rfl := hx
      rfl
  | zero s => cases s <;> trivial
  | finite s m e h =>
      simp only [UnpackedFloat.pack]
      have hbias : e + (Format.binary64.exponentBias : Int) +
          Format.binary64.mantissaBitsWithoutImplicit = e + 1075 := by
        show e + 1023 + 52 = _
        omega
      rw [hbias]
      split
      · rename_i hlarge
        change 2 ^ 11 ≤ _ at hlarge
        cases s with
        | negative => rfl
        | positive =>
            change m < 2 ^ (k - e).toNat at hx
            rw [show (k - e).toNat = 0 by omega] at hx
            omega
      · rename_i hfits
        change ¬ 2 ^ 11 ≤ _ at hfits
        split
        · rename_i hdigits
          change m.log2 + 1 = 53 at hdigits
          have hlow : 2 ^ 52 ≤ m := (Nat.le_log2 h.ne').1 (by omega)
          have hhigh : m < 2 ^ 53 := (Nat.log2_lt h.ne').1 (by omega)
          have hexp : (BitVec.ofNat 11 (e + 1075).toNat).toNat = (e + 1075).toNat :=
            Nat.mod_eq_of_lt (by omega)
          apply under_packComponents hk
          · intro hall
            have := congrArg BitVec.toNat hall
            rw [hexp] at this
            change _ = 2 ^ 11 - 1 at this
            omega
          · rintro hne rfl
            have hpos : (e + 1075).toNat ≠ 0 := by
              intro hzero
              apply hne
              show BitVec.ofNat 11 (e + 1075).toNat = _
              rw [hzero]
            rw [toNat_hidden hlow hhigh, hexp, show (((e + 1075).toNat : Int) - 1075) = e by omega]
            exact hx
        · exact under_packComponents hk (by decide) fun hne => absurd rfl hne

/-! ## Sums -/

/-- The number is less than `2 ^ k`. -/
def Small (k : Int) (x : Float) : Prop := Under k x.toModel.unpack

theorem Small.add {k : Int} {x y : Float} (hk : Format.binary64.minExponent + 53 ≤ k)
    (hmax : k ≤ 900) (hx : Small k x) (hy : Small (k - 54) y) : Small k (x + y) := by
  apply under_unpack_pack hk hmax
  exact add_under hk hx (canonical_unpack _) hy

theorem small_zero {k : Int} : Small k 0.0 := by
  have h : Float.Model.unpack (0.0 : Float).toModel = .zero .positive := rfl
  rw [Small, h]
  trivial

/-- A small number is less than the greatest finite one. -/
theorem Small.lt_greatest {k : Int} {x : Float} (hmax : k ≤ 900) (hx : Small k x) :
    x < .ofBits 0x7FEFFFFFFFFFFFFF := by
  have hgreatest : (Float.ofBits 0x7FEFFFFFFFFFFFFF).toModel.unpack =
      .finite .positive (2 ^ 53 - 1) 971 (by decide) := rfl
  show (decide (Float.Model.lt _ _ = true)) = true
  rw [decide_eq_true_eq, Float.Model.lt, hgreatest]
  rw [Small] at hx
  cases hunpack : x.toModel.unpack with
  | notANumber => exact (hunpack ▸ hx).elim
  | infinity s =>
      rw [hunpack] at hx
      obtain rfl := hx
      rfl
  | zero s => rfl
  | finite s m e h =>
      cases s with
      | negative => rfl
      | positive =>
          rw [hunpack] at hx
          change m < 2 ^ (k - e).toNat at hx
          have he : e < 971 := by
            by_contra hle
            rw [show (k - e).toNat = 0 by omega] at hx
            omega
          rw [UnpackedFloat.lt, UnpackedFloat.compare, compare_lt_iff_lt.2 he]
          rfl

theorem small_of_le {x : Float} (h : x ≤ 64) : Small 10 x := by
  have hbound : (64 : Float).toModel.unpack = .finite .positive (2 ^ 52) (-46) (by decide) := rfl
  have hcanonical := canonical_unpack x.toModel.toBits.toBitVec
  change (decide (Float.Model.le _ _ = true)) = true at h
  rw [decide_eq_true_eq, Float.Model.le, hbound] at h
  change Canonical x.toModel.unpack at hcanonical
  rw [Small]
  cases hunpack : x.toModel.unpack with
  | notANumber =>
      rw [hunpack] at h
      cases h
  | infinity s =>
      rw [hunpack] at h
      cases s with
      | negative => rfl
      | positive => cases h
  | zero s => trivial
  | finite s m e hm =>
      cases s with
      | negative => trivial
      | positive =>
          rw [hunpack] at h hcanonical
          have he : e ≤ -46 := by
            by_contra hlt
            rw [UnpackedFloat.le, UnpackedFloat.compare, compare_gt_iff_gt.2 (by omega)] at h
            cases h
          refine Nat.lt_of_lt_of_le hcanonical.1 (Nat.pow_le_pow_right (by decide) ?_)
          omega

end BayesCircuit.FloatSum
