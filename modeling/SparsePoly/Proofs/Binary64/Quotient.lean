import SparsePoly.Proofs.Binary64.Difference
import SparsePoly.Proofs.Decimal.Rounding

/-!
# When a quotient vanishes

The quotient of two finite floating-point numbers equals zero exactly if the exact quotient is not above
half of the least magnitude (`div_beq_zero_iff`). Unlike a difference, a quotient can be brought to zero
by rounding.

The quotient is computed with some digits to spare, then shifted to the exponent of the result and
rounded. On the way the mantissa comes with a round bit and a sticky bit, which tell where the exact
value lies above it (`Represents`).

* A shift keeps up what the bits tell (`Represents.shiftRight`).
* What is at most one half is rounded to zero, and nothing else (`Represents.roundedMantissa_eq_zero_iff`).
* Only at the least exponent so little is left (`isZero_roundWithAccuracy_iff`). Above it a quotient has
  all of its digits (`exponent_le_of_divCore`).
-/

open Float.Model Float.Model.UnpackedFloat

namespace SparsePoly.Binary64

/-! ## Round and sticky bit -/

/-- The whole halves up to the round bit. -/
def halves (em : ExtendedMantissa) : ℕ := 2 * em.mantissa + if em.roundBit then 1 else 0

/-- The mantissa with its two bits stands for `v`. -/
structure Represents (em : ExtendedMantissa) (v : ℚ) : Prop where
  /-- The halves are all there. -/
  halves_le : (halves em : ℚ) ≤ 2 * v
  /-- There is no further half. -/
  lt_halves : 2 * v < halves em + 1
  /-- The sticky bit tells whether anything else is left. -/
  sticky_iff : em.stickyBit = true ↔ (halves em : ℚ) ≠ 2 * v

/-- A shift by one digit makes the mantissa a number of halves. -/
theorem halves_shiftRightOne (em : ExtendedMantissa) : halves em.shiftRightOne = em.mantissa := by
  unfold halves ExtendedMantissa.shiftRightOne
  rcases Nat.mod_two_eq_zero_or_one em.mantissa with h | h
  · simpa [h] using by omega
  · simpa [h] using by omega

namespace Represents

variable {em : ExtendedMantissa} {v : ℚ}

/-- A whole number of halves is represented without a sticky bit. -/
theorem of_exact (hv : (halves em : ℚ) = 2 * v) (hsticky : em.stickyBit = false) : Represents em v :=
  ⟨hv.le, hv ▸ lt_add_one _, by rw [hsticky]; exact iff_of_false Bool.false_ne_true (not_not.2 hv)⟩

/-- What lies between two numbers of halves is represented with a sticky bit. -/
theorem of_inexact (hlo : (halves em : ℚ) < 2 * v) (hhi : 2 * v < halves em + 1)
    (hsticky : em.stickyBit = true) : Represents em v :=
  ⟨hlo.le, hhi, iff_of_true hsticky hlo.ne⟩

/-- What the bits tell comes on top of the mantissa. -/
theorem mantissa_le (h : Represents em v) : (em.mantissa : ℚ) ≤ v := by
  have hhalves : (2 * em.mantissa : ℚ) ≤ halves em := by
    exact_mod_cast Nat.le_add_right _ _
  linarith [h.halves_le]

/-- A digit that is shifted out is the new round bit, and the sticky bit keeps what the old one was. -/
theorem shiftRightOne (h : Represents em v) : Represents em.shiftRightOne (v / 2) := by
  have hdouble : 2 * (v / 2) = v := by ring
  have hsticky : em.shiftRightOne.stickyBit = (em.roundBit || em.stickyBit) := rfl
  have hlo := h.halves_le
  have hhi := h.lt_halves
  by_cases hround : em.roundBit = true
  · have hhalves : (halves em : ℚ) = 2 * em.mantissa + 1 := by simp [halves, hround]
    apply of_inexact
    · rw [halves_shiftRightOne, hdouble]
      linarith
    · rw [halves_shiftRightOne, hdouble]
      linarith
    · rw [hsticky, hround, Bool.true_or]
  · have hhalves : (halves em : ℚ) = 2 * em.mantissa := by simp [halves, hround]
    have hbit : em.shiftRightOne.stickyBit = em.stickyBit := by
      rw [hsticky, Bool.eq_false_iff.2 hround, Bool.false_or]
    have hne : (2 * em.mantissa : ℚ) ≠ 2 * v ↔ (em.mantissa : ℚ) ≠ v :=
      (mul_right_injective₀ two_ne_zero).ne_iff
    refine ⟨?_, ?_, ?_⟩
    · rw [halves_shiftRightOne, hdouble]
      linarith
    · rw [halves_shiftRightOne, hdouble]
      linarith
    · rw [halves_shiftRightOne, hdouble, hbit, h.sticky_iff, hhalves, hne]

/-- A shift halves the value. -/
theorem shiftRight (h : Represents em v) (k : ℕ) : Represents (em >>> k) (v / 2 ^ k) := by
  -- digit by digit: the shift is a row of shifts by one
  induction k with
  | zero => rwa [pow_zero, div_one]
  | succ k ih =>
    rw [pow_succ, ← div_div]
    exact ih.shiftRightOne

/-- At most one half is rounded to zero: a tie goes to the even neighbour. -/
theorem roundedMantissa_eq_zero_iff (h : Represents em v) : em.roundedMantissa = 0 ↔ v ≤ 1 / 2 := by
  -- a mantissa other than zero is never rounded to zero, and the bits alone are below one
  rcases Nat.eq_zero_or_pos em.mantissa with hzero | hpos
  · have hlo := h.halves_le
    have hhi := h.lt_halves
    have hiff := h.sticky_iff
    rcases em with ⟨m, round, sticky⟩
    obtain rfl : m = 0 := hzero
    match round, sticky with
    | false, false | false, true =>
      have hlt : 2 * v < 1 := by simpa [halves] using hhi
      exact iff_of_true rfl (by linarith)
    | true, false =>
      have htie : (1 : ℚ) = 2 * v := by simpa [halves] using hiff
      exact iff_of_true rfl (by linarith)
    | true, true =>
      have habove : (1 : ℚ) ≠ 2 * v := by simpa [halves] using hiff
      have hlt : 1 < 2 * v := lt_of_le_of_ne (by simpa [halves] using hlo) habove
      exact iff_of_false Nat.one_ne_zero (by linarith)
  · have hone : (1 : ℚ) ≤ em.mantissa := by exact_mod_cast hpos
    have hrounded := hpos.trans_le (mantissa_le_roundedMantissa em)
    exact iff_of_false hrounded.ne' (by linarith [h.mantissa_le])

end Represents

/-- A quotient is represented by its whole part, with the accuracy that goes by the rest. -/
theorem represents_ofMantissaAndAccuracy (num : ℕ) {den : ℕ} (hden : 0 < den) :
    Represents (.ofMantissaAndAccuracy (num / den) (accuracyOfFraction (num % den) den))
      (num / den) := by
  have hden' : (0 : ℚ) < den := by exact_mod_cast hden
  have hdiv : (den * (num / den : ℕ) + (num % den : ℕ) : ℚ) = num := by
    exact_mod_cast Nat.div_add_mod num den
  have hlt : (num % den : ℕ) < (den : ℚ) := by exact_mod_cast Nat.mod_lt num hden
  -- twice the quotient is a whole number of halves and twice the rest of the fraction
  have hsplit : (2 * (num / den) : ℚ) = 2 * (num / den : ℕ) + 2 * (num % den : ℕ) / den := by
    rw [← hdiv]
    field_simp
  rw [accuracyOfFraction]
  split
  · rename_i hexact
    refine .of_exact ?_ rfl
    rw [hsplit, hexact]
    simp [ExtendedMantissa.ofMantissaAndAccuracy, halves]
  · rename_i hrest
    have hpos : (0 : ℚ) < (num % den : ℕ) := by exact_mod_cast Nat.pos_of_ne_zero hrest
    -- the rest is less than half of the divisor, half of it, or more
    rcases Nat.lt_trichotomy (2 * (num % den)) den with h | h | h
    · have hbelow : (2 * (num % den : ℕ) : ℚ) / den < 1 := by
        rw [div_lt_one hden']
        exact_mod_cast h
      have habove : 0 < (2 * (num % den : ℕ) : ℚ) / den := by positivity
      have hhalves : (halves (.ofMantissaAndAccuracy (num / den) (.inexact .lt)) : ℚ) =
          2 * (num / den : ℕ) := by
        simp [ExtendedMantissa.ofMantissaAndAccuracy, halves]
      rw [Nat.compare_eq_lt.2 h]
      exact .of_inexact (by linarith) (by linarith) rfl
    · have hhalf : (2 * (num % den : ℕ) : ℚ) / den = 1 := by
        rw [div_eq_one_iff_eq hden'.ne']
        exact_mod_cast h
      have hhalves : (halves (.ofMantissaAndAccuracy (num / den) (.inexact .eq)) : ℚ) =
          2 * (num / den : ℕ) + 1 := by
        simp [ExtendedMantissa.ofMantissaAndAccuracy, halves]
      rw [Nat.compare_eq_eq.2 h]
      exact .of_exact (by linarith) rfl
    · have hbelow : (2 * (num % den : ℕ) : ℚ) / den < 2 := by
        rw [div_lt_iff₀ hden']
        linarith
      have habove : 1 < (2 * (num % den : ℕ) : ℚ) / den := by
        rw [one_lt_div hden']
        exact_mod_cast h
      have hhalves : (halves (.ofMantissaAndAccuracy (num / den) (.inexact .gt)) : ℚ) =
          2 * (num / den : ℕ) + 1 := by
        simp [ExtendedMantissa.ofMantissaAndAccuracy, halves]
      rw [Nat.compare_eq_gt.2 h]
      exact .of_inexact (by linarith) (by linarith) rfl

/-! ## Rounding to zero -/

/-- The shift to the target exponent ends at the least exponent, unless a digit is left above it. -/
theorem exponent_shiftToTargetExponent {m : ℕ} {e : ℤ} (he : m = 0 → e ≤ -1074) :
    let k := (Format.binary64.targetExponent (totalExponent m e) - e).toNat
    e + k = -1074 ∨ -1074 < e + k ∧ 2 ^ k ≤ m := by
  simp only [targetExponent_eq_max, totalExponent]
  rcases Nat.eq_zero_or_pos m with rfl | hm
  · have he := he rfl
    rw [Nat.log2_zero]
    omega
  · by_cases hleast : max ((m.log2 : ℤ) + 1 + e - (53 : ℕ)) (-1074) = -1074 ∧ e ≤ -1074
    · omega
    · refine Or.inr ⟨by omega, ?_⟩
      calc 2 ^ (max ((m.log2 : ℤ) + 1 + e - (53 : ℕ)) (-1074) - e).toNat
        _ ≤ 2 ^ m.log2 := Nat.pow_le_pow_right (by decide) (by omega)
        _ ≤ m := Nat.log2_self_le hm.ne'

/-- The result of rounding is packed as a zero exactly if the shifted mantissa is rounded to zero. -/
theorem isZero_pack_roundWithAccuracy (s : Sign) (m : ℕ) (e : ℤ) (acc : Accuracy) :
    isZero (Float.Model.pack (roundWithAccuracy .binary64 s m e acc)).unpack = true ↔
      (shiftToTargetExponent .binary64 m e acc).1.roundedMantissa = 0 := by
  rcases roundWithAccuracy_cases s m e acc with ⟨hzero, hround⟩ | ⟨hpos, hfits⟩
  · rw [hround, unpack_pack_zero]
    exact iff_of_true rfl hzero
  · rw [hfits.isZero_eq_false]
    exact iff_of_false Bool.false_ne_true hpos.ne'

/-- A mantissa that represents `v` at the exponent `e` gives zero exactly if the value is at most half
of the least magnitude. -/
theorem isZero_roundWithAccuracy_iff (s : Sign) {m : ℕ} {e : ℤ} {acc : Accuracy} {v : ℚ}
    (hv : Represents (.ofMantissaAndAccuracy m acc) v) (he : m = 0 → e ≤ -1074) :
    isZero (Float.Model.pack (roundWithAccuracy .binary64 s m e acc)).unpack = true ↔
      v * 2 ^ e ≤ 2 ^ (-1075 : ℤ) := by
  have hm := hv.mantissa_le
  rw [mantissa_ofMantissaAndAccuracy] at hm
  rw [isZero_pack_roundWithAccuracy]
  have hshift := exponent_shiftToTargetExponent he
  unfold shiftToTargetExponent shiftToExponent
  simp only at hshift ⊢
  generalize (Format.binary64.targetExponent (totalExponent m e) - e).toNat = k at hshift ⊢
  rw [(hv.shiftRight k).roundedMantissa_eq_zero_iff, div_le_iff₀ (by positivity)]
  rcases hshift with hleast | ⟨habove, hdigit⟩
  · -- at the least exponent one half is half of the least magnitude
    have hhalf : (2 : ℚ) ^ (-1075 : ℤ) = 1 / 2 * 2 ^ k * 2 ^ e := by
      rw [mul_assoc, ← zpow_natCast, ← zpow_add₀ (by norm_num), add_comm, hleast,
        show (-1074 : ℤ) = -1075 + 1 by norm_num, zpow_add_one₀ (by norm_num)]
      ring
    rw [hhalf, mul_le_mul_iff_of_pos_right (by positivity)]
  · -- above it the mantissa alone is too large
    have hbig : (2 : ℚ) ^ k ≤ v := by
      refine le_trans ?_ hm
      exact_mod_cast hdigit
    have hk : (0 : ℚ) < 2 ^ k := by positivity
    have hpow : (2 : ℚ) ^ (-1075 : ℤ) < 2 ^ k * 2 ^ e := by
      rw [← zpow_natCast, ← zpow_add₀ (by norm_num)]
      exact zpow_lt_zpow_right₀ (by norm_num) (by omega)
    refine iff_of_false (by linarith) (not_le.2 (hpow.trans_le ?_))
    exact mul_le_mul_of_nonneg_right hbig (by positivity)

/-! ## Quotients -/

/-- Above the least exponent a quotient is not cut down to nothing. -/
theorem exponent_le_of_divCore {m₁ m₂ : ℕ} {e₁ e₂ : ℤ} (h₁ : 0 < m₁) (h₂ : 0 < m₂)
    (hzero : (divCore .binary64 m₁ e₁ m₂ e₂).1 = 0) :
    (divCore .binary64 m₁ e₁ m₂ e₂).2.1 ≤ -1074 := by
  by_contra hexp
  simp only [divCore, targetExponent_eq_max, totalExponent, Nat.shiftLeft_eq,
    Nat.div_eq_zero_iff_lt h₂] at hzero hexp
  -- the numerator is shifted beyond all digits of the denominator
  generalize hs : (e₁ - e₂ - min (e₁ - e₂) (max ((m₁.log2 + 1 + e₁ - (m₂.log2 + 1 + e₂)) - (53 : ℕ))
    (-1074))).toNat = s at hzero
  have hlarge : m₂ < m₁ * 2 ^ s := by
    calc m₂
      _ < 2 ^ (m₂.log2 + 1) := Nat.lt_log2_self
      _ ≤ 2 ^ (m₁.log2 + s) := Nat.pow_le_pow_right (by decide) (by omega)
      _ = 2 ^ m₁.log2 * 2 ^ s := Nat.pow_add ..
      _ ≤ m₁ * 2 ^ s := Nat.mul_le_mul_right _ (Nat.log2_self_le h₁.ne')
  exact absurd hzero (Nat.not_lt.2 hlarge.le)

/-- A quotient of finite numbers other than zero is packed as a zero exactly if the exact quotient is
at most half of the least magnitude. -/
theorem isZero_div_finite_iff {s s' : Sign} {m m' : ℕ} {e e' : ℤ} (hm : 0 < m) (hm' : 0 < m') :
    isZero (Float.Model.pack
        (UnpackedFloat.div .binary64 (.finite s m e hm) (.finite s' m' e' hm'))).unpack = true ↔
      (m * 2 ^ e : ℚ) ≤ 2 ^ (-1075 : ℤ) * (m' * 2 ^ e') := by
  have hround : UnpackedFloat.div .binary64 (.finite s m e hm) (.finite s' m' e' hm') =
      roundWithAccuracy .binary64 (s / s') (divCore .binary64 m e m' e').1
        (divCore .binary64 m e m' e').2.1 (divCore .binary64 m e m' e').2.2 := rfl
  have hcore : (divCore .binary64 m e m' e').1 = 0 → (divCore .binary64 m e m' e').2.1 ≤ -1074 :=
    exponent_le_of_divCore hm hm'
  rw [hround]
  unfold divCore at hcore ⊢
  simp only [Nat.shiftLeft_eq] at hcore ⊢
  set τ : ℤ := min (e - e') (Format.binary64.targetExponent (totalExponent m e - totalExponent m' e'))
    with hτ
  have hm'' : (0 : ℚ) < m' := by exact_mod_cast hm'
  rw [isZero_roundWithAccuracy_iff _ (represents_ofMantissaAndAccuracy _ hm') hcore]
  have hvalue : ((m * 2 ^ (e - e' - τ).toNat : ℕ) / m' * 2 ^ τ : ℚ) = m * 2 ^ e / (m' * 2 ^ e') := by
    have hshift : ((e - e' - τ).toNat : ℤ) = e - e' - τ := Int.toNat_of_nonneg (by omega)
    have hpow : (2 : ℚ) ^ (e - e' - τ).toNat = 2 ^ e / 2 ^ e' / 2 ^ τ := by
      rw [← zpow_natCast, hshift, zpow_sub₀ (by norm_num), zpow_sub₀ (by norm_num)]
    push_cast
    rw [hpow]
    field_simp
  rw [hvalue, div_le_iff₀ (by positivity)]

/-- The value of a finite number other than zero, read off its mantissa and its exponent. -/
theorem wordValue_magnitudeWord {x : Float} {s : Sign} {m : ℕ} {e : ℤ} {hm : 0 < m}
    (hx : x.toModel.unpack = .finite s m e hm) : wordValue (magnitudeWord x) = m * 2 ^ e := by
  obtain ⟨s', field, mantissa, hfields⟩ := exists_hasFields x
  have hlt := mantissa.isLt
  rw [hfields.magnitudeWord_eq]
  rcases hfields.finite_cases hx with ⟨hfield, rfl, rfl⟩ | ⟨hpos, rfl, rfl⟩
  · rw [hfield]
    exact wordValue_add (k := 0) (Or.inl rfl) (by omega)
  · -- the implicit digit makes up for one in the exponent field
    have hsplit : field.toNat * 2 ^ 52 + mantissa.toNat =
        (field.toNat - 1) * 2 ^ 52 + (2 ^ 52 + mantissa.toNat) := by omega
    have hexp : leastUnit + ((field.toNat - 1 : ℕ) : ℤ) = field.toNat - 1075 := by
      unfold leastUnit
      omega
    rw [hsplit, wordValue_add (Or.inr (Nat.le_add_right _ _)) (by omega), hexp]

/-- A quotient of finite numbers equals zero exactly if the exact quotient is at most half of the least
magnitude `2 ^ (-1074)`. -/
theorem div_beq_zero_iff {x y : Float} (hx : x.isFinite = true) (hy : y.isFinite = true)
    (h0 : (y == 0) = false) : (x / y == 0) = true ↔
      wordValue (magnitudeWord x) ≤ 2 ^ (-1075 : ℤ) * wordValue (magnitudeWord y) := by
  change x.toModel.unpack.isFinite = true at hx
  change y.toModel.unpack.isFinite = true at hy
  change y.toModel.unpack.beq (.zero .positive) = false at h0
  change (Float.Model.pack (UnpackedFloat.div .binary64 x.toModel.unpack y.toModel.unpack)).unpack.beq
    (.zero .positive) = true ↔ _
  rw [beq_zero] at h0 ⊢
  cases hv : y.toModel.unpack with
  | infinity s' | notANumber => rw [hv] at hy; cases hy
  | zero s' => rw [hv] at h0; cases h0
  | finite s' m' e' hm' =>
    rw [wordValue_magnitudeWord hv]
    cases hu : x.toModel.unpack with
    | infinity s | notANumber => rw [hu] at hx; cases hx
    | zero s =>
      -- zero divided by anything else is zero
      have hzero : (x == 0) = true := by
        change x.toModel.unpack.beq (.zero .positive) = true
        rw [hu, beq_zero]
        rfl
      rw [(beq_zero_iff x).1 hzero, wordValue_zero]
      refine iff_of_true ?_ (by positivity)
      rw [UnpackedFloat.div, unpack_pack_zero]
      rfl
    | finite s m e hm =>
      rw [wordValue_magnitudeWord hu]
      exact isZero_div_finite_iff hm hm'

end SparsePoly.Binary64
