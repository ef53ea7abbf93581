import SparsePoly.Proofs.Binary64.Propagation
import SparsePoly.Proofs.Decimal.Fields

/-!
# When a difference vanishes

The difference of two finite floating-point numbers equals zero only if the numbers compare equal
(`sub_beq_zero`). Rounding cannot bring it to zero: both numbers are multiples of the least exponent
there is, so their difference is one as well, and the smallest of those is a number of the format.

* What rounding makes of a mantissa other than zero, at an exponent that is not below the least one,
  fits the format (`fits_round`). Such a number is not packed as a zero.
* A number determines its mantissa and its exponent (`Aligned.unique`), so an exact difference of zero
  means that the unpacked numbers are the same.
-/

open Float.Model Float.Model.UnpackedFloat

namespace SparsePoly.Binary64

/-! ## Rounding -/

/-- A number other than zero with at most 53 binary digits and an exponent that is not below the least
one. -/
def Fits : UnpackedFloat → Prop
  | .finite _ m e _ => m.log2 < 53 ∧ -1074 ≤ e
  | _ => False

/-- What fits the format is not packed as a zero. -/
theorem Fits.isZero_eq_false {u : UnpackedFloat} (h : Fits u) :
    isZero (Float.Model.pack u).unpack = false := by
  cases u with
  | infinity _ | notANumber | zero _ => exact h.elim
  | finite s m e hm => exact isZero_unpack_pack (h := hm) h.1 h.2

/-- Below its leading digit a number keeps 52 others, down to the least exponent. -/
theorem targetExponent_eq_max (e : ℤ) : Format.binary64.targetExponent e = max (e - 53) (-1074) := rfl

/-- A shift divides the mantissa, whatever becomes of the other bits. -/
theorem mantissa_shiftRight (em : ExtendedMantissa) (k : ℕ) :
    (em >>> k).mantissa = em.mantissa / 2 ^ k := by
  induction k with
  | zero => exact (Nat.div_one _).symm
  | succ k ih =>
    change (em >>> k).mantissa / 2 = _
    rw [ih, Nat.div_div_eq_div_mul, Nat.pow_succ]

/-- The accuracy goes into the other bits and leaves the mantissa as it is. -/
theorem mantissa_ofMantissaAndAccuracy (m : ℕ) (acc : Accuracy) :
    (ExtendedMantissa.ofMantissaAndAccuracy m acc).mantissa = m := by
  rcases acc with _ | _ | _ | _ <;> rfl

/-- Rounding to the nearest does not go below the mantissa, which was cut off. -/
theorem mantissa_le_roundedMantissa (em : ExtendedMantissa) : em.mantissa ≤ em.roundedMantissa := by
  unfold ExtendedMantissa.roundedMantissa Accuracy.roundToNearestEven
  split <;> omega

/-- The shift to the target exponent leaves 53 binary digits, and the first of them among them. -/
theorem shiftToTargetExponent_spec {m : ℕ} {e : ℤ} (hm : 0 < m) (he : -1074 ≤ e) (acc : Accuracy) :
    let shifted := shiftToTargetExponent .binary64 m e acc
    0 < shifted.1.mantissa ∧ shifted.1.mantissa.log2 < 53 ∧ -1074 ≤ shifted.2 := by
  have hshift : (Format.binary64.targetExponent (totalExponent m e) - e).toNat = m.log2 - 52 := by
    simp only [targetExponent_eq_max, totalExponent]
    omega
  have hpow : 0 < 2 ^ (m.log2 - 52) := Nat.two_pow_pos _
  have hle : 2 ^ (m.log2 - 52) ≤ m :=
    (Nat.pow_le_pow_right (by decide) (Nat.sub_le ..)).trans (Nat.log2_self_le hm.ne')
  have hpos : 0 < m / 2 ^ (m.log2 - 52) := Nat.div_pos hle hpow
  simp only [shiftToTargetExponent, shiftToExponent, hshift, mantissa_shiftRight,
    mantissa_ofMantissaAndAccuracy]
  refine ⟨hpos, ?_, by omega⟩
  rw [Nat.log2_lt hpos.ne', Nat.div_lt_iff_lt_mul hpow, ← Nat.pow_add]
  exact Nat.lt_log2_self.trans_le (Nat.pow_le_pow_right (by decide) (by omega))

/-- The shift to the target exponent divides the mantissa by a power of two. -/
theorem mantissa_shiftToTargetExponent (m : ℕ) (e : ℤ) (acc : Accuracy) :
    (shiftToTargetExponent .binary64 m e acc).1.mantissa =
      m / 2 ^ (Format.binary64.targetExponent (totalExponent m e) - e).toNat := by
  rw [shiftToTargetExponent, shiftToExponent, mantissa_shiftRight, mantissa_ofMantissaAndAccuracy]

/-- The shift to the target exponent does not end below the least one. -/
theorem le_shiftToTargetExponent (m : ℕ) (e : ℤ) (acc : Accuracy) :
    -1074 ≤ (shiftToTargetExponent .binary64 m e acc).2 := by
  simp only [shiftToTargetExponent, shiftToExponent, targetExponent_eq_max]
  omega

/-- Rounding gives a zero if the shifted mantissa is rounded to zero, and what fits the format
otherwise. -/
theorem roundWithAccuracy_cases (s : Sign) (m : ℕ) (e : ℤ) (acc : Accuracy) :
    let rounded := (shiftToTargetExponent .binary64 m e acc).1.roundedMantissa
    rounded = 0 ∧ roundWithAccuracy .binary64 s m e acc = .zero s ∨
      0 < rounded ∧ Fits (roundWithAccuracy .binary64 s m e acc) := by
  unfold roundWithAccuracy
  simp only
  rcases Nat.eq_zero_or_pos (shiftToTargetExponent .binary64 m e acc).1.roundedMantissa with
    hzero | hrounded
  · refine Or.inl ⟨hzero, dif_pos ?_⟩
    rw [mantissa_shiftToTargetExponent, hzero, Nat.zero_div]
  · -- the second shift takes back what rounding up may have carried over
    obtain ⟨hpos, hlog, hexp⟩ :=
      shiftToTargetExponent_spec hrounded (le_shiftToTargetExponent m e acc) .exact
    rw [dif_neg hpos.ne']
    exact Or.inr ⟨hrounded, hlog, hexp⟩

/-- A mantissa other than zero, not below the least exponent, is rounded to what fits the format. -/
theorem fits_roundWithAccuracy (s : Sign) {m : ℕ} {e : ℤ} (hm : 0 < m) (he : -1074 ≤ e)
    (acc : Accuracy) : Fits (roundWithAccuracy .binary64 s m e acc) := by
  obtain ⟨hpos, -⟩ := shiftToTargetExponent_spec hm he acc
  have hrounded := hpos.trans_le (mantissa_le_roundedMantissa _)
  rcases roundWithAccuracy_cases s m e acc with ⟨hzero, -⟩ | ⟨-, hfits⟩
  · exact absurd hzero hrounded.ne'
  · exact hfits

/-- The same with all digits of the mantissa known. -/
theorem fits_round (s : Sign) {m : ℕ} {e : ℤ} (hm : 0 < m) (he : -1074 ≤ e) :
    Fits (UnpackedFloat.round .binary64 s m e) := by
  unfold UnpackedFloat.round decreaseExponent
  refine fits_roundWithAccuracy s ?_ ?_ .exact
  · rw [Nat.shiftLeft_eq]
    exact Nat.mul_pos hm (Nat.two_pow_pos _)
  · simp only [targetExponent_eq_max]
    omega

/-- A mantissa other than zero is not rounded to zero. -/
theorem fits_normalize {m e : ℤ} (hm : m ≠ 0) (he : -1074 ≤ e) (s : Sign) :
    Fits (UnpackedFloat.normalize .binary64 m e s) := by
  unfold UnpackedFloat.normalize
  rcases lt_or_gt_of_ne hm with hneg | hpos
  · rw [compare_lt_iff_lt.2 hneg]
    exact fits_round .negative (by omega) he
  · rw [compare_gt_iff_gt.2 hpos]
    exact fits_round .positive (by omega) he

/-! ## Mantissa and exponent -/

/-- The form of the mantissa and the exponent of what is unpacked: all of the 53 binary digits are in
use, unless the exponent is the least one. -/
structure Aligned (m : ℕ) (e : ℤ) : Prop where
  /-- There are 53 binary digits. -/
  lt : m < 2 ^ 53
  /-- The exponent is not below the least one. -/
  le : -1074 ≤ e
  /-- The first digit is in use above the least exponent. -/
  normal : -1074 < e → 2 ^ 52 ≤ m

/-- A number is unpacked to an aligned mantissa. -/
theorem aligned_unpack {x : Float} {s : Sign} {m : ℕ} {e : ℤ} {hm : 0 < m}
    (hx : x.toModel.unpack = .finite s m e hm) : Aligned m e := by
  obtain ⟨s', field, mantissa, hfields⟩ := exists_hasFields x
  have hlt := mantissa.isLt
  -- a subnormal number has the least exponent, and a normal one the implicit digit
  rcases hfields.finite_cases hx with ⟨-, rfl, rfl⟩ | ⟨hpos, rfl, rfl⟩
  · exact ⟨by omega, le_rfl, fun h => absurd h (lt_irrefl _)⟩
  · exact ⟨by omega, by omega, fun _ => by omega⟩

/-- Equal multiples of a power of two with aligned mantissas have the same exponent. -/
theorem Aligned.unique {m m' : ℕ} {e e' : ℤ} (h : Aligned m e) (h' : Aligned m' e')
    (heq : m * 2 ^ (e - min e e').toNat = m' * 2 ^ (e' - min e e').toNat) : m = m' ∧ e = e' := by
  -- the statement is symmetric, so the first exponent may be taken as the lower one
  wlog hle : e ≤ e' generalizing m m' e e'
  · have hswap := this h' h (by rw [min_comm, heq]) (by omega)
    exact ⟨hswap.1.symm, hswap.2.symm⟩
  have hself : (e - min e e').toNat = 0 := by omega
  rcases hle.eq_or_lt with rfl | hlt
  · rw [hself, pow_zero, mul_one, mul_one] at heq
    exact ⟨heq, rfl⟩
  · -- the mantissa at the greater exponent has all its digits and is doubled at least once
    have hnormal := h'.normal (h.le.trans_lt hlt)
    have hdouble : 2 ^ 1 ≤ 2 ^ (e' - min e e').toNat :=
      Nat.pow_le_pow_right (by decide) (by omega)
    have hbig := Nat.mul_le_mul hnormal hdouble
    rw [hself, pow_zero, mul_one] at heq
    have := h.lt
    omega

/-! ## Differences -/

/-- Whole numbers with signs are equal only if their signs and their magnitudes are, beyond zero. -/
theorem apply_sub_apply_eq_zero {s s' : Sign} {a b : ℕ} (ha : 0 < a)
    (h : s.apply a - s'.apply b = 0) : s = s' ∧ a = b := by
  cases s <;> cases s' <;> simp only [Sign.apply] at h <;> first | exact ⟨rfl, by omega⟩ | omega

/-- The exact difference of two numbers of the format is zero only if they are the same, and rounding
keeps it from zero otherwise. -/
theorem isZero_sub_finite {s s' : Sign} {m m' : ℕ} {e e' : ℤ} (hm : 0 < m) (hm' : 0 < m')
    (h : Aligned m e) (h' : Aligned m' e') :
    isZero (Float.Model.pack
        (UnpackedFloat.sub .binary64 (.finite s m e hm) (.finite s' m' e' hm'))).unpack =
      (UnpackedFloat.finite s m e hm).beq (.finite s' m' e' hm') := by
  set d : ℤ := s.apply (m <<< (e - min e e').toNat : ℕ) -
    s'.apply (m' <<< (e' - min e e').toNat : ℕ) with hd
  have hsub : UnpackedFloat.sub .binary64 (.finite s m e hm) (.finite s' m' e' hm') =
      UnpackedFloat.normalize .binary64 d (min e e') .positive := rfl
  rw [hsub]
  -- either the exact difference vanishes, and the numbers are the same, or rounding keeps it
  by_cases hzero : d = 0
  · have hpos : 0 < m <<< (e - min e e').toNat := by
      rw [Nat.shiftLeft_eq]
      exact Nat.mul_pos hm (Nat.two_pow_pos _)
    obtain ⟨rfl, hshift⟩ := apply_sub_apply_eq_zero hpos (hd.symm.trans hzero)
    rw [Nat.shiftLeft_eq, Nat.shiftLeft_eq] at hshift
    obtain ⟨rfl, rfl⟩ := h.unique h' hshift
    have hexact : UnpackedFloat.normalize .binary64 0 (min e e) .positive = .zero .positive := by
      simp [UnpackedFloat.normalize]
    have hself : (UnpackedFloat.finite s m e hm).beq (.finite s m e hm) = true :=
      unpacked_beq_iff.2 (Or.inr ⟨rfl, by simp⟩)
    rw [hzero, hexact, unpack_pack_zero, hself]
    rfl
  · have hle : -1074 ≤ min e e' := le_min h.le h'.le
    rw [(fits_normalize hzero hle .positive).isZero_eq_false, eq_comm, Bool.eq_false_iff]
    intro hbeq
    rcases unpacked_beq_iff.1 hbeq with ⟨_, _, hkind, -⟩ | ⟨hsame, -⟩
    · cases hkind
    · cases hsame
      exact hzero (hd.trans (sub_self _))

/-- A difference of finite numbers equals zero if and only if the numbers compare equal. -/
theorem sub_beq_zero {x y : Float} (hx : x.isFinite = true) (hy : y.isFinite = true) :
    (x - y == 0) = (x == y) := by
  change x.toModel.unpack.isFinite = true at hx
  change y.toModel.unpack.isFinite = true at hy
  change (Float.Model.pack (UnpackedFloat.sub .binary64 x.toModel.unpack y.toModel.unpack)).unpack.beq
    (.zero .positive) = x.toModel.unpack.beq y.toModel.unpack
  rw [beq_zero]
  cases hu : x.toModel.unpack with
  | infinity s | notANumber => rw [hu] at hx; cases hx
  | zero s =>
    cases hv : y.toModel.unpack with
    | infinity s' | notANumber => rw [hv] at hy; cases hy
    | zero s' => cases s <;> cases s' <;> rfl
    | finite s' m' e' hm' =>
      -- the difference is the number with the opposite sign
      have hfits : Fits (.finite (-s') m' e' hm') := bounds_of_unpack hv
      refine hfits.isZero_eq_false.trans ?_
      cases s' <;> rfl
  | finite s m e hm =>
    cases hv : y.toModel.unpack with
    | infinity s' | notANumber => rw [hv] at hy; cases hy
    | zero s' =>
      have hfits : Fits (.finite s m e hm) := bounds_of_unpack hu
      refine hfits.isZero_eq_false.trans ?_
      cases s <;> rfl
    | finite s' m' e' hm' =>
      exact isZero_sub_finite hm hm' (aligned_unpack hu) (aligned_unpack hv)

end SparsePoly.Binary64
