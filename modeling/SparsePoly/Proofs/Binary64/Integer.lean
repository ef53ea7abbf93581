import SparsePoly.Proofs.Binary64.Difference

/-!
# Integers as floating-point numbers

Sums and products of integers are exact as long as their magnitude is at most `2 ^ 53`, however large the
operands are. Negation and division by one are exact for all integers (`IsInteger`).

* Up to `2 ^ 53` every integer is an aligned mantissa, up to zeros at its end (`exists_aligned_of_value`).
* Rounding takes such zeros off and loses nothing (`roundWithAccuracy_exact`, `round_exact`).
* Packing keeps an aligned mantissa as it is (`Aligned.unpack_pack`).

## Main statements

* `IsInteger.add`, `IsInteger.neg`, `IsInteger.mul`, `IsInteger.div_one`: the operations.
* `IsInteger.beq_zero`: an integer is told from zero by comparison.
* `IsInteger.unique`: there is one number for each integer, but for the sign of zero.
-/

open Float.Model Float.Model.UnpackedFloat

namespace SparsePoly.Binary64

/-! ## Rounding without loss -/

/-- Products of a mantissa and a power of two are equal if they are equal multiples of the lower power. -/
theorem mul_zpow_eq_iff {m m' : ℕ} {e e' : ℤ} :
    (m * 2 ^ e : ℚ) = m' * 2 ^ e' ↔
      m * 2 ^ (e - min e e').toNat = m' * 2 ^ (e' - min e e').toNat := by
  have hsplit : ∀ k : ℤ, min e e' ≤ k →
      (2 : ℚ) ^ k = 2 ^ (k - min e e').toNat * 2 ^ min e e' := by
    intro k hk
    rw [← zpow_natCast, ← zpow_add₀ two_ne_zero, Int.toNat_of_nonneg (sub_nonneg.2 hk),
      sub_add_cancel]
  rw [hsplit e (min_le_left _ _), hsplit e' (min_le_right _ _), ← mul_assoc, ← mul_assoc,
    mul_left_inj' (zpow_ne_zero _ two_ne_zero)]
  exact_mod_cast Iff.rfl

/-- Zeros at the end of a number add to the place of its leading digit. -/
theorem log2_mul_two_pow {m : ℕ} (hm : 0 < m) (k : ℕ) : (m * 2 ^ k).log2 = m.log2 + k := by
  induction k with
  | zero => rw [pow_zero, mul_one, add_zero]
  | succ k ih =>
    rw [pow_succ', mul_left_comm, Nat.log2_two_mul (by positivity), ih, add_assoc]

/-- An aligned mantissa is at its target exponent. -/
theorem Aligned.targetExponent_eq {m : ℕ} {e : ℤ} (h : Aligned m e) (hm : 0 < m) :
    Format.binary64.targetExponent (totalExponent m e) = e := by
  have hlog : m.log2 < 53 := (Nat.log2_lt hm.ne').2 h.lt
  have hle := h.le
  simp only [targetExponent_eq_max, totalExponent]
  rcases hle.eq_or_lt with rfl | hlt
  · omega
  · have hfull : 52 ≤ m.log2 := (Nat.le_log2 hm.ne').2 (h.normal hlt)
    omega

/-- Zeros can be shifted out without a trace. -/
theorem ofMantissaAndAccuracy_shiftRight (m k : ℕ) :
    ExtendedMantissa.ofMantissaAndAccuracy (m * 2 ^ k) .exact >>> k =
      .ofMantissaAndAccuracy m .exact := by
  induction k generalizing m with
  | zero => rw [pow_zero, mul_one]; rfl
  | succ k ih =>
    change (ExtendedMantissa.ofMantissaAndAccuracy (m * 2 ^ (k + 1)) .exact >>> k).shiftRightOne = _
    rw [pow_succ', ← mul_assoc, ih]
    simp [ExtendedMantissa.ofMantissaAndAccuracy, ExtendedMantissa.shiftRightOne]

section Exact

variable {M : ℕ} {E : ℤ} (hM : 0 < M) (h : Aligned M E)
include hM h

/-- The shift of an aligned mantissa with zeros at its end takes these zeros off, and nothing else.
-/
theorem shiftToTargetExponent_exact {e : ℤ} (hle : e ≤ E) :
    shiftToTargetExponent .binary64 (M * 2 ^ (E - e).toNat) e .exact =
      (.ofMantissaAndAccuracy M .exact, E) := by
  -- the leading digit stays at its place, so the target exponent is that of the aligned mantissa
  have htotal : totalExponent (M * 2 ^ (E - e).toNat) e = totalExponent M E := by
    rw [totalExponent, totalExponent, log2_mul_two_pow hM]
    omega
  rw [shiftToTargetExponent, htotal, h.targetExponent_eq hM, shiftToExponent,
    ofMantissaAndAccuracy_shiftRight, Int.toNat_of_nonneg (sub_nonneg.2 hle), add_sub_cancel]

/-- Nothing is lost when a mantissa that ends in zeros is rounded. -/
theorem roundWithAccuracy_exact (s : Sign) {e : ℤ} (hle : e ≤ E) :
    roundWithAccuracy .binary64 s (M * 2 ^ (E - e).toNat) e .exact = .finite s M E hM := by
  have hagain := shiftToTargetExponent_exact hM h le_rfl
  rw [sub_self, Int.toNat_zero, pow_zero, mul_one] at hagain
  have hrounded : (ExtendedMantissa.ofMantissaAndAccuracy M .exact).roundedMantissa = M := rfl
  unfold roundWithAccuracy
  simp only [shiftToTargetExponent_exact hM h hle, hrounded, hagain, mantissa_ofMantissaAndAccuracy]
  exact dif_neg hM.ne'

/-- What has the value of an aligned mantissa is rounded to it. -/
theorem round_exact (s : Sign) {m : ℕ} {e : ℤ} (heq : (m * 2 ^ e : ℚ) = M * 2 ^ E) :
    UnpackedFloat.round .binary64 s m e = .finite s M E hM := by
  rw [mul_zpow_eq_iff] at heq
  unfold UnpackedFloat.round decreaseExponent
  simp only [Nat.shiftLeft_eq]
  rcases le_total e E with hle | hle
  · rw [min_eq_left hle, sub_self, Int.toNat_zero, pow_zero, mul_one] at heq
    have htotal : totalExponent m e = totalExponent M E := by
      rw [totalExponent, totalExponent, heq, log2_mul_two_pow hM]
      omega
    have hshift : (e - E).toNat = 0 := by omega
    rw [htotal, h.targetExponent_eq hM, hshift, pow_zero, mul_one, heq, Int.natCast_zero, sub_zero]
    exact roundWithAccuracy_exact hM h s hle
  · rw [min_eq_right hle, sub_self, Int.toNat_zero, pow_zero, mul_one] at heq
    have hm : 0 < m := by
      rw [← heq] at hM
      exact Nat.pos_of_mul_pos_right hM
    have htotal : totalExponent m e = totalExponent M E := by
      rw [totalExponent, totalExponent, ← heq, log2_mul_two_pow hm]
      omega
    rw [htotal, h.targetExponent_eq hM, heq, Int.toNat_of_nonneg (sub_nonneg.2 hle), sub_sub_cancel]
    have hsame := roundWithAccuracy_exact hM h s le_rfl
    rwa [sub_self, Int.toNat_zero, pow_zero, mul_one] at hsame

end Exact

/-- The exponent of a product of two aligned mantissas is not above that of its aligned form. -/
theorem Aligned.add_le_of_mul {M m m' : ℕ} {E e e' : ℤ} (h : Aligned M E) (hm : Aligned m e)
    (hm' : Aligned m' e') (hpos : 0 < m) (hpos' : 0 < m')
    (heq : ((m * m' : ℕ) * 2 ^ (e + e') : ℚ) = M * 2 ^ E) : e + e' ≤ E := by
  by_contra hlt
  rw [mul_zpow_eq_iff, min_eq_right (by omega), sub_self, Int.toNat_zero, pow_zero, mul_one] at heq
  have hdouble : 2 ^ 1 ≤ 2 ^ (e + e' - E).toNat := Nat.pow_le_pow_right (by decide) (by omega)
  -- one of the two has all its digits
  have hfull : 2 ^ 52 ≤ m * m' := by
    have hle := h.le
    have hme := hm.le
    have hme' := hm'.le
    rcases hme.eq_or_lt with he | he
    · have hnormal := hm'.normal (by omega)
      nlinarith
    · have hnormal := hm.normal he
      nlinarith
  have hbig := Nat.mul_le_mul hfull hdouble
  have := h.lt
  omega

/-! ## Packing without loss -/

/-- Unpacking a number and packing it again gives the number. -/
theorem ofModel_pack_unpack (x : Float) : Float.ofModel (Float.Model.pack x.toModel.unpack) = x :=
  ofBits_toBits x

/-- What is unpacked is packed as it was. -/
theorem unpack_pack_unpack (x : Float) :
    (Float.Model.pack x.toModel.unpack).unpack = x.toModel.unpack :=
  congrArg (fun y : Float => y.toModel.unpack) (ofModel_pack_unpack x)

/-- An aligned mantissa whose exponent is not too large has fields of its own. -/
theorem Aligned.exists_ofFields {m : ℕ} {e : ℤ} (h : Aligned m e) (hm : 0 < m) (he : e ≤ 971)
    (s : Sign) : ∃ field mantissa, field ≠ -1#11 ∧ ofFields s field mantissa = .finite s m e hm := by
  have hlt := h.lt
  have hle := h.le
  rcases Nat.lt_or_ge m (2 ^ 52) with hsub | hnormal
  · -- without the first digit the exponent is the least one
    obtain rfl : e = -1074 := by
      by_contra hne
      have := h.normal (by omega)
      omega
    have hmantissa : (BitVec.ofNat 52 m).toNat = m := by
      rw [BitVec.toNat_ofNat, Nat.mod_eq_of_lt hsub]
    refine ⟨0#11, BitVec.ofNat 52 m, by decide, ?_⟩
    unfold ofFields
    rw [if_neg (by decide), if_pos rfl, dif_neg]
    · simp only [hmantissa]
    · intro hzero
      rw [hzero] at hmantissa
      exact hm.ne hmantissa
  · have hfield : (BitVec.ofNat 11 (e + 1075).toNat).toNat = (e + 1075).toNat := by
      rw [BitVec.toNat_ofNat, Nat.mod_eq_of_lt (by omega)]
    have hmantissa : (BitVec.ofNat 52 (m - 2 ^ 52)).toNat = m - 2 ^ 52 := by
      rw [BitVec.toNat_ofNat, Nat.mod_eq_of_lt (by omega)]
    have hne : ∀ b : BitVec 11, b.toNat ≠ (e + 1075).toNat →
        BitVec.ofNat 11 (e + 1075).toNat ≠ b := by
      rintro _ hb rfl
      exact hb hfield
    -- an exponent of at most 971 is not the field of an infinity
    have hinf : BitVec.ofNat 11 (e + 1075).toNat ≠ -1#11 := hne _ (by simp; omega)
    refine ⟨_, BitVec.ofNat 52 (m - 2 ^ 52), hinf, ?_⟩
    unfold ofFields
    rw [if_neg hinf, if_neg (hne _ (by simp; omega))]
    rw [UnpackedFloat.finite.injEq, hfield, hmantissa]
    exact ⟨rfl, by omega, by omega⟩

/-- An aligned mantissa whose exponent is not too large is packed as it is. -/
theorem Aligned.unpack_pack {m : ℕ} {e : ℤ} (h : Aligned m e) (hm : 0 < m) (he : e ≤ 971)
    (s : Sign) : (Float.Model.pack (.finite s m e hm)).unpack = .finite s m e hm := by
  obtain ⟨field, mantissa, hfield, heq⟩ := h.exists_ofFields hm he s
  rw [← heq]
  change UnpackedFloat.unpack .binary64 (UnpackedFloat.pack .binary64 _) = _
  rw [pack_ofFields fun hinf => absurd hinf hfield, unpack_packComponents]

/-- Negation changes the sign and keeps the other fields. -/
theorem neg_ofFields (s : Sign) (e : BitVec 11) (m : BitVec 52) :
    (ofFields s e m).neg = ofFields (-s) e m := by
  unfold ofFields
  split
  · split <;> rfl
  · split
    · split <;> rfl
    · rfl

/-- Negation is that of the unpacked number, since packing keeps the fields. -/
theorem unpack_neg (x : Float) : (-x).toModel.unpack = x.toModel.unpack.neg := by
  cases hx : x.isNaN with
  | true =>
    change (Float.Model.pack x.toModel.unpack.neg).unpack = _
    rw [unpack_of_isNaN hx]
    rfl
  | false =>
    obtain ⟨s, e, m, h⟩ := exists_hasFields x
    have hneg := (h.pack hx (-s)).unpack
    rwa [← neg_ofFields, ← h.unpack] at hneg

/-! ## Values -/

/-- The number that an unpacked number stands for, if it is finite. -/
def value : UnpackedFloat → ℚ
  | .finite s m e _ => s.apply m * 2 ^ e
  | _ => 0

/-- The unpacked number is finite and stands for `v`. -/
structure HasValue (u : UnpackedFloat) (v : ℚ) : Prop where
  /-- It is neither infinite nor NaN. -/
  isFinite : u.isFinite = true
  /-- It stands for `v`. -/
  value_eq : value u = v

/-- The floating-point number is finite and stands for the integer `n`. -/
def IsInteger (x : Float) (n : ℤ) : Prop := HasValue x.toModel.unpack n

/-- A number with a mantissa does not stand for zero. -/
theorem value_finite_ne_zero {s : Sign} {m : ℕ} {e : ℤ} {hm : 0 < m} :
    value (.finite s m e hm) ≠ 0 := by
  have hm' : (m : ℚ) ≠ 0 := by exact_mod_cast hm.ne'
  cases s <;> simp [value, Sign.apply, hm', zpow_ne_zero]

/-- The values of aligned mantissas with a sign tell them apart. -/
theorem eq_of_value_eq {s s' : Sign} {m m' : ℕ} {e e' : ℤ} {hm : 0 < m} {hm' : 0 < m'}
    (h : Aligned m e) (h' : Aligned m' e')
    (heq : value (.finite s m e hm) = value (.finite s' m' e' hm')) :
    UnpackedFloat.finite s m e hm = .finite s' m' e' hm' := by
  have hpos : (0 : ℚ) < m * 2 ^ e := mul_pos (by exact_mod_cast hm) (by positivity)
  have hpos' : (0 : ℚ) < m' * 2 ^ e' := mul_pos (by exact_mod_cast hm') (by positivity)
  -- the sign and the magnitude are settled first, and the magnitude tells mantissa and exponent
  have habs : s = s' ∧ (m * 2 ^ e : ℚ) = m' * 2 ^ e' := by
    cases s <;> cases s' <;> simp only [value, Sign.apply] at heq <;> push_cast at heq
    · exact ⟨rfl, by linarith⟩
    · linarith
    · linarith
    · exact ⟨rfl, heq⟩
  obtain ⟨rfl, habs⟩ := habs
  obtain ⟨rfl, rfl⟩ := h.unique h' (mul_zpow_eq_iff.1 habs)
  rfl

/-- An integer is a zero, or a mantissa and an exponent. -/
theorem IsInteger.cases {x : Float} {n : ℤ} (hx : IsInteger x n) :
    (n = 0 ∧ ∃ s, x.toModel.unpack = .zero s) ∨
      (n ≠ 0 ∧ ∃ s m e hm, x.toModel.unpack = .finite s m e hm ∧ (s.apply m * 2 ^ e : ℚ) = n) := by
  obtain ⟨hfinite, hvalue⟩ := hx
  cases hu : x.toModel.unpack with
  | infinity s | notANumber => rw [hu] at hfinite; cases hfinite
  | zero s =>
    rw [hu] at hvalue
    exact Or.inl ⟨Int.cast_eq_zero.1 hvalue.symm, s, rfl⟩
  | finite s m e hm =>
    rw [hu] at hvalue
    refine Or.inr ⟨?_, s, m, e, hm, rfl, hvalue⟩
    rintro rfl
    exact value_finite_ne_zero hvalue

/-- A number stands for one integer at most. -/
theorem IsInteger.eq_of_isInteger {x : Float} {n k : ℤ} (hn : IsInteger x n) (hk : IsInteger x k) :
    n = k :=
  Int.cast_injective (hn.value_eq.symm.trans hk.value_eq)

/-- A number other than zero is told by its value. -/
theorem IsInteger.unique {x y : Float} {n : ℤ} (hx : IsInteger x n) (hy : IsInteger y n)
    (hn : n ≠ 0) : x = y := by
  have hunpack : x.toModel.unpack = y.toModel.unpack := by
    rcases hx.cases with ⟨h0, -⟩ | ⟨-, s, m, e, hm, hu, -⟩
    · exact absurd h0 hn
    · rcases hy.cases with ⟨h0, -⟩ | ⟨-, s', m', e', hm', hv, -⟩
      · exact absurd h0 hn
      · have hvalue := hx.value_eq.trans hy.value_eq.symm
        rw [hu, hv] at hvalue ⊢
        exact eq_of_value_eq (aligned_unpack hu) (aligned_unpack hv) hvalue
  rw [← ofModel_pack_unpack x, hunpack, ofModel_pack_unpack]

/-- An integer compares equal to itself. -/
theorem IsInteger.beq_self {x : Float} {n : ℤ} (hx : IsInteger x n) : (x == x) = true := by
  refine unpacked_beq_iff.2 (Or.inr ⟨rfl, fun hnan => ?_⟩)
  have hfinite := hx.isFinite
  rw [hnan] at hfinite
  cases hfinite

/-! ## Integers of at most 53 binary digits -/

/-- Up to `2 ^ 53` every positive integer is an aligned mantissa with an exponent that is not too
large. -/
theorem exists_aligned {k : ℕ} (hk : 0 < k) (hle : k ≤ 2 ^ 53) :
    ∃ m e, 0 < m ∧ Aligned m e ∧ e ≤ 971 ∧ (k : ℚ) = m * 2 ^ e := by
  -- the bound itself has a digit too many, which is a zero
  rcases hle.eq_or_lt with rfl | hlt
  · refine ⟨2 ^ 52, 1, by norm_num, ⟨by norm_num, by norm_num, fun _ => le_rfl⟩, by norm_num, ?_⟩
    norm_num
  · have hlog : k.log2 < 53 := (Nat.log2_lt hk.ne').2 hlt
    refine ⟨k * 2 ^ (52 - k.log2), k.log2 - 52, by positivity, ⟨?_, by omega, fun _ => ?_⟩, by omega,
      ?_⟩
    · calc k * 2 ^ (52 - k.log2)
        _ < 2 ^ (k.log2 + 1) * 2 ^ (52 - k.log2) :=
          Nat.mul_lt_mul_of_pos_right Nat.lt_log2_self (Nat.two_pow_pos _)
        _ = 2 ^ 53 := by rw [← Nat.pow_add]; congr 1; omega
    · calc 2 ^ 52
        _ = 2 ^ k.log2 * 2 ^ (52 - k.log2) := by rw [← Nat.pow_add]; congr 1; omega
        _ ≤ k * 2 ^ (52 - k.log2) := Nat.mul_le_mul_right _ (Nat.log2_self_le hk.ne')
    · have hexp : ((k.log2 : ℤ) - 52) = -((52 - k.log2 : ℕ) : ℤ) := by omega
      rw [hexp, zpow_neg, zpow_natCast]
      push_cast
      rw [mul_assoc, mul_inv_cancel₀ (by positivity), mul_one]

/-- What stands for an integer other than zero, of magnitude `2 ^ 53` at most, is an aligned mantissa up to
zeros at its end. -/
theorem exists_aligned_of_value {s : Sign} {m : ℕ} {e : ℤ} {n : ℤ} (hn : n ≠ 0) (hle : |n| ≤ 2 ^ 53)
    (heq : (s.apply m * 2 ^ e : ℚ) = n) :
    ∃ M E, 0 < M ∧ Aligned M E ∧ E ≤ 971 ∧ (m * 2 ^ e : ℚ) = M * 2 ^ E := by
  obtain ⟨M, E, hM, h, hE, hvalue⟩ :=
    exists_aligned (Int.natAbs_pos.2 hn) (by rw [Int.abs_eq_natAbs] at hle; exact_mod_cast hle)
  refine ⟨M, E, hM, h, hE, ?_⟩
  have hpos : (0 : ℚ) ≤ m * 2 ^ e := by positivity
  have habs : (m * 2 ^ e : ℚ) = |(n : ℚ)| := by
    rw [← heq]
    cases s <;> simp only [Sign.apply] <;> push_cast
    · rw [neg_mul, abs_neg, abs_of_nonneg hpos]
    · rw [abs_of_nonneg hpos]
  rw [habs, ← hvalue, Nat.cast_natAbs, Int.cast_abs]

/-- Equal magnitudes with the same sign are equal. -/
theorem value_eq_of_mul_zpow_eq (s : Sign) {m m' : ℕ} {e e' : ℤ}
    (h : (m * 2 ^ e : ℚ) = m' * 2 ^ e') : (s.apply m * 2 ^ e : ℚ) = s.apply m' * 2 ^ e' := by
  cases s <;> simp only [Sign.apply] <;> push_cast <;> linarith

section Operations

variable {x y : Float} {n k : ℤ}

/-- A packed zero stands for zero, whatever its sign. -/
theorem hasValue_pack_zero (s : Sign) : HasValue (Float.Model.pack (.zero s)).unpack 0 := by
  rw [unpack_pack_zero]
  exact ⟨rfl, rfl⟩

/-- A mantissa that stands for an integer within the bound is rounded and packed without loss. -/
theorem hasValue_pack_round {s : Sign} {m : ℕ} {e : ℤ} (hn : n ≠ 0) (hle : |n| ≤ 2 ^ 53)
    (heq : (s.apply m * 2 ^ e : ℚ) = n) :
    HasValue (Float.Model.pack (UnpackedFloat.round .binary64 s m e)).unpack n := by
  obtain ⟨M, E, hM, h, hE, hvalue⟩ := exists_aligned_of_value hn hle heq
  rw [round_exact hM h s hvalue, h.unpack_pack hM hE]
  exact ⟨rfl, (value_eq_of_mul_zpow_eq s hvalue).symm.trans heq⟩

/-- So is a whole number of units, whatever its sign, zero among them. -/
theorem hasValue_pack_normalize {d e : ℤ} (hle : |n| ≤ 2 ^ 53) (heq : (d * 2 ^ e : ℚ) = n) :
    HasValue (Float.Model.pack (UnpackedFloat.normalize .binary64 d e .positive)).unpack n := by
  have hpow : (2 : ℚ) ^ e ≠ 0 := zpow_ne_zero _ two_ne_zero
  unfold UnpackedFloat.normalize
  rcases lt_trichotomy d 0 with hneg | rfl | hpos
  · have hn : n ≠ 0 := by
      rintro rfl
      simp [hpow, hneg.ne] at heq
    rw [compare_lt_iff_lt.2 hneg]
    refine hasValue_pack_round hn hle ?_
    rw [← heq, Sign.apply, Int.toNat_of_nonneg (by omega), neg_neg]
  · rw [compare_eq_iff_eq.2 rfl]
    obtain rfl : n = 0 := by simpa using heq.symm
    exact_mod_cast hasValue_pack_zero .positive
  · have hn : n ≠ 0 := by
      rintro rfl
      simp [hpow, hpos.ne'] at heq
    rw [compare_gt_iff_gt.2 hpos]
    refine hasValue_pack_round hn hle ?_
    rw [← heq, Sign.apply, Int.toNat_of_nonneg (by omega)]

/-- A sum of finite numbers is exact if it is an integer within the bound. -/
theorem hasValue_pack_add {s s' : Sign} {m m' : ℕ} {e e' : ℤ} {hm : 0 < m} {hm' : 0 < m'}
    (hle : |n + k| ≤ 2 ^ 53) (hn : (s.apply m * 2 ^ e : ℚ) = n)
    (hk : (s'.apply m' * 2 ^ e' : ℚ) = k) :
    HasValue (Float.Model.pack
      (UnpackedFloat.add .binary64 (.finite s m e hm) (.finite s' m' e' hm'))).unpack
      (n + k : ℤ) := by
  -- both mantissas are brought to the lower exponent
  have hexp : ∀ {s : Sign} {m : ℕ} {d : ℤ}, min e e' ≤ d →
      (s.apply (m <<< (d - min e e').toNat : ℕ) * 2 ^ min e e' : ℚ) = s.apply m * 2 ^ d := by
    intro s m d hd
    refine value_eq_of_mul_zpow_eq s ?_
    rw [mul_zpow_eq_iff, min_eq_left hd, Nat.shiftLeft_eq, sub_self, Int.toNat_zero, pow_zero,
      mul_one]
  refine hasValue_pack_normalize hle ?_
  rw [Int.cast_add, Int.cast_add, ← hn, ← hk, ← hexp (min_le_left e e'), ← hexp (min_le_right e e')]
  exact add_mul _ _ _

/-- A product of finite numbers is exact if it is an integer within the bound, other than zero. -/
theorem hasValue_pack_mul {s s' : Sign} {m m' : ℕ} {e e' : ℤ} {hm : 0 < m} {hm' : 0 < m'}
    (h : Aligned m e) (h' : Aligned m' e') (hnk : n * k ≠ 0) (hle : |n * k| ≤ 2 ^ 53)
    (hn : (s.apply m * 2 ^ e : ℚ) = n) (hk : (s'.apply m' * 2 ^ e' : ℚ) = k) :
    HasValue (Float.Model.pack
      (UnpackedFloat.mul .binary64 (.finite s m e hm) (.finite s' m' e' hm'))).unpack
      (n * k : ℤ) := by
  have hvalue : ((s * s').apply (m * m' : ℕ) * 2 ^ (e + e') : ℚ) = (n * k : ℤ) := by
    rw [zpow_add₀ two_ne_zero, Int.cast_mul, ← hn, ← hk]
    cases s <;> cases s' <;> simp only [Sign.apply] <;> push_cast <;> ring
  obtain ⟨M, E, hM, hME, hE, hmantissa⟩ := exists_aligned_of_value hnk hle hvalue
  -- the product of the mantissas ends in zeros
  have hexp := hME.add_le_of_mul h h' hm hm' hmantissa
  have hzeros := mul_zpow_eq_iff.1 hmantissa
  rw [min_eq_left hexp, sub_self, Int.toNat_zero, pow_zero, mul_one] at hzeros
  change HasValue
    (Float.Model.pack (roundWithAccuracy .binary64 (s * s') (m * m') (e + e') .exact)).unpack _
  rw [hzeros, roundWithAccuracy_exact hM hME _ hexp, hME.unpack_pack hM hE]
  exact ⟨rfl, (value_eq_of_mul_zpow_eq _ hmantissa).symm.trans hvalue⟩

/-- A sum of integers is exact if it is not too large. -/
theorem IsInteger.add (hx : IsInteger x n) (hy : IsInteger y k) (hle : |n + k| ≤ 2 ^ 53) :
    IsInteger (x + y) (n + k) := by
  change HasValue
    (Float.Model.pack (UnpackedFloat.add .binary64 x.toModel.unpack y.toModel.unpack)).unpack _
  have hxpack := unpack_pack_unpack x
  have hypack := unpack_pack_unpack y
  -- a zero has no mantissa, so it is a case of its own for either summand
  rcases hx.cases with ⟨rfl, s, hu⟩ | ⟨-, s, m, e, hm, hu, hn⟩
  · rcases hy.cases with ⟨rfl, s', hv⟩ | ⟨-, s', m', e', hm', hv, -⟩
    · rw [hu, hv]
      cases s <;> cases s' <;> exact_mod_cast hasValue_pack_zero _
    · rw [zero_add, hu, hv]
      rw [hv] at hypack
      exact hypack.symm ▸ (hv ▸ hy : HasValue (.finite s' m' e' hm') k)
  · rcases hy.cases with ⟨rfl, s', hv⟩ | ⟨-, s', m', e', hm', hv, hk⟩
    · rw [add_zero, hu, hv]
      rw [hu] at hxpack
      exact hxpack.symm ▸ (hu ▸ hx : HasValue (.finite s m e hm) n)
    · rw [hu, hv]
      exact hasValue_pack_add hle hn hk

/-- The negation of an integer is exact. -/
theorem IsInteger.neg (hx : IsInteger x n) : IsInteger (-x) (-n) := by
  have hunpack := unpack_neg x
  rcases hx.cases with ⟨rfl, s, hu⟩ | ⟨-, s, m, e, hm, hu, hn⟩
  · rw [hu] at hunpack
    rw [neg_zero, IsInteger, hunpack]
    exact ⟨rfl, rfl⟩
  · rw [hu] at hunpack
    rw [IsInteger, hunpack, Int.cast_neg, ← hn]
    refine ⟨rfl, ?_⟩
    cases s
    · simp [UnpackedFloat.neg, value, Sign.apply]
    · simp [UnpackedFloat.neg, value, Sign.apply]

/-- A product of integers is exact if it is not too large. -/
theorem IsInteger.mul (hx : IsInteger x n) (hy : IsInteger y k) (hle : |n * k| ≤ 2 ^ 53) :
    IsInteger (x * y) (n * k) := by
  change HasValue
    (Float.Model.pack (UnpackedFloat.mul .binary64 x.toModel.unpack y.toModel.unpack)).unpack _
  -- a factor that is zero makes the product a zero, and its sign does not matter to the value
  rcases hx.cases with ⟨rfl, s, hu⟩ | ⟨hn0, s, m, e, hm, hu, hn⟩
  · rw [zero_mul, Int.cast_zero, hu]
    rcases hy.cases with ⟨rfl, s', hv⟩ | ⟨-, s', m', e', hm', hv, -⟩
    · rw [hv]
      exact hasValue_pack_zero _
    · rw [hv]
      exact hasValue_pack_zero _
  · rcases hy.cases with ⟨rfl, s', hv⟩ | ⟨hk0, s', m', e', hm', hv, hk⟩
    · rw [mul_zero, Int.cast_zero, hu, hv]
      exact hasValue_pack_zero _
    · rw [hu, hv]
      exact hasValue_pack_mul (aligned_unpack hu) (aligned_unpack hv) (mul_ne_zero hn0 hk0) hle hn hk

/-- The quotient of an aligned mantissa by one is the mantissa, with zeros at its end. -/
theorem Aligned.divCore_one {m : ℕ} {e : ℤ} (h : Aligned m e) :
    ∃ τ ≤ e, divCore .binary64 m e (2 ^ 52) (-52) = (m * 2 ^ (e - τ).toNat, τ, .exact) := by
  have hone : Nat.log2 (2 ^ 52) = 52 := Nat.log2_two_pow
  set τ := min (e - -52) (Format.binary64.targetExponent
    (totalExponent m e - totalExponent (2 ^ 52) (-52))) with hτ
  have hle : τ ≤ e := by
    have hlog : m.log2 < 53 := by
      rcases Nat.eq_zero_or_pos m with rfl | hm
      · decide
      · exact (Nat.log2_lt hm.ne').2 h.lt
    have := h.le
    simp only [targetExponent_eq_max, totalExponent, hone] at hτ
    omega
  -- the shift makes up for the zeros at the end of the mantissa of one
  have hshift : (e - -52 - τ).toNat = (e - τ).toNat + 52 := by omega
  refine ⟨τ, hle, ?_⟩
  unfold divCore
  simp only [← hτ, hshift, Nat.shiftLeft_eq, Nat.pow_add, ← Nat.mul_assoc,
    Nat.mul_div_cancel _ (Nat.two_pow_pos 52), Nat.mul_mod_left]
  rfl

/-- Division by one gives back an aligned mantissa. -/
theorem Aligned.div_one {m : ℕ} {e : ℤ} (h : Aligned m e) {s : Sign} {hm : 0 < m} :
    UnpackedFloat.div .binary64 (.finite s m e hm) (.finite .positive (2 ^ 52) (-52) (by decide)) =
      .finite s m e hm := by
  obtain ⟨τ, hτ, hcore⟩ := h.divCore_one
  have hround : UnpackedFloat.div .binary64 (.finite s m e hm)
      (.finite .positive (2 ^ 52) (-52) (by decide)) =
    roundWithAccuracy .binary64 (s / .positive) (divCore .binary64 m e (2 ^ 52) (-52)).1
      (divCore .binary64 m e (2 ^ 52) (-52)).2.1 (divCore .binary64 m e (2 ^ 52) (-52)).2.2 := rfl
  rw [hround, hcore, roundWithAccuracy_exact hm h _ hτ]
  cases s <;> rfl

/-- One is an integer. -/
theorem isInteger_one : IsInteger 1 1 := by
  have hunpack : (1 : Float).toModel.unpack = .finite .positive (2 ^ 52) (-52) (by decide) := rfl
  rw [IsInteger, hunpack]
  refine ⟨rfl, ?_⟩
  norm_num [value, Sign.apply]

/-- The greatest mantissa there is, as an integer. -/
theorem isInteger_greatest : IsInteger 9007199254740991 9007199254740991 := by
  have hunpack : (9007199254740991 : Float).toModel.unpack =
      .finite .positive 9007199254740991 0 (by decide) := rfl
  rw [IsInteger, hunpack]
  refine ⟨rfl, ?_⟩
  norm_num [value, Sign.apply]

/-- Division by one is exact, however large the number is. -/
theorem IsInteger.div_one (hx : IsInteger x n) (hy : IsInteger y 1) : IsInteger (x / y) n := by
  have hunpack : y.toModel.unpack = .finite .positive (2 ^ 52) (-52) (by decide) := by
    rw [hy.unique isInteger_one one_ne_zero]
    rfl
  change HasValue
    (Float.Model.pack (UnpackedFloat.div .binary64 x.toModel.unpack y.toModel.unpack)).unpack _
  have hxpack := unpack_pack_unpack x
  rcases hx.cases with ⟨rfl, s, hu⟩ | ⟨-, s, m, e, hm, hu, -⟩
  · rw [hu, hunpack, Int.cast_zero]
    exact hasValue_pack_zero _
  · rw [hu] at hxpack
    rw [hu, hunpack, (aligned_unpack hu).div_one, hxpack, ← hu]
    exact hx

/-- An integer equals zero if it compares equal to zero. -/
theorem IsInteger.beq_zero (hx : IsInteger x n) : (x == 0) = (n == 0) := by
  change x.toModel.unpack.beq (.zero .positive) = _
  rw [Binary64.beq_zero]
  rcases hx.cases with ⟨rfl, s, hu⟩ | ⟨hn, s, m, e, hm, hu, -⟩
  · rw [hu]
    rfl
  · rw [hu, beq_eq_false_iff_ne.2 hn]
    rfl

end Operations

end SparsePoly.Binary64
