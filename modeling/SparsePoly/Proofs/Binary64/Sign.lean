import SparsePoly.Proofs.Binary64.Integer

/-!
# Rounding looks at magnitudes only

Negation of floating-point numbers passes through products and quotients, bit for bit and whatever the
numbers are, and it passes through sums unless they equal zero: the sum of `x` and `-x` is `+0`, and so is
that of `-x` and `x`.

* Rounding puts the sign that it is given on what it makes of the magnitude (`roundWithAccuracy_neg`,
  `normalize_neg`).
* Packing keeps the sign apart from the other fields (`exists_pack_finite`), so the negation of a packed
  number is the packed negation (`ofModel_pack_neg`).

There is one pattern for NaN, so the statements are equations also where NaN comes out.
-/

open Float.Model Float.Model.UnpackedFloat

namespace SparsePoly.Binary64

/-! ## Signs -/

/-- The opposite of the opposite sign is the sign. -/
theorem sign_neg_neg (s : Sign) : - -s = s := by
  cases s <;> rfl

/-- A whole number behind the opposite sign is the opposite number. -/
theorem sign_apply_neg (s : Sign) (n : ℤ) : (-s).apply n = -s.apply n := by
  cases s
  · exact (Int.neg_neg n).symm
  · rfl

/-- The sign of a product does not hang on the order of the factors. -/
theorem sign_mul_comm (s s' : Sign) : s * s' = s' * s := by
  cases s <;> cases s' <;> rfl

/-- The opposite sign of a factor is the opposite sign of the product. -/
theorem sign_neg_mul (s s' : Sign) : -s * s' = -(s * s') := by
  cases s <;> cases s' <;> rfl

/-- The opposite sign of a dividend is the opposite sign of the quotient. -/
theorem sign_neg_div (s s' : Sign) : -s / s' = -(s / s') := by
  cases s <;> cases s' <;> rfl

/-- The opposite sign of a divisor is the opposite sign of the quotient. -/
theorem sign_div_neg (s s' : Sign) : s / -s' = -(s / s') := by
  cases s <;> cases s' <;> rfl

/-! ## Rounding -/

/-- What a magnitude is rounded to does not hang on the sign that it is given. -/
theorem roundWithAccuracy_neg (s : Sign) (m : ℕ) (e : ℤ) (acc : Accuracy) :
    roundWithAccuracy .binary64 (-s) m e acc = (roundWithAccuracy .binary64 s m e acc).neg := by
  unfold roundWithAccuracy
  simp only
  split <;> rfl

/-- A sum other than zero is rounded by its magnitude. -/
theorem normalize_neg {d : ℤ} (hd : d ≠ 0) (e : ℤ) (s : Sign) :
    UnpackedFloat.normalize .binary64 (-d) e s = (UnpackedFloat.normalize .binary64 d e s).neg := by
  unfold UnpackedFloat.normalize
  rcases lt_or_gt_of_ne hd with hneg | hpos
  · rw [compare_lt_iff_lt.2 hneg, compare_gt_iff_gt.2 (Int.neg_pos_of_neg hneg)]
    exact roundWithAccuracy_neg .negative _ _ _
  · rw [compare_gt_iff_gt.2 hpos, compare_lt_iff_lt.2 (Int.neg_neg_of_pos hpos), Int.neg_neg]
    exact roundWithAccuracy_neg .positive _ _ _

/-! ## Unpacked numbers -/

/-- Negation of unpacked numbers takes itself back, for infinities and zeros too. -/
theorem unpacked_neg_neg (u : UnpackedFloat) : u.neg.neg = u := by
  cases u with
  | notANumber => rfl
  | infinity s | zero s | finite s m e hm => simp only [UnpackedFloat.neg, sign_neg_neg]

/-- Unpacked numbers have one sum in either order. -/
theorem unpacked_add_comm (u v : UnpackedFloat) :
    UnpackedFloat.add .binary64 u v = UnpackedFloat.add .binary64 v u := by
  cases u with
  | notANumber => cases v <;> rfl
  | infinity s =>
    cases v with
    | infinity s' => cases s <;> cases s' <;> rfl
    | notANumber | zero _ | finite _ _ _ _ => rfl
  | zero s =>
    cases v with
    | zero s' => cases s <;> cases s' <;> rfl
    | notANumber | infinity _ | finite _ _ _ _ => rfl
  | finite s m e hm =>
    cases v with
    -- both orders bring the mantissas to the lower exponent, and add whole numbers there
    | finite s' m' e' hm' => simp only [UnpackedFloat.add, min_comm e e', Int.add_comm]
    | notANumber | infinity _ | zero _ => rfl

/-- Both numbers are zeros. -/
def BothZero (u v : UnpackedFloat) : Prop := ∃ s s', u = .zero s ∧ v = .zero s'

/-- Negation passes through a sum of unpacked numbers, unless the sum is a zero on both sides. -/
theorem unpacked_neg_add (u v : UnpackedFloat) :
    UnpackedFloat.add .binary64 u.neg v.neg = (UnpackedFloat.add .binary64 u v).neg ∨
      BothZero (UnpackedFloat.add .binary64 u.neg v.neg) (UnpackedFloat.add .binary64 u v) := by
  cases u with
  | notANumber => exact Or.inl rfl
  | infinity s =>
    cases v with
    | infinity s' => cases s <;> cases s' <;> exact Or.inl rfl
    | notANumber | zero _ | finite _ _ _ _ => exact Or.inl rfl
  | zero s =>
    cases v with
    | zero s' => cases s <;> cases s' <;> exact Or.inr ⟨_, _, rfl, rfl⟩
    | notANumber | infinity _ | finite _ _ _ _ => exact Or.inl rfl
  | finite s m e hm =>
    cases v with
    | finite s' m' e' hm' =>
      -- the exact sum, in units of the lower exponent
      set d : ℤ := s.apply (m <<< (e - min e e').toNat : ℕ) +
        s'.apply (m' <<< (e' - min e e').toNat : ℕ) with hd
      have hadd : UnpackedFloat.add .binary64 (.finite s m e hm) (.finite s' m' e' hm') =
          UnpackedFloat.normalize .binary64 d (min e e') .positive := rfl
      have hneg : UnpackedFloat.add .binary64 (.finite (-s) m e hm) (.finite (-s') m' e' hm') =
          UnpackedFloat.normalize .binary64 (-d) (min e e') .positive := by
        rw [hd, Int.neg_add, ← sign_apply_neg, ← sign_apply_neg]
        rfl
      simp only [UnpackedFloat.neg, hadd, hneg]
      -- an exact sum of zero has a positive sign whatever the summands are, so only here the sides
      -- differ
      by_cases hzero : d = 0
      · rw [hzero]
        exact Or.inr ⟨.positive, .positive, rfl, rfl⟩
      · exact Or.inl (normalize_neg hzero _ _)
    | notANumber | infinity _ | zero _ => exact Or.inl rfl

/-- Unpacked numbers have one product in either order. -/
theorem unpacked_mul_comm (u v : UnpackedFloat) :
    UnpackedFloat.mul .binary64 u v = UnpackedFloat.mul .binary64 v u := by
  cases u <;> cases v <;>
    simp only [UnpackedFloat.mul, sign_mul_comm, Nat.mul_comm, Int.add_comm]

/-- Negation passes from the left factor to the product of unpacked numbers. -/
theorem unpacked_neg_mul (u v : UnpackedFloat) :
    UnpackedFloat.mul .binary64 u.neg v = (UnpackedFloat.mul .binary64 u v).neg := by
  cases u <;> cases v <;>
    simp only [UnpackedFloat.mul, UnpackedFloat.neg, sign_neg_mul, roundWithAccuracy_neg]

/-- Negation passes from the dividend to the quotient of unpacked numbers. -/
theorem unpacked_neg_div (u v : UnpackedFloat) :
    UnpackedFloat.div .binary64 u.neg v = (UnpackedFloat.div .binary64 u v).neg := by
  cases u <;> cases v <;>
    simp only [UnpackedFloat.div, UnpackedFloat.neg, sign_neg_div, roundWithAccuracy_neg]

/-- Negation passes from the divisor to the quotient of unpacked numbers. -/
theorem unpacked_div_neg (u v : UnpackedFloat) :
    UnpackedFloat.div .binary64 u v.neg = (UnpackedFloat.div .binary64 u v).neg := by
  cases u <;> cases v <;>
    simp only [UnpackedFloat.div, UnpackedFloat.neg, sign_div_neg, roundWithAccuracy_neg]

/-! ## Packing -/

/-- The fields of a packed number other than its sign do not hang on the sign. -/
theorem exists_pack_finite {m : ℕ} (e : ℤ) (hm : 0 < m) :
    ∃ field mantissa, (field = -1#11 → mantissa = 0#52) ∧ ∀ s,
      UnpackedFloat.pack .binary64 (.finite s m e hm) = packComponents .binary64 s field mantissa := by
  set biased := (e + Format.binary64.exponentBias + Format.binary64.mantissaBitsWithoutImplicit).toNat
  -- the field is that of an infinity, of a normal number, or of a subnormal one
  by_cases hover : 2 ^ Format.binary64.exponentBits ≤ biased + 1
  · exact ⟨-1#11, 0#52, fun _ => rfl, fun s => if_pos hover⟩
  · by_cases hfull : m.log2 + 1 = Format.binary64.mantissaBits
    · refine ⟨BitVec.ofNat 11 biased, BitVec.ofNat 52 m, fun hinf => absurd ?_ hover, fun s =>
        (if_neg hover).trans (if_pos hfull)⟩
      -- the field of an infinity is out of reach
      have hfield := congrArg BitVec.toNat hinf
      change 2048 ≤ biased + 1
      simp at hfield
      omega
    · exact ⟨0#11, BitVec.ofNat 52 m, fun h => absurd h (by decide), fun s =>
        (if_neg hover).trans (if_neg hfull)⟩

/-- The negation of a packed number is the packed negation. -/
theorem ofModel_pack_neg (u : UnpackedFloat) :
    Float.ofModel (Float.Model.pack u.neg) = -Float.ofModel (Float.Model.pack u) := by
  refine ext_toBits ?_
  change UnpackedFloat.pack .binary64 u.neg =
    UnpackedFloat.pack .binary64 (UnpackedFloat.unpack .binary64 (UnpackedFloat.pack .binary64 u)).neg
  cases u with
  | notANumber => rfl
  | infinity s | zero s => cases s <;> rfl
  | finite s m e hm =>
    -- a finite number may be packed into an infinity, so the fields are what both sides share
    obtain ⟨field, mantissa, hfield, hpack⟩ := exists_pack_finite e hm
    rw [hpack, unpack_packComponents, neg_ofFields, pack_ofFields hfield]
    exact hpack (-s)

/-! ## Numbers -/

/-- Negation takes itself back, bit for bit. -/
protected theorem neg_neg (x : Float) : - -x = x := by
  rw [← ofModel_pack_unpack x, ← ofModel_pack_neg, ← ofModel_pack_neg, unpacked_neg_neg]

/-- Numbers have one sum in either order, bit for bit. -/
protected theorem add_comm (x y : Float) : x + y = y + x :=
  congrArg (fun u => Float.ofModel (Float.Model.pack u)) (unpacked_add_comm _ _)

/-- Negation passes through a sum, up to the sign of a zero. -/
protected theorem neg_add (x y : Float) :
    -x + -y = -(x + y) ∨ (-x + -y == 0) = true ∧ (x + y == 0) = true := by
  have hsum : -x + -y = Float.ofModel (Float.Model.pack
      (UnpackedFloat.add .binary64 (-x).toModel.unpack (-y).toModel.unpack)) := rfl
  rw [unpack_neg, unpack_neg] at hsum
  -- where the unpacked sums differ they are zeros, which compare equal to zero whatever their signs
  rcases unpacked_neg_add x.toModel.unpack y.toModel.unpack with h | ⟨s, s', hs, hs'⟩
  · rw [h, ofModel_pack_neg] at hsum
    exact Or.inl hsum
  · have hzero : ∀ s, (Float.ofModel (Float.Model.pack (.zero s)) == 0) = true := by
      intro s
      cases s <;> rfl
    have hsum' : x + y = Float.ofModel (Float.Model.pack (.zero s')) :=
      congrArg (fun u => Float.ofModel (Float.Model.pack u)) hs'
    rw [hs] at hsum
    rw [hsum, hsum']
    exact Or.inr ⟨hzero s, hzero s'⟩

/-- Negation passes from the left factor to the product. -/
protected theorem neg_mul (x y : Float) : -x * y = -(x * y) := by
  have hmul : -x * y = Float.ofModel (Float.Model.pack
      (UnpackedFloat.mul .binary64 (-x).toModel.unpack y.toModel.unpack)) := rfl
  rw [unpack_neg, unpacked_neg_mul, ofModel_pack_neg] at hmul
  exact hmul

/-- Numbers have one product in either order, bit for bit. -/
protected theorem mul_comm (x y : Float) : x * y = y * x :=
  congrArg (fun u => Float.ofModel (Float.Model.pack u)) (unpacked_mul_comm _ _)

/-- Negation passes from the dividend to the quotient. -/
protected theorem neg_div (x y : Float) : -x / y = -(x / y) := by
  have hdiv : -x / y = Float.ofModel (Float.Model.pack
      (UnpackedFloat.div .binary64 (-x).toModel.unpack y.toModel.unpack)) := rfl
  rw [unpack_neg, unpacked_neg_div, ofModel_pack_neg] at hdiv
  exact hdiv

/-- Negation passes from the divisor to the quotient. -/
protected theorem div_neg (x y : Float) : x / -y = -(x / y) := by
  have hdiv : x / -y = Float.ofModel (Float.Model.pack
      (UnpackedFloat.div .binary64 x.toModel.unpack (-y).toModel.unpack)) := rfl
  rw [unpack_neg, unpacked_div_neg, ofModel_pack_neg] at hdiv
  exact hdiv

end SparsePoly.Binary64
