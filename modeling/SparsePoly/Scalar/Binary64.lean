import SparsePoly.Scalar.Basic

/-!
# Binary64 coefficients

Floating-point numbers as coefficients. An exponent is exact as a floating-point number, and a
power beyond repeated squaring is the one of the floating-point library.

## Main statements

* `neg_beq_zero`: a floating-point number equals zero exactly if its negation does.

Negation flips the sign of a number and packs the result again, so the statement comes down to two
facts about the packed fields: the pattern of a number other than zero has a nonzero exponent or
mantissa field (`isZero_unpack_pack`), and what is unpacked has a mantissa below `2 ^ 53` and an
exponent of at least `-1074` (`bounds_of_unpack`).
-/

open Float.Model Float.Model.UnpackedFloat

namespace SparsePoly

instance : ExponentScalar Float where
  ofExponent e := e.toFloat
  largePower x e := x.pow e.toFloat

namespace Binary64

/-- Whether an unpacked number is a zero of either sign. -/
def isZero : UnpackedFloat → Bool
  | .zero _ => true
  | _ => false

/-- Comparison with zero, whatever the sign of the zero. -/
theorem beq_zero (u : UnpackedFloat) : u.beq (.zero .positive) = isZero u := by
  rcases u with s | _ | s | ⟨s, m, e, h⟩ <;> try cases s
  all_goals rfl

/-- A pattern stands for zero when its exponent and mantissa fields vanish. -/
theorem isZero_unpack (b : BitVec 64) :
    isZero (unpack .binary64 b) =
      (@unpackExponent .binary64 b == 0#11 &&
        @unpackMantissa .binary64 b == 0#52) := by
  unfold UnpackedFloat.unpack
  by_cases hinf : @unpackExponent .binary64 b = -1#11
  · rw [if_pos hinf, hinf]
    by_cases hm : @unpackMantissa .binary64 b = 0#52
    · rw [if_pos hm]
      rfl
    · rw [if_neg hm]
      rfl
  · rw [if_neg hinf]
    by_cases he : @unpackExponent .binary64 b = 0#11
    · rw [if_pos he]
      by_cases hm : @unpackMantissa .binary64 b = 0#52
      · rw [dif_pos hm, he, hm]
        rfl
      · rw [dif_neg hm, beq_eq_false_iff_ne.2 hm, Bool.and_false]
        rfl
    · rw [if_neg he, beq_eq_false_iff_ne.2 he]
      rfl

/-- Packing a number that fits the format never gives the pattern of a zero. -/
theorem isZero_unpack_pack {s : Sign} {m : Nat} {e : Int} {h : 0 < m} (hm : m.log2 < 53)
    (he : -1074 ≤ e) :
    isZero (unpack .binary64 (UnpackedFloat.pack .binary64 (.finite s m e h))) = false := by
  have hb : (2 : Nat) ^ (11 : Nat) = 2048 := by decide
  have hmb : Format.binary64.mantissaBits = 53 := rfl
  have hbias : Format.binary64.exponentBias = 1023 := by decide
  rw [isZero_unpack]
  unfold UnpackedFloat.pack
  simp only [hmb, hbias, hb]
  split
  · simp [packedInfinity]
  · split
    · -- a full mantissa: the exponent field is positive
      have hne : BitVec.ofNat 11 (e + (1023 : Nat) + (52 : Nat)).toNat ≠ 0#11 := by
        intro h0
        have := congrArg BitVec.toNat h0
        simp only [BitVec.toNat_ofNat, hb, Nat.zero_mod] at this
        omega
      simp only [unpackExponent_packComponents, beq_eq_false_iff_ne.2 hne, Bool.false_and]
    · -- a shorter mantissa is kept whole in its field
      rename_i hlog
      have hm52 : m < 2 ^ 52 := (Nat.log2_lt (by omega)).1 (by omega)
      have hne : BitVec.ofNat 52 m ≠ 0#52 := by
        intro h0
        have := congrArg BitVec.toNat h0
        simp only [BitVec.toNat_ofNat, Nat.zero_mod, Nat.mod_eq_of_lt hm52] at this
        omega
      simp only [unpackMantissa_packComponents, beq_eq_false_iff_ne.2 hne, Bool.and_false]

/-- What a pattern unpacks to fits the format. -/
theorem bounds_of_unpack {b : BitVec 64} {s : Sign} {m : Nat} {e : Int} {h : 0 < m}
    (hu : unpack .binary64 b = .finite s m e h) : m.log2 < 53 ∧ -1074 ≤ e := by
  suffices hlt : m < 2 ^ 53 ∧ -1074 ≤ e from ⟨(Nat.log2_lt (by omega)).2 hlt.1, hlt.2⟩
  have hbias : Format.binary64.exponentBias = 1023 := by decide
  have hbits : Format.binary64.mantissaBitsWithoutImplicit = 52 := rfl
  unfold UnpackedFloat.unpack at hu
  by_cases hinf : @unpackExponent .binary64 b = -1#11
  · rw [if_pos hinf] at hu
    by_cases hmantissa : @unpackMantissa .binary64 b = 0#52
    · rw [if_pos hmantissa] at hu
      cases hu
    · rw [if_neg hmantissa] at hu
      cases hu
  · rw [if_neg hinf] at hu
    by_cases hfield : @unpackExponent .binary64 b = 0#11
    · rw [if_pos hfield] at hu
      by_cases hmantissa : @unpackMantissa .binary64 b = 0#52
      · rw [dif_pos hmantissa] at hu
        cases hu
      · rw [dif_neg hmantissa] at hu
        injection hu with _ hm he
        have hlt : (@unpackMantissa .binary64 b).toNat < 2 ^ 52 := (@unpackMantissa .binary64 b).isLt
        have hzero : (BitVec.ofNat Format.binary64.exponentBits 0).toNat = 0 := rfl
        rw [hfield, hbias, hbits, hzero] at he
        omega
    · rw [if_neg hfield] at hu
      injection hu with _ hm he
      have hpos : (@unpackExponent .binary64 b).toNat ≠ 0 := fun h0 =>
        hfield (BitVec.eq_of_toNat_eq h0)
      have hlt : (1#1 ++ @unpackMantissa .binary64 b).toNat < 2 ^ 53 :=
        (1#1 ++ @unpackMantissa .binary64 b).isLt
      rw [hbias, hbits] at he
      omega

/-- Negation neither creates nor destroys a zero. -/
theorem neg_beq_zero (x : Float) : (-x == 0) = (x == 0) := by
  have hzero : (0 : Float).toModel.unpack = .zero .positive := rfl
  show (Float.Model.pack x.toModel.unpack.neg).unpack.beq (0 : Float).toModel.unpack =
    x.toModel.unpack.beq (0 : Float).toModel.unpack
  rw [hzero, beq_zero, beq_zero]
  show isZero (unpack .binary64 (UnpackedFloat.pack .binary64 x.toModel.unpack.neg)) = _
  cases hu : x.toModel.unpack with
  | infinity s => cases s <;> rfl
  | notANumber => rfl
  | zero s => cases s <;> rfl
  | finite s m e h =>
    obtain ⟨hm, he⟩ := bounds_of_unpack hu
    exact isZero_unpack_pack hm he

end Binary64

instance : LawfulNegZero Float := ⟨Binary64.neg_beq_zero⟩

end SparsePoly
