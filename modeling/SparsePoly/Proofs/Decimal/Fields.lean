import SparsePoly.Decimal.Nearest
import SparsePoly.Scalar.Binary64
import Mathlib

/-!
# The fields of a binary64 pattern

A floating-point number is a pattern of a sign, an exponent field and a mantissa field, of which the
last two make up its word (`Binary64.magnitudeWord`). The operations of the language unpack a
pattern and pack it again. This module reads them off the fields instead, and states the results in
terms of sign and word alone.

## Main statements

* `ofWord_magnitudeWord`: sign and word determine the number.
* `HasFields.unpacked`: what a number of a given sign and word unpacks to.
* `isFinite_iff`, `isInf_iff`, `isNaN_iff`: the word tells what kind of number it is.
* `magnitudeWord_abs`, `isNegative_abs`: the magnitude of a number has its word and no sign.
* `beq_zero_iff`, `lt_zero_iff`, `magnitudeWord_of_abs_beq_one`: comparisons with constants.
-/

open Float.Model Float.Model.UnpackedFloat

namespace SparsePoly.Binary64

/-! ## Patterns and their fields -/

/-- The fields of a pattern are its digits to the bases that their widths give. -/
theorem toNat_packComponents (s : Sign) (e : BitVec 11) (m : BitVec 52) :
    (packComponents .binary64 s e m).toNat =
      s.toBitVec.toNat * 2 ^ 63 + e.toNat * 2 ^ 52 + m.toNat := by
  unfold packComponents
  rw [BitVec.toNat_append, BitVec.toNat_append, ← Nat.shiftLeft_add_eq_or_of_lt m.isLt,
    ← Nat.shiftLeft_add_eq_or_of_lt e.isLt, Nat.shiftLeft_eq, Nat.shiftLeft_eq]
  ring

/-- The sign is the first bit of a pattern. -/
theorem toNat_unpackSign (b : BitVec 64) : (@unpackSign .binary64 b).toNat = b.toNat / 2 ^ 63 := by
  unfold unpackSign
  rw [BitVec.toNat_cast, BitVec.extractLsb_toNat, Nat.shiftRight_eq_div_pow]
  have := b.isLt
  simp only
  omega

/-- The exponent field is what stands between the sign and the last 52 bits. -/
theorem toNat_unpackExponent (b : BitVec 64) :
    (@unpackExponent .binary64 b).toNat = b.toNat / 2 ^ 52 % 2 ^ 11 := by
  unfold unpackExponent
  rw [BitVec.toNat_cast, BitVec.extractLsb_toNat, Nat.shiftRight_eq_div_pow]
  rfl

/-- The mantissa field is the last 52 bits. -/
theorem toNat_unpackMantissa (b : BitVec 64) :
    (@unpackMantissa .binary64 b).toNat = b.toNat % 2 ^ 52 := by
  unfold unpackMantissa
  rw [BitVec.toNat_cast, BitVec.extractLsb_toNat, Nat.shiftRight_eq_div_pow]
  simp

theorem toBitVec_ofBitVec (b : BitVec 1) : (Sign.ofBitVec b).toBitVec = b := by
  revert b
  decide

theorem ofBitVec_toBitVec (s : Sign) : Sign.ofBitVec s.toBitVec = s := by
  cases s <;> rfl

/-- Every pattern consists of its fields. -/
theorem eq_packComponents (b : BitVec 64) :
    b = packComponents .binary64 (Sign.ofBitVec (@unpackSign .binary64 b))
      (@unpackExponent .binary64 b) (@unpackMantissa .binary64 b) := by
  refine BitVec.eq_of_toNat_eq ?_
  rw [toNat_packComponents, toBitVec_ofBitVec, toNat_unpackSign, toNat_unpackExponent,
    toNat_unpackMantissa]
  have := b.isLt
  omega

/-- The sign that was packed is unpacked. -/
theorem unpackSign_packComponents (s : Sign) (e : BitVec 11) (m : BitVec 52) :
    unpackSign (packComponents .binary64 s e m) = s.toBitVec := by
  refine BitVec.eq_of_toNat_eq ?_
  rw [toNat_unpackSign, toNat_packComponents]
  have := e.isLt
  have := m.isLt
  have := s.toBitVec.isLt
  omega

/-- What the fields of a pattern stand for. -/
def ofFields (s : Sign) (e : BitVec 11) (m : BitVec 52) : UnpackedFloat :=
  if e = -1#11 then
    if m = 0#52 then .infinity s else .notANumber
  else if e = 0#11 then
    if h : m = 0#52 then .zero s
    else .finite s m.toNat (-1074) (by simpa [BitVec.toNat_pos, BitVec.pos_iff_ne_zero])
  else .finite s (2 ^ 52 + m.toNat) (e.toNat - 1075) (by omega)

/-- Packed fields are unpacked to what they stand for. -/
theorem unpack_packComponents (s : Sign) (e : BitVec 11) (m : BitVec 52) :
    UnpackedFloat.unpack .binary64 (packComponents .binary64 s e m) = ofFields s e m := by
  -- the digit in front of a normal mantissa is not stored, and comes back here
  have himplicit : (1#1 ++ m).toNat = 2 ^ 52 + m.toNat := by
    rw [BitVec.toNat_append, ← Nat.shiftLeft_add_eq_or_of_lt m.isLt]
    rfl
  unfold UnpackedFloat.unpack ofFields
  simp only [unpackMantissa_packComponents, unpackExponent_packComponents,
    unpackSign_packComponents, ofBitVec_toBitVec, himplicit]
  split
  · rfl
  · split
    · rename_i he
      subst he
      rfl
    · rfl

/-- The magnitude loses its sign and keeps the other fields. -/
theorem abs_ofFields (s : Sign) (e : BitVec 11) (m : BitVec 52) :
    (ofFields s e m).abs = ofFields .positive e m := by
  unfold ofFields
  split
  · split <;> rfl
  · split
    · split <;> rfl
    · rfl

/-- Packing gives the fields back, unless they stand for no number. -/
theorem pack_ofFields {s : Sign} {e : BitVec 11} {m : BitVec 52} (h : e = -1#11 → m = 0#52) :
    UnpackedFloat.pack .binary64 (ofFields s e m) = packComponents .binary64 s e m := by
  have hbias : Format.binary64.exponentBias = 1023 := by decide
  have hbits : Format.binary64.mantissaBits = 53 := rfl
  have hpow : (2 : ℕ) ^ (11 : ℕ) = 2048 := by decide
  have hm := m.isLt
  unfold ofFields
  split
  · rename_i he
    subst he
    rw [if_pos (h rfl), h rfl]
    rfl
  · rename_i hinf
    split
    · rename_i he
      subst he
      split
      · rename_i hzero
        subst hzero
        rfl
      · -- a subnormal number keeps its whole mantissa
        rename_i hzero
        have hlog : m.toNat.log2 < 52 :=
          (Nat.log2_lt (by simpa [← BitVec.toNat_inj] using hzero)).2 hm
        unfold UnpackedFloat.pack
        simp only [hbits, hbias, hpow]
        rw [if_neg (by decide), if_neg (by omega), BitVec.ofNat_toNat, BitVec.setWidth_eq]
    · -- a normal number loses the leading bit of its mantissa again
      have he : e.toNat ≠ 2047 := fun he => hinf (BitVec.eq_of_toNat_eq (by simpa using he))
      have hlog : (2 ^ 52 + m.toNat).log2 = 52 := (Nat.log2_eq_iff (by omega)).2 (by omega)
      have hexp : ((e.toNat : ℤ) - 1075 + (1023 : ℕ) + (52 : ℕ)).toNat = e.toNat := by omega
      have := e.isLt
      unfold UnpackedFloat.pack
      simp only [hbits, hbias, hpow, hlog, hexp]
      rw [if_neg (by omega), if_pos (by trivial), BitVec.ofNat_toNat, BitVec.setWidth_eq]
      congr 1
      refine BitVec.eq_of_toNat_eq ?_
      rw [BitVec.toNat_ofNat]
      omega

/-! ## The fields of a number -/

/-- The pattern of `x` has these fields. -/
def HasFields (x : Float) (s : Sign) (e : BitVec 11) (m : BitVec 52) : Prop :=
  x.toBits.toBitVec = packComponents .binary64 s e m

/-- Every number has fields. -/
theorem exists_hasFields (x : Float) : ∃ s e m, HasFields x s e m :=
  ⟨_, _, _, eq_packComponents _⟩

namespace HasFields

variable {x : Float} {s : Sign} {e : BitVec 11} {m : BitVec 52}

/-- The fields tell what a number unpacks to. -/
theorem unpack (h : HasFields x s e m) : x.toModel.unpack = ofFields s e m := by
  rw [← unpack_packComponents, ← h]
  rfl

/-- The pattern of a number by its fields. -/
theorem toNat_toBits (h : HasFields x s e m) :
    x.toBits.toNat = s.toBitVec.toNat * 2 ^ 63 + e.toNat * 2 ^ 52 + m.toNat := by
  rw [← toNat_packComponents, ← h]
  rfl

/-- The word of a number is its pattern without the sign. -/
theorem magnitudeWord_eq (h : HasFields x s e m) :
    magnitudeWord x = e.toNat * 2 ^ 52 + m.toNat := by
  rw [magnitudeWord, h.toNat_toBits]
  have := e.isLt
  have := m.isLt
  omega

/-- A number is negative if its sign is, whatever it stands for. -/
theorem isNegative_iff (h : HasFields x s e m) : isNegative x = true ↔ s = .negative := by
  have := e.isLt
  have := m.isLt
  rw [isNegative, h.toNat_toBits, decide_eq_true_iff]
  cases s with
  | negative => simpa [Sign.toBitVec] using by omega
  | positive => simpa [Sign.toBitVec] using by omega

/-- The greatest exponent field is that of infinity and of all words above. -/
theorem exponent_eq_iff (h : HasFields x s e m) : e = -1#11 ↔ infinityWord ≤ magnitudeWord x := by
  have := e.isLt
  have := m.isLt
  rw [h.magnitudeWord_eq, ← BitVec.toNat_inj]
  simp [infinityWord]
  omega

/-- The mantissa field is what is left of the word modulo `2 ^ 52`. -/
theorem mantissa_eq_zero_iff (h : HasFields x s e m) :
    m = 0#52 ↔ magnitudeWord x % 2 ^ 52 = 0 := by
  have := m.isLt
  rw [h.magnitudeWord_eq, ← BitVec.toNat_inj]
  simpa using by omega

end HasFields

/-- What a number of sign `s` and word `w` unpacks to. -/
inductive Unpacked (s : Sign) (w : ℕ) : UnpackedFloat → Prop where
  /-- The words above that of infinity stand for no number. -/
  | notANumber (hw : infinityWord < w) : Unpacked s w .notANumber
  /-- The word of infinity. -/
  | infinity (hw : w = infinityWord) : Unpacked s w (.infinity s)
  /-- The word of zero. -/
  | zero (hw : w = 0) : Unpacked s w (.zero s)
  /-- The words in between stand for numbers other than zero. -/
  | finite (hpos : 0 < w) (hlt : w < infinityWord) {n : ℕ} {k : ℤ} (hn : 0 < n) :
    Unpacked s w (.finite s n k hn)

/-- The word tells what kind of number it is. -/
theorem HasFields.unpacked {x : Float} {s : Sign} {e : BitVec 11} {m : BitVec 52}
    (h : HasFields x s e m) : Unpacked s (magnitudeWord x) x.toModel.unpack := by
  have hword := h.magnitudeWord_eq
  have hm := m.isLt
  -- the exponent field sets infinity and NaN apart, and the mantissa field one from the other
  have hinf : e = -1#11 ↔ infinityWord ≤ magnitudeWord x := h.exponent_eq_iff
  rw [h.unpack]
  unfold ofFields
  split
  · rename_i he
    have hle := hinf.1 he
    split
    · -- the mantissa of infinity is zero
      rename_i hzero
      rw [h.mantissa_eq_zero_iff] at hzero
      refine .infinity ?_
      unfold infinityWord at hle ⊢
      have := e.isLt
      omega
    · rename_i hzero
      rw [h.mantissa_eq_zero_iff] at hzero
      refine .notANumber ?_
      unfold infinityWord at hle ⊢
      omega
  · rename_i he
    have hlt : magnitudeWord x < infinityWord := Nat.not_le.1 fun hle => he (hinf.2 hle)
    split
    · rename_i hsub
      split
      · rename_i hzero
        refine .zero ?_
        rw [hword, hsub, hzero]
        rfl
      · rename_i hzero
        refine .finite ?_ hlt _
        have hpos : m.toNat ≠ 0 := fun h0 => hzero (BitVec.eq_of_toNat_eq h0)
        omega
    · rename_i hnormal
      refine .finite ?_ hlt _
      have hpos : e.toNat ≠ 0 := fun h0 => hnormal (BitVec.eq_of_toNat_eq h0)
      omega

/-- The fields of a number other than zero give its mantissa and its exponent: the exponent field of a
normal number stands for an implicit digit as well. -/
theorem HasFields.finite_cases {x : Float} {s t : Sign} {e : BitVec 11} {m : BitVec 52}
    (h : HasFields x s e m) {n : ℕ} {k : ℤ} {hn : 0 < n} (hx : x.toModel.unpack = .finite t n k hn) :
    e.toNat = 0 ∧ n = m.toNat ∧ k = -1074 ∨
      0 < e.toNat ∧ n = 2 ^ 52 + m.toNat ∧ k = e.toNat - 1075 := by
  rw [h.unpack, ofFields] at hx
  split at hx
  · split at hx <;> cases hx
  · split at hx
    · split at hx
      · cases hx
      · rename_i hsub _
        cases hx
        exact Or.inl ⟨congrArg BitVec.toNat hsub, rfl, rfl⟩
    · rename_i hnormal
      cases hx
      have hpos : e.toNat ≠ 0 := fun h0 => hnormal (BitVec.eq_of_toNat_eq h0)
      exact Or.inr ⟨Nat.pos_of_ne_zero hpos, rfl, rfl⟩

/-- The words of finite numbers are those below infinity. -/
theorem isFinite_iff (x : Float) : x.isFinite = true ↔ magnitudeWord x < infinityWord := by
  obtain ⟨s, e, m, h⟩ := exists_hasFields x
  show x.toModel.unpack.isFinite = true ↔ _
  have hu := h.unpacked
  generalize x.toModel.unpack = u at hu
  cases hu with
  | notANumber hw => exact iff_of_false Bool.false_ne_true (by omega)
  | infinity hw => exact iff_of_false Bool.false_ne_true (by omega)
  | zero hw => exact iff_of_true rfl (by rw [hw]; decide)
  | finite hpos hlt hn => exact iff_of_true rfl hlt

/-- The word of infinity is the only one. -/
theorem isInf_iff (x : Float) : x.isInf = true ↔ magnitudeWord x = infinityWord := by
  obtain ⟨s, e, m, h⟩ := exists_hasFields x
  show x.toModel.unpack.isInf = true ↔ _
  have hu := h.unpacked
  generalize x.toModel.unpack = u at hu
  cases hu with
  | notANumber hw => exact iff_of_false Bool.false_ne_true hw.ne'
  | infinity hw => exact iff_of_true rfl hw
  | zero hw => exact iff_of_false Bool.false_ne_true (by rw [hw]; decide)
  | finite hpos hlt hn => exact iff_of_false Bool.false_ne_true hlt.ne

/-- The words above infinity stand for no number. -/
theorem isNaN_iff (x : Float) : x.isNaN = true ↔ infinityWord < magnitudeWord x := by
  obtain ⟨s, e, m, h⟩ := exists_hasFields x
  show x.toModel.unpack.isNaN = true ↔ _
  have hu := h.unpacked
  generalize x.toModel.unpack = u at hu
  cases hu with
  | notANumber hw => exact iff_of_true rfl hw
  | infinity hw => exact iff_of_false Bool.false_ne_true (by omega)
  | zero hw => exact iff_of_false Bool.false_ne_true (by rw [hw]; exact Nat.not_lt_zero _)
  | finite hpos hlt hn => exact iff_of_false Bool.false_ne_true (by omega)

/-- A finite number is not NaN. -/
theorem isNaN_eq_false_of_isFinite {x : Float} (hx : x.isFinite = true) : x.isNaN = false := by
  rw [← Bool.not_eq_true, isNaN_iff]
  have := (isFinite_iff x).1 hx
  omega

/-- A finite number is not infinite. -/
theorem isInf_eq_false_of_isFinite {x : Float} (hx : x.isFinite = true) : x.isInf = false := by
  rw [← Bool.not_eq_true, isInf_iff]
  have := (isFinite_iff x).1 hx
  omega

theorem isNaN_eq_false_of_isInf {x : Float} (hx : x.isInf = true) : x.isNaN = false := by
  rw [← Bool.not_eq_true, isNaN_iff, (isInf_iff x).1 hx]
  exact Nat.lt_irrefl _

/-! ## Sign and word determine a number -/

/-- Numbers with the same pattern are equal. -/
theorem ext_toBits {x y : Float} (h : x.toBits.toBitVec = y.toBits.toBitVec) : x = y := by
  obtain ⟨⟨b, hb⟩⟩ := x
  obtain ⟨⟨c, hc⟩⟩ := y
  obtain rfl : b = c := UInt64.toBitVec_inj.1 h
  rfl

/-- NaN unpacks to NaN, which has no fields of its own. -/
theorem unpack_of_isNaN {x : Float} (hx : x.isNaN = true) : x.toModel.unpack = .notANumber := by
  obtain ⟨s, e, m, h⟩ := exists_hasFields x
  rw [isNaN_iff] at hx
  have hu := h.unpacked
  generalize x.toModel.unpack = u at hu
  cases hu with
  | notANumber _ => rfl
  | infinity hw => omega
  | zero hw => omega
  | finite _ hlt _ => omega

/-- There is one pattern for what is not a number. -/
theorem toBits_of_isNaN {x : Float} (hx : x.isNaN = true) :
    x.toBits.toBitVec = packedNaN .binary64 := by
  obtain ⟨s, e, m, h⟩ := exists_hasFields x
  have hword := (isNaN_iff x).1 hx
  have hm : m ≠ 0#52 := by
    rw [Ne, h.mantissa_eq_zero_iff]
    rw [h.magnitudeWord_eq, infinityWord] at *
    have := e.isLt
    omega
  -- a number carries a proof that no other pattern stands for NaN
  refine x.toModel.valid.eq_packedNaN ?_ ?_
  · show @unpackExponent .binary64 x.toBits.toBitVec = _
    rw [h, unpackExponent_packComponents, h.exponent_eq_iff]
    exact hword.le
  · show @unpackMantissa .binary64 x.toBits.toBitVec ≠ _
    rwa [h, unpackMantissa_packComponents]

/-- There is one NaN. -/
theorem eq_of_isNaN {x y : Float} (hx : x.isNaN = true) (hy : y.isNaN = true) : x = y :=
  ext_toBits ((toBits_of_isNaN hx).trans (toBits_of_isNaN hy).symm)

/-- The fields of a number can be packed with any sign. -/
theorem HasFields.pack {x : Float} {s : Sign} {e : BitVec 11} {m : BitVec 52}
    (h : HasFields x s e m) (hx : x.isNaN = false) (s' : Sign) :
    HasFields (Float.ofModel (Float.Model.pack (ofFields s' e m))) s' e m := by
  refine pack_ofFields fun he => ?_
  have hle := h.exponent_eq_iff.1 he
  have hnan : ¬ infinityWord < magnitudeWord x := by
    rw [← isNaN_iff, hx]
    exact Bool.false_ne_true
  rw [h.mantissa_eq_zero_iff, Nat.le_antisymm (Nat.not_lt.1 hnan) hle]
  rfl

/-- The pattern of a number stands for that number. -/
theorem ofBits_toBits (x : Float) : Float.ofBits x.toBits = x := by
  refine ext_toBits ?_
  -- reading a pattern packs it again, which keeps the fields of a number and the one pattern of NaN
  cases hx : x.isNaN with
  | true =>
    have hpack : (Float.ofBits x.toBits).toBits.toBitVec =
        UnpackedFloat.pack .binary64 x.toModel.unpack := rfl
    rw [hpack, unpack_of_isNaN hx, toBits_of_isNaN hx]
    rfl
  | false =>
    obtain ⟨s, e, m, h⟩ := exists_hasFields x
    rw [h, ← h.pack hx s, ← h.unpack]
    rfl

/-- A number is that of its sign and its word. -/
theorem ofWord_magnitudeWord (x : Float) : ofWord (isNegative x) (magnitudeWord x) = x := by
  have hbits : UInt64.ofNat (if isNegative x then 2 ^ 63 + magnitudeWord x else magnitudeWord x) =
      x.toBits := by
    refine UInt64.toNat_inj.1 ?_
    have := x.toBits.toNat_lt
    rw [UInt64.toNat_ofNat']
    unfold isNegative magnitudeWord
    simp only [decide_eq_true_eq]
    split <;> omega
  rw [ofWord, hbits, ofBits_toBits]

/-! ## Magnitudes and comparisons -/

/-- The magnitude of a number has a positive sign and its other fields. -/
theorem HasFields.abs {x : Float} {s : Sign} {e : BitVec 11} {m : BitVec 52}
    (h : HasFields x s e m) (hx : x.isNaN = false) : HasFields x.abs .positive e m := by
  have habs := h.pack hx .positive
  rwa [← abs_ofFields s e m, ← h.unpack] at habs

/-- The magnitude of a number has its word. -/
theorem magnitudeWord_abs {x : Float} (hx : x.isNaN = false) :
    magnitudeWord x.abs = magnitudeWord x := by
  obtain ⟨s, e, m, h⟩ := exists_hasFields x
  rw [(h.abs hx).magnitudeWord_eq, h.magnitudeWord_eq]

/-- The magnitude of a number has no sign. -/
theorem isNegative_abs {x : Float} (hx : x.isNaN = false) : isNegative x.abs = false := by
  obtain ⟨s, e, m, h⟩ := exists_hasFields x
  rw [← Bool.not_eq_true, (h.abs hx).isNegative_iff]
  exact Sign.noConfusion

/-- NaN has no magnitude apart from itself. -/
theorem abs_of_isNaN {x : Float} (hx : x.isNaN = true) : x.abs = x := by
  refine ext_toBits ?_
  rw [toBits_of_isNaN hx]
  show UnpackedFloat.pack .binary64 x.toModel.unpack.abs = _
  rw [unpack_of_isNaN hx]
  rfl

/-- A number equals zero if its word is zero. -/
theorem beq_zero_iff (x : Float) : (x == 0) = true ↔ magnitudeWord x = 0 := by
  obtain ⟨s, e, m, h⟩ := exists_hasFields x
  show x.toModel.unpack.beq (.zero .positive) = true ↔ _
  rw [beq_zero]
  have hu := h.unpacked
  generalize x.toModel.unpack = u at hu
  cases hu with
  | notANumber hw => exact iff_of_false Bool.false_ne_true (by omega)
  | infinity hw => exact iff_of_false Bool.false_ne_true (by rw [hw]; decide)
  | zero hw => exact iff_of_true rfl hw
  | finite hpos hlt hn => exact iff_of_false Bool.false_ne_true hpos.ne'

/-- A number other than zero is negative if its sign is. -/
theorem lt_zero_iff {x : Float} (hx : x.isNaN = false) (h0 : (x == 0) = false) :
    x < 0 ↔ isNegative x = true := by
  obtain ⟨s, e, m, h⟩ := exists_hasFields x
  rw [← Bool.not_eq_true, isNaN_iff] at hx
  rw [← Bool.not_eq_true, beq_zero_iff] at h0
  rw [h.isNegative_iff]
  show decide (x.toModel.unpack.lt (.zero .positive) = true) = true ↔ _
  rw [decide_eq_true_iff]
  have hu := h.unpacked
  generalize x.toModel.unpack = u at hu
  cases hu with
  | notANumber hw => exact absurd hw hx
  | infinity hw => cases s <;> simp [UnpackedFloat.lt, UnpackedFloat.compare]
  | zero hw => exact absurd hw h0
  | finite hpos hlt hn => cases s <;> simp [UnpackedFloat.lt, UnpackedFloat.compare]

/-- What compares equal to a positive number is that number. -/
theorem eq_of_beq_finite {u : UnpackedFloat} {m : ℕ} {k : ℤ} {hm : 0 < m}
    (h : u.beq (.finite .positive m k hm) = true) : u = .finite .positive m k hm := by
  have hcompare := eq_of_beq h
  rcases u with s | _ | s | ⟨s, n, j, hn⟩
  · cases s <;> simp [UnpackedFloat.compare] at hcompare
  · simp [UnpackedFloat.compare] at hcompare
  · simp [UnpackedFloat.compare] at hcompare
  · cases s with
    | negative => simp [UnpackedFloat.compare] at hcompare
    | positive =>
      simp only [UnpackedFloat.compare, Option.some.injEq, Ordering.then_eq_eq,
        compare_eq_iff_eq] at hcompare
      obtain ⟨rfl, rfl⟩ := hcompare
      rfl

/-- What has the magnitude one has its word. -/
theorem magnitudeWord_of_abs_beq_one {x : Float} (h : (x.abs == 1) = true) :
    magnitudeWord x = magnitudeWord 1 := by
  have hunpack : x.abs.toModel.unpack = .finite .positive (2 ^ 52) (-52) (by decide) :=
    eq_of_beq_finite h
  have hx : x.isNaN = false := by
    rw [← Bool.not_eq_true]
    intro hx
    rw [abs_of_isNaN hx, unpack_of_isNaN hx] at hunpack
    cases hunpack
  have hone : magnitudeWord 1 = 1023 * 2 ^ 52 := rfl
  obtain ⟨s, e, m, hfields⟩ := exists_hasFields x
  rw [(hfields.abs hx).unpack, ofFields] at hunpack
  rw [hfields.magnitudeWord_eq, hone]
  -- of all fields only those of a normal number stand for one
  split at hunpack
  · split at hunpack <;> cases hunpack
  · split at hunpack
    · split at hunpack
      · cases hunpack
      · injection hunpack
        omega
    · injection hunpack
      omega

end SparsePoly.Binary64
