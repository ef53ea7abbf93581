import SparsePoly.Grid
import SparsePoly.Scalar.Binary64
import Mathlib

/-!
# How zeros, infinities and NaN spread

What a calculation with floating-point numbers does to numbers that are not finite, and to zeros, hangs
on the kinds of its operands alone.

* A sum or a product with an operand that is not finite is not finite either, so a whole sum is not
  finite if one of its summands is not (`not_isFinite_sum`).
* Numbers compare equal if both are zeros or if they are the same (`unpacked_beq_iff`).
* The difference of numbers that compare equal is zero or NaN (`zeroOrNaN_sub`). A product with such a
  factor is zero or NaN again, whatever the other factors are (`ZeroOrNaN.mul`), and the reciprocal of
  zero or NaN is not finite (`not_isFinite_one_div`).

Both carry over from one operation to a fold (`foldl_of_absorbing`).

The operations unpack their operands and pack their result. Packing rounds finite numbers only
(`unpack_pack_of_not_isFinite`, `unpack_pack_zero`), so the statements are read off the unpacked numbers
case by case.
-/

open Float.Model Float.Model.UnpackedFloat

namespace SparsePoly.Binary64

/-- What the operation of a fold never loses is true of the whole fold once it is true of the start
or of one of the operands. -/
theorem foldl_of_absorbing {α ι : Type*} {P : α → Prop} {Q : ι → Prop} {op : α → ι → α}
    (hop : ∀ {a i}, P a ∨ Q i → P (op a i)) {is : List ι} {a : α} (h : P a ∨ ∃ i ∈ is, Q i) :
    P (is.foldl op a) := by
  -- on the operands: once the property holds of what has accumulated, it holds to the end
  induction is generalizing a with
  | nil => simpa using h
  | cons i is ih =>
    apply ih
    rcases h with h | ⟨j, hj, h⟩
    · exact Or.inl (hop (Or.inl h))
    · rcases List.mem_cons.1 hj with rfl | hj
      · exact Or.inl (hop (Or.inr h))
      · exact Or.inr ⟨j, hj, h⟩

/-! ## Packing -/

/-- Infinities and NaN are packed as they are. -/
theorem unpack_pack_of_not_isFinite {u : UnpackedFloat} (hu : u.isFinite = false) :
    (Float.Model.pack u).unpack = u := by
  cases u with
  | infinity s => cases s <;> rfl
  | notANumber => rfl
  | zero s => cases hu
  | finite s m e hm => cases hu

/-- Zeros are packed as they are. -/
theorem unpack_pack_zero (s : Sign) : (Float.Model.pack (.zero s)).unpack = .zero s := by
  cases s <;> rfl

/-! ## Numbers that are not finite -/

/-- What is not finite is infinite or NaN. -/
theorem isInf_or_isNaN_of_not_isFinite {x : Float} (hx : x.isFinite = false) :
    x.isInf = true ∨ x.isNaN = true := by
  change x.toModel.unpack.isFinite = false at hx
  change x.toModel.unpack.isInf = true ∨ x.toModel.unpack.isNaN = true
  cases hu : x.toModel.unpack with
  | infinity s => exact Or.inl rfl
  | notANumber => exact Or.inr rfl
  | zero s => rw [hu] at hx; cases hx
  | finite s m e hm => rw [hu] at hx; cases hx

/-- Only finite numbers equal zero. -/
theorem beq_zero_of_not_isFinite {x : Float} (hx : x.isFinite = false) : (x == 0) = false := by
  change x.toModel.unpack.isFinite = false at hx
  change x.toModel.unpack.beq (.zero .positive) = false
  rw [beq_zero]
  cases hu : x.toModel.unpack with
  | infinity s => rfl
  | notANumber => rfl
  | zero s => rw [hu] at hx; cases hx
  | finite s m e hm => rfl

/-- A sum with a summand that is not finite is not finite. -/
theorem not_isFinite_add {x y : Float} (h : x.isFinite = false ∨ y.isFinite = false) :
    (x + y).isFinite = false := by
  change x.toModel.unpack.isFinite = false ∨ y.toModel.unpack.isFinite = false at h
  suffices hsum : (UnpackedFloat.add .binary64 x.toModel.unpack y.toModel.unpack).isFinite = false by
    exact (congrArg UnpackedFloat.isFinite (unpack_pack_of_not_isFinite hsum)).trans hsum
  generalize x.toModel.unpack = u at h ⊢
  generalize y.toModel.unpack = v at h ⊢
  cases u with
  | notANumber => rfl
  | infinity s =>
    cases v with
    | infinity s' =>
      -- opposite infinities add up to NaN
      cases s <;> cases s' <;> rfl
    | notANumber | zero _ | finite _ _ _ _ => rfl
  | zero s | finite s m e hm =>
    cases v with
    | notANumber | infinity _ => rfl
    | zero _ | finite _ _ _ _ => simp [UnpackedFloat.isFinite] at h

/-- A product with a factor that is not finite is not finite. -/
theorem not_isFinite_mul {x y : Float} (h : x.isFinite = false ∨ y.isFinite = false) :
    (x * y).isFinite = false := by
  change x.toModel.unpack.isFinite = false ∨ y.toModel.unpack.isFinite = false at h
  suffices hprod : (UnpackedFloat.mul .binary64 x.toModel.unpack y.toModel.unpack).isFinite = false by
    exact (congrArg UnpackedFloat.isFinite (unpack_pack_of_not_isFinite hprod)).trans hprod
  generalize x.toModel.unpack = u at h ⊢
  generalize y.toModel.unpack = v at h ⊢
  cases u with
  | notANumber => rfl
  | infinity s => cases v <;> rfl
  | zero s | finite s m e hm =>
    cases v with
    | notANumber | infinity _ => rfl
    | zero _ | finite _ _ _ _ => simp [UnpackedFloat.isFinite] at h

/-- One summand that is not finite is enough. -/
theorem not_isFinite_sum {xs : List Float} {x : Float} (hx : x ∈ xs) (h : x.isFinite = false) :
    (Grid.sum xs).isFinite = false :=
  foldl_of_absorbing (P := fun x : Float => x.isFinite = false) not_isFinite_add
    (Or.inr ⟨x, hx, h⟩)

/-! ## Comparison for equality -/

/-- Unpacked numbers compare equal if both are zeros, or if they are the same and not NaN. -/
theorem unpacked_beq_iff {u v : UnpackedFloat} :
    u.beq v = true ↔ (∃ s s', u = .zero s ∧ v = .zero s') ∨ u = v ∧ u ≠ .notANumber := by
  constructor
  · intro h
    -- the comparison goes by the kinds of the two numbers and by their signs
    have hcompare := eq_of_beq h
    rcases u with s | _ | s | ⟨s, m, e, hm⟩ <;> rcases v with s' | _ | s' | ⟨s', m', e', hm'⟩ <;>
      try cases s <;> cases s'
    all_goals simp_all [UnpackedFloat.compare]
  · rintro (⟨s, s', rfl, rfl⟩ | ⟨rfl, hnan⟩)
    · rfl
    · cases u with
      | notANumber => exact absurd rfl hnan
      | infinity s => cases s <;> rfl
      | zero s => rfl
      | finite s m e hm => cases s <;> simp [UnpackedFloat.beq, UnpackedFloat.compare]

/-- Comparison for equality is symmetric. -/
theorem beq_comm (x y : Float) : (x == y) = (y == x) := by
  change x.toModel.unpack.beq y.toModel.unpack = y.toModel.unpack.beq x.toModel.unpack
  rw [Bool.eq_iff_iff, unpacked_beq_iff, unpacked_beq_iff]
  constructor
  · rintro (⟨s, s', hx, hy⟩ | ⟨hxy, hnan⟩)
    · exact Or.inl ⟨s', s, hy, hx⟩
    · exact Or.inr ⟨hxy.symm, hxy ▸ hnan⟩
  · rintro (⟨s, s', hy, hx⟩ | ⟨hyx, hnan⟩)
    · exact Or.inl ⟨s', s, hx, hy⟩
    · exact Or.inr ⟨hyx.symm, hyx ▸ hnan⟩

/-! ## Zero or NaN -/

/-- The number equals zero or is NaN. -/
def ZeroOrNaN (x : Float) : Prop := (x == 0) = true ∨ x.isNaN = true

/-- Zero or NaN is a matter of the kind of the unpacked number. -/
theorem zeroOrNaN_iff {x : Float} :
    ZeroOrNaN x ↔ (∃ s, x.toModel.unpack = .zero s) ∨ x.toModel.unpack = .notANumber := by
  change x.toModel.unpack.beq (.zero .positive) = true ∨ x.toModel.unpack.isNaN = true ↔ _
  rw [beq_zero]
  cases x.toModel.unpack <;> simp [isZero, UnpackedFloat.isNaN]

/-- A finite number that is zero or NaN is zero. -/
theorem ZeroOrNaN.beq_zero {x : Float} (h : ZeroOrNaN x) (hx : x.isFinite = true) : (x == 0) = true := by
  rcases h with h | h
  · exact h
  · change x.toModel.unpack.isFinite = true at hx
    change x.toModel.unpack.isNaN = true at h
    cases hu : x.toModel.unpack with
    | notANumber => rw [hu] at hx; cases hx
    | infinity _ | zero _ | finite _ _ _ _ => rw [hu] at h; cases h

/-- What is packed from a zero or from NaN is zero or NaN. -/
theorem zeroOrNaN_of_pack {x : Float} {u : UnpackedFloat} (hx : x.toModel = Float.Model.pack u)
    (hu : (∃ s, u = .zero s) ∨ u = .notANumber) : ZeroOrNaN x := by
  rw [zeroOrNaN_iff, hx]
  rcases hu with ⟨s, rfl⟩ | rfl
  · exact Or.inl ⟨s, unpack_pack_zero s⟩
  · exact Or.inr (unpack_pack_of_not_isFinite rfl)

/-- Numbers that compare equal differ by zero, or by NaN if they are infinite. -/
theorem zeroOrNaN_sub {x y : Float} (h : (x == y) = true) : ZeroOrNaN (x - y) := by
  apply zeroOrNaN_of_pack (u := UnpackedFloat.sub .binary64 x.toModel.unpack y.toModel.unpack) rfl
  change x.toModel.unpack.beq y.toModel.unpack = true at h
  generalize x.toModel.unpack = u at h ⊢
  generalize y.toModel.unpack = v at h ⊢
  -- two zeros differ by a zero, and so do equal finite numbers, but equal infinities by NaN
  rcases unpacked_beq_iff.1 h with ⟨s, s', rfl, rfl⟩ | ⟨rfl, -⟩
  · cases s <;> cases s' <;> exact Or.inl ⟨_, rfl⟩
  · cases u with
    | notANumber => exact Or.inr rfl
    | infinity s => cases s <;> exact Or.inr rfl
    | zero s => cases s <;> exact Or.inl ⟨_, rfl⟩
    | finite s m e hm =>
      refine Or.inl ⟨.positive, ?_⟩
      simp [UnpackedFloat.sub, UnpackedFloat.normalize]

/-- Zero or NaN times any number is zero or NaN. -/
theorem ZeroOrNaN.mul {x y : Float} (h : ZeroOrNaN x ∨ ZeroOrNaN y) : ZeroOrNaN (x * y) := by
  apply zeroOrNaN_of_pack (u := UnpackedFloat.mul .binary64 x.toModel.unpack y.toModel.unpack) rfl
  rw [zeroOrNaN_iff, zeroOrNaN_iff] at h
  generalize x.toModel.unpack = u at h ⊢
  generalize y.toModel.unpack = v at h ⊢
  cases u <;> cases v <;> simp [UnpackedFloat.mul] at h ⊢

/-- A single factor that is zero or NaN spoils the product. -/
theorem zeroOrNaN_foldl_mul {ι : Type*} {f : ι → Float} {is : List ι} {d : Float}
    (h : ZeroOrNaN d ∨ ∃ i ∈ is, ZeroOrNaN (f i)) :
    ZeroOrNaN (is.foldl (fun d i => d * f i) d) :=
  foldl_of_absorbing (P := ZeroOrNaN) (Q := fun i => ZeroOrNaN (f i)) (fun h => ZeroOrNaN.mul h) h

/-- The reciprocal of zero is infinite, and that of NaN is NaN. -/
theorem not_isFinite_one_div {x : Float} (h : ZeroOrNaN x) : (1 / x).isFinite = false := by
  suffices hdiv : (UnpackedFloat.div .binary64 (.finite .positive (2 ^ 52) (-52) (by decide))
      x.toModel.unpack).isFinite = false from
    (congrArg UnpackedFloat.isFinite (unpack_pack_of_not_isFinite hdiv)).trans hdiv
  rcases zeroOrNaN_iff.1 h with ⟨s, hzero⟩ | hnan
  · rw [hzero]
    rfl
  · rw [hnan]
    rfl

end SparsePoly.Binary64
