import SparsePoly.Decimal.Numeral
import SparsePoly.Poly.Render
import SparsePoly.Proofs.Decimal.Fields
import SparsePoly.Proofs.Decimal.Nearest

/-!
# Positional numerals

A finite number is written without an exponent, as digits that may have a point among them. This
module reads such a text as a numeral: first the digits (`unsigned?_positional`), then the number
(`toFloat_unsigned?_float_abs`), which comes out bit for bit.
-/

namespace SparsePoly

namespace Numeral

/-! ## Digits with and without a point -/

/-- What is in the class comes first, and the rest begins where the class ends. -/
theorem takeWhile_append_of_all {α : Type*} {p : α → Bool} {xs : List α} (ys : List α)
    (hxs : ∀ x ∈ xs, p x) (hys : ∀ y ∈ ys.head?, ¬ p y) :
    (xs ++ ys).takeWhile p = xs ∧ (xs ++ ys).dropWhile p = ys := by
  rw [List.takeWhile_append_of_pos hxs, List.dropWhile_append_of_pos hxs]
  cases ys with
  | nil => simp
  | cons y ys =>
    have hy := hys y rfl
    rw [List.takeWhile_cons_of_neg hy, List.dropWhile_cons_of_neg hy, List.append_nil]
    exact ⟨rfl, rfl⟩

/-- Digits without a point, whatever comes behind them. -/
theorem unsigned?_digits_append {ds es : List Char} (hds : ∀ c ∈ ds, c.isDigit)
    (hes : ∀ c ∈ es.head?, ¬ c.isDigit ∧ c ≠ '.') :
    unsigned? (ds ++ es) =
      if ds = [] then none
      else (scale? es).map fun e => .trim (Nat.ofDigitChars 10 ds 0) e := by
  obtain ⟨htake, hdrop⟩ := takeWhile_append_of_all es hds fun c hc => (hes c hc).1
  have hpoint : ¬ es.head? = some '.' := fun h => (hes '.' h).2 rfl
  simp only [unsigned?, htake, hdrop, if_neg hpoint, List.append_nil, List.length_nil,
    Nat.cast_zero, sub_zero]

/-- Digits with a point among them, whatever comes behind them. -/
theorem unsigned?_point_append {whole fraction es : List Char} (hwhole : ∀ c ∈ whole, c.isDigit)
    (hfraction : ∀ c ∈ fraction, c.isDigit) (hes : ∀ c ∈ es.head?, ¬ c.isDigit) :
    unsigned? (whole ++ '.' :: (fraction ++ es)) =
      if whole ++ fraction = [] then none
      else (scale? es).map fun e =>
        .trim (Nat.ofDigitChars 10 (whole ++ fraction) 0) (e - fraction.length) := by
  obtain ⟨htake, hdrop⟩ := takeWhile_append_of_all ('.' :: (fraction ++ es)) hwhole (by simp)
  obtain ⟨htake', hdrop'⟩ := takeWhile_append_of_all es hfraction hes
  simp only [unsigned?, htake, hdrop, List.head?_cons, if_true, List.tail_cons, htake', hdrop']

/-- Digits alone are read as a whole number. -/
theorem unsigned?_digits {ds : List Char} (hne : ds ≠ []) (hds : ∀ c ∈ ds, c.isDigit) :
    unsigned? ds = some (.trim (Nat.ofDigitChars 10 ds 0) 0) := by
  rw [← List.append_nil ds, unsigned?_digits_append hds (by simp), if_neg hne, List.append_nil]
  rfl

/-- Digits with a point among them are read with as many places behind it. -/
theorem unsigned?_point {whole fraction : List Char} (hne : whole ++ fraction ≠ [])
    (hwhole : ∀ c ∈ whole, c.isDigit) (hfraction : ∀ c ∈ fraction, c.isDigit) :
    unsigned? (whole ++ '.' :: fraction) =
      some (.trim (Nat.ofDigitChars 10 (whole ++ fraction) 0) (-fraction.length)) := by
  have h := @unsigned?_point_append whole fraction [] hwhole hfraction (by simp)
  rwa [List.append_nil, if_neg hne, scale?, Option.map_some, zero_sub] at h

/-! ## The layout without an exponent -/

/-- Zeros in front of the digits of a number are digits as well. -/
theorem isDigit_of_mem_replicate_append {n m : ℕ} {c : Char}
    (hc : c ∈ List.replicate n '0' ++ Nat.toDigits 10 m) : c.isDigit := by
  rcases List.mem_append.1 hc with hc | hc
  · rw [List.eq_of_mem_replicate hc]
    rfl
  · exact Nat.isDigit_of_mem_toDigits (by decide) (by decide) hc

/-- A decimal without trailing zeros, written without an exponent, is read as it was. -/
theorem unsigned?_positional {d : Decimal} (hd : .trim d.digits d.exponent = d) :
    unsigned? (Layout.positional false (Nat.toDigits 10 d.digits) d.exponent) = some d := by
  unfold Layout.positional
  split
  · -- the exponent is written as zeros behind the digits, which are trimmed again
    rename_i h
    rw [if_neg Bool.false_ne_true, List.append_nil, unsigned?_digits, Nat.ofDigitChars_append,
      Nat.ofDigitChars_replicate_zero, Nat.ofDigitChars_ten_toDigits, mul_comm,
      Decimal.trim_mul_pow, zero_add, Int.toNat_of_nonneg h, hd]
    · simp [Nat.toDigits_ne_nil]
    · intro c hc
      exact isDigit_of_mem_replicate_append (List.mem_append.2 (List.mem_append.1 hc).symm)
  · -- zeros are put in front until the point has a digit before it, and they add nothing
    rename_i h
    simp only
    set digits := Nat.toDigits 10 d.digits with hdigits
    set places := (-d.exponent).toNat
    set padded := List.replicate (places + 1 - digits.length) '0' ++ digits with hpadded
    have hlength : places + 1 ≤ padded.length := by
      simp only [hpadded, List.length_append, List.length_replicate]
      omega
    have hall : ∀ c ∈ padded, c.isDigit := fun c hc => isDigit_of_mem_replicate_append hc
    have hexponent : (-((padded.length - (padded.length - places) : ℕ) : ℤ)) = d.exponent := by
      omega
    rw [unsigned?_point, List.take_append_drop, List.length_drop, hexponent, hpadded,
      Nat.ofDigitChars_append, Nat.ofDigitChars_replicate_zero, mul_zero, hdigits,
      Nat.ofDigitChars_ten_toDigits, hd]
    · rw [List.take_append_drop]
      exact List.ne_nil_of_length_pos (by omega)
    · exact fun c hc => hall c (List.mem_of_mem_take hc)
    · exact fun c hc => hall c (List.mem_of_mem_drop hc)

end Numeral

/-! ## The text of a coefficient -/

open Binary64 Numeral

/-- A finite coefficient is written without an exponent. -/
theorem float_abs_eq_positional {x : Float} (hfin : x.isFinite = true) :
    coefficientLayout.float x.abs =
      Layout.positional false (Nat.toDigits 10 (shortest (magnitudeWord x)).digits)
        (shortest (magnitudeWord x)).exponent := by
  have hnan := isNaN_eq_false_of_isFinite hfin
  have hword := magnitudeWord_abs hnan
  have habs : x.abs.isFinite = true := by
    rw [isFinite_iff, hword]
    exact (isFinite_iff x).1 hfin
  rw [Layout.float, isNegative_abs hnan, Bool.false_and, if_neg Bool.false_ne_true,
    Layout.magnitude, isNaN_eq_false_of_isFinite habs, isInf_eq_false_of_isFinite habs,
    if_neg Bool.false_ne_true, if_neg Bool.false_ne_true, hword]
  rfl

/-- The text of the magnitude of a coefficient stands for its word. -/
theorem toFloat_unsigned?_float_abs {x : Float} (hfin : x.isFinite = true) (negative : Bool) :
    (unsigned? (coefficientLayout.float x.abs)).map (Decimal.toFloat negative) =
      some (ofWord negative (magnitudeWord x)) := by
  rw [float_abs_eq_positional hfin, unsigned?_positional (trim_shortest _), Option.map_some,
    Decimal.toFloat, nearestWord_shortest ((isFinite_iff x).1 hfin)]

/-- NaN is written in letters. -/
theorem float_abs_of_isNaN {x : Float} (hnan : x.isNaN = true) :
    coefficientLayout.float x.abs = ['N', 'a', 'N'] := by
  rw [abs_of_isNaN hnan, Layout.float, Layout.magnitude, hnan]
  simp

/-- The magnitude of an infinity is written in letters. -/
theorem float_abs_of_isInf {x : Float} (hinf : x.isInf = true) :
    coefficientLayout.float x.abs = ['i', 'n', 'f'] := by
  have hnan := isNaN_eq_false_of_isInf hinf
  have habs : x.abs.isInf = true := by
    rw [isInf_iff, magnitudeWord_abs hnan]
    exact (isInf_iff x).1 hinf
  rw [Layout.float, isNegative_abs hnan, Layout.magnitude, isNaN_eq_false_of_isInf habs, habs]
  simp

/-- A coefficient that is not finite is written in letters. -/
theorem float_abs_of_not_isFinite {x : Float} (hfin : ¬ x.isFinite = true) :
    coefficientLayout.float x.abs = ['N', 'a', 'N'] ∨
      coefficientLayout.float x.abs = ['i', 'n', 'f'] := by
  cases hnan : x.isNaN with
  | true => exact Or.inl (float_abs_of_isNaN hnan)
  | false =>
    refine Or.inr (float_abs_of_isInf ((isInf_iff x).2 ?_))
    rw [isFinite_iff, Nat.not_lt] at hfin
    rw [← Bool.not_eq_true, isNaN_iff, Nat.not_lt] at hnan
    exact Nat.le_antisymm hnan hfin

end SparsePoly
