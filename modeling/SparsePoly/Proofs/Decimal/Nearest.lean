import SparsePoly.Decimal.Shortest
import SparsePoly.Proofs.Decimal.Rounding

/-!
# Reading back the shortest decimal

The decimal that is chosen for a word reads back as that word. If a point of one of the grids was
chosen, this was checked in choosing it. Otherwise the exact value of the word is written out, and
rounding leaves it as it is, because a word is the nearest to its own value.

## Main statements

* `Decimal.nearestWord_eq`: a decimal with the value of a word is rounded to that word.
* `Binary64.nearestWord_shortest`: the shortest decimal of a word reads back as the word.
* `Binary64.trim_shortest`: it has no trailing zeros.
-/

namespace SparsePoly

namespace Decimal

/-! ## Trailing zeros -/

/-- Taking off trailing zeros does not change the value. -/
theorem value_trim (n : ℕ) (k : ℤ) : (trim n k).value = n * 10 ^ k := by
  -- on the zeros: each that is taken off the digits goes into the exponent
  fun_induction trim n k with
  | case1 => simp [value]
  | case2 n k h0 h10 ih =>
    rw [ih, zpow_add_one₀ (by norm_num)]
    have hn : (n : ℚ) = (n / 10 : ℕ) * 10 := by
      exact_mod_cast (Nat.div_mul_cancel (Nat.dvd_of_mod_eq_zero h10)).symm
    rw [hn]
    ring
  | case3 => rfl

/-- Trailing zeros do not matter. -/
theorem trim_mul_pow (n j : ℕ) (k : ℤ) : trim (n * 10 ^ j) k = trim n (k + j) := by
  induction j generalizing k with
  | zero => simp
  | succ j ih =>
    rw [trim]
    split
    · rename_i h
      obtain rfl : n = 0 := by
        rcases Nat.mul_eq_zero.1 h with h | h
        · exact h
        · exact absurd h (Nat.pos_iff_ne_zero.1 (by positivity))
      rw [trim]
      rfl
    · rw [if_pos (by rw [pow_succ, ← mul_assoc, Nat.mul_mod_left]), pow_succ, ← mul_assoc,
        Nat.mul_div_cancel _ (by norm_num), ih]
      congr 1
      push_cast
      ring

/-- A decimal that was trimmed has no trailing zeros left. -/
theorem trim_trim (n : ℕ) (k : ℤ) : trim (trim n k).digits (trim n k).exponent = trim n k := by
  fun_induction trim n k with
  | case1 => rw [trim]; rfl
  | case2 n k h0 h10 ih => exact ih
  | case3 n k h0 h10 => rw [trim, if_neg h0, if_neg h10]

open Binary64

/-- A decimal with the value of a word is read as that word. -/
theorem nearestWord_eq {d : Decimal} {w : ℕ} (hw : w ≤ infinityWord) (h : d.value = wordValue w) :
    d.nearestWord = w := by
  have hword := isNearest_nearestWord d
  rw [h] at hword
  exact hword.unique (isNearest_wordValue hw)

end Decimal

namespace Binary64

/-! ## The decimals that may be chosen -/

/-- The exact decimal of a word has the value of the word. -/
theorem value_exactDecimal (w : ℕ) : (exactDecimal w).value = wordValue w := by
  unfold exactDecimal
  split
  · rename_i h
    rw [Decimal.value_trim, zpow_zero, mul_one, numerator, wordValue, zpow_eq_div 2 (by norm_num),
      show (-unit w).toNat = 0 by omega]
    push_cast
    ring
  · -- a negative power of two is a power of five over a power of ten
    rename_i h
    rw [Decimal.value_trim, wordValue, zpow_eq_div 2 (by norm_num), zpow_eq_div 10 (by norm_num),
      show (unit w).toNat = 0 by omega, show (10 : ℚ) = 2 * 5 by norm_num]
    simp only [mul_pow]
    push_cast
    field_simp

/-- A neighbour on a grid is trimmed, and it is only picked if it reads back. -/
theorem nearestAt_eq_some {w : ℕ} {place : ℤ} {d : Decimal} (h : nearestAt w place = some d) :
    d.nearestWord = w ∧ ∃ n, d = .trim n place := by
  simp only [nearestAt] at h
  split at h
  · rename_i hbelow
    split at h
    · rename_i habove
      cases h
      exact ⟨habove.1, _, rfl⟩
    · cases h
      exact ⟨hbelow, _, rfl⟩
  · split at h
    · rename_i habove
      cases h
      exact ⟨habove, _, rfl⟩
    · cases h

/-- The shortest decimal is a neighbour on some grid, or the exact value. -/
theorem shortest_cases (w : ℕ) :
    (∃ place, nearestAt w place = some (shortest w)) ∨ shortest w = exactDecimal w := by
  unfold shortest
  simp only
  -- the grids are tried from the coarsest on, and the first neighbour that reads back is taken
  cases hfind : (List.range 17).findSome? fun (n : ℕ) =>
      nearestAt w (leadingPlace (numerator w) (denominator w) - n) with
  | none => exact Or.inr rfl
  | some d =>
    obtain ⟨n, -, hn⟩ := List.exists_of_findSome?_eq_some hfind
    exact Or.inl ⟨_, hn⟩

/-- The shortest decimal of a finite magnitude reads back. -/
theorem nearestWord_shortest {w : ℕ} (hfin : w < infinityWord) : (shortest w).nearestWord = w := by
  rcases shortest_cases w with ⟨place, h⟩ | h
  · exact (nearestAt_eq_some h).1
  · rw [h]
    exact Decimal.nearestWord_eq hfin.le (value_exactDecimal w)

/-- The shortest decimal has no trailing zeros. -/
theorem trim_shortest (w : ℕ) :
    Decimal.trim (shortest w).digits (shortest w).exponent = shortest w := by
  rcases shortest_cases w with ⟨place, h⟩ | h
  · obtain ⟨-, n, hn⟩ := nearestAt_eq_some h
    rw [hn, Decimal.trim_trim]
  · rw [h, exactDecimal]
    split <;> exact Decimal.trim_trim _ _

end Binary64

end SparsePoly
