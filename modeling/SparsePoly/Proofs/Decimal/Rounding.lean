import SparsePoly.Decimal.Nearest
import Mathlib.Algebra.Order.Field.Rat
import Mathlib.Data.Int.Log
import Mathlib.Tactic

/-!
# Correct rounding

Values are rational numbers here: `Decimal.value` of a decimal and `Binary64.wordValue` of a word. The
word of infinity takes part in the comparison, with the value `2 ^ 1024` that its fields would have.

A word is the correct rounding of a value if no other word is nearer to it, and if it is even in the
case that another one is as near (`Binary64.IsNearest`). There is one such word
(`Binary64.IsNearest.unique`), and the word of a quotient or of a decimal is the one
(`Binary64.isNearest_nearestWord`, `Decimal.isNearest_nearestWord`).

The values of words ascend strictly, so of all words only the two around a value matter
(`Binary64.isNearest_of_between`). They are `k * 2 ^ 52 + m` and its successor, where `m` counts the
units that fit into the value and the unit is the power of two of `k`. The value of such a sum is
`m` units even if `m` has outgrown the significand (`Binary64.wordValue_add`).
-/

namespace SparsePoly

/-- The value of a decimal. -/
def Decimal.value (d : Decimal) : ℚ := d.digits * 10 ^ d.exponent

namespace Binary64

/-- The value of the magnitude that a word stands for. -/
def wordValue (w : ℕ) : ℚ := significand w * 2 ^ unit w

/-! ## The values of words ascend -/

/-- The value of a word by its units, of which there may be up to `2 ^ 53`. -/
theorem wordValue_add {k m : ℕ} (hk : k = 0 ∨ 2 ^ 52 ≤ m) (hm : m ≤ 2 ^ 53) :
    wordValue (k * 2 ^ 52 + m) = m * 2 ^ (leastUnit + k) := by
  rcases hm.lt_or_eq with hlt | rfl
  · have hsig : significand (k * 2 ^ 52 + m) = m := by
      unfold significand
      split <;> omega
    have hunit : unit (k * 2 ^ 52 + m) = leastUnit + k := by
      unfold unit
      split <;> omega
    rw [wordValue, hsig, hunit]
  · -- all ones have carried over into the next binade
    have hsig : significand (k * 2 ^ 52 + 2 ^ 53) = 2 ^ 52 := by
      unfold significand
      split <;> omega
    have hunit : unit (k * 2 ^ 52 + 2 ^ 53) = leastUnit + k + 1 := by
      unfold unit
      split <;> omega
    rw [wordValue, hsig, hunit, zpow_add_one₀ (by norm_num)]
    push_cast
    ring

/-- Every word counts the units of its value: those in its significand, on top of the binades below.
-/
theorem exists_eq_add (w : ℕ) :
    ∃ k m, (k = 0 ∨ 2 ^ 52 ≤ m) ∧ m < 2 ^ 53 ∧ w = k * 2 ^ 52 + m := by
  rcases Nat.lt_or_ge w (2 ^ 52) with hw | hw
  · exact ⟨0, w, by omega, by omega, by omega⟩
  · exact ⟨w / 2 ^ 52 - 1, 2 ^ 52 + w % 2 ^ 52, by omega, by omega, by omega⟩

/-- A greater word has a greater value. -/
theorem wordValue_strictMono : StrictMono wordValue := by
  apply strictMono_nat_of_lt_succ
  intro w
  -- from one word to the next the value grows by a unit, also across binades
  obtain ⟨k, m, hk, hm, rfl⟩ := exists_eq_add w
  rw [add_assoc, wordValue_add hk hm.le, wordValue_add (by omega) hm]
  gcongr
  omega

theorem wordValue_zero : wordValue 0 = 0 := by
  simp [wordValue, significand]

/-- The least word other than zero has the least magnitude. -/
theorem wordValue_one : wordValue 1 = 2 ^ (-1074 : ℤ) := by
  simpa [leastUnit] using wordValue_add (k := 0) (m := 1) (Or.inl rfl) (by norm_num)

/-- The word of infinity counts as the power of two that its fields would give. -/
theorem wordValue_infinityWord : wordValue infinityWord = 2 ^ (1024 : ℤ) := by
  have h := wordValue_add (k := 2046) (m := 2 ^ 52) (Or.inr le_rfl) (by norm_num)
  rw [show 2046 * 2 ^ 52 + 2 ^ 52 = infinityWord by decide] at h
  rw [h, Nat.cast_pow, Nat.cast_ofNat, ← zpow_natCast, ← zpow_add₀ (by norm_num)]
  rfl

/-! ## Nearest words -/

/-- The word `w` is the nearest to `v`. If another one is as near, it is the even one of them. -/
structure IsNearest (v : ℚ) (w : ℕ) : Prop where
  /-- It is the word of a magnitude, which may be infinite. -/
  le_infinityWord : w ≤ infinityWord
  /-- No word is nearer. -/
  dist_le : ∀ u ≤ infinityWord, |v - wordValue w| ≤ |v - wordValue u|
  /-- A tie goes to the even word. -/
  even_of_tie : ∀ u ≤ infinityWord, u ≠ w → |v - wordValue u| = |v - wordValue w| → w % 2 = 0

/-- One of the two words around a value is the nearest if it is no farther than the other. -/
theorem isNearest_of_between {v : ℚ} {a w : ℕ} (hlo : wordValue a ≤ v) (hhi : v ≤ wordValue (a + 1))
    (hw : w ≤ infinityWord) (hbelow : |v - wordValue w| ≤ v - wordValue a)
    (habove : |v - wordValue w| ≤ wordValue (a + 1) - v)
    (htie : v - wordValue a = wordValue (a + 1) - v → w % 2 = 0) : IsNearest v w := by
  -- every word lies on one side, and is no nearer than the one next to the value there
  have hside : ∀ u, u ≤ a ∧ |v - wordValue u| = v - wordValue u ∧ v - wordValue a ≤ v - wordValue u ∨
      a + 1 ≤ u ∧ |v - wordValue u| = wordValue u - v ∧ wordValue (a + 1) - v ≤ wordValue u - v := by
    intro u
    rcases Nat.lt_or_ge a u with hu | hu
    · have hle := wordValue_strictMono.monotone (Nat.succ_le_of_lt hu)
      refine Or.inr ⟨hu, ?_, sub_le_sub_right hle v⟩
      rw [abs_sub_comm, abs_of_nonneg (sub_nonneg.2 (hhi.trans hle))]
    · have hle := wordValue_strictMono.monotone hu
      refine Or.inl ⟨hu, ?_, sub_le_sub_left hle v⟩
      rw [abs_of_nonneg (sub_nonneg.2 (hle.trans hlo))]
  refine ⟨hw, fun u _ => ?_, fun u _ hne heq => ?_⟩
  · rcases hside u with ⟨-, hdist, hle⟩ | ⟨-, hdist, hle⟩
    · exact hbelow.trans (hle.trans hdist.ge)
    · exact habove.trans (hle.trans hdist.ge)
  · -- another word that is as near is the other one of the two, and both are in the same distance
    apply htie
    rcases hside u with ⟨hu, hdist, hle⟩ | ⟨hu, hdist, hle⟩
    · have hua : wordValue u = wordValue a := by linarith
      have hwa : a < w := by
        rcases hside w with ⟨hwle, hwdist, -⟩ | ⟨hwle, -, -⟩
        · exact absurd (wordValue_strictMono.injective (by linarith)) hne
        · exact hwle
      rcases hside w with ⟨hwle, -, -⟩ | ⟨-, hwdist, hwle⟩
      · omega
      · linarith
    · have hua : wordValue u = wordValue (a + 1) := by linarith
      rcases hside w with ⟨-, hwdist, hwle⟩ | ⟨hwle, hwdist, -⟩
      · linarith
      · exact absurd (wordValue_strictMono.injective (by linarith)) hne

/-- A value that is not below infinity is rounded to it. -/
theorem isNearest_infinityWord {v : ℚ} (hv : wordValue infinityWord ≤ v) :
    IsNearest v infinityWord := by
  refine ⟨le_rfl, fun u hu => ?_, fun _ _ _ _ => rfl⟩
  have hle := wordValue_strictMono.monotone hu
  rw [abs_of_nonneg (sub_nonneg.2 hv), abs_of_nonneg (sub_nonneg.2 (hle.trans hv))]
  exact sub_le_sub_left hle v

/-- A word is the nearest to its own value. -/
theorem isNearest_wordValue {w : ℕ} (hw : w ≤ infinityWord) : IsNearest (wordValue w) w := by
  refine ⟨hw, fun u _ => ?_, fun u _ hne heq => ?_⟩
  · rw [sub_self, abs_zero]
    exact abs_nonneg _
  · rw [sub_self, abs_zero, abs_eq_zero, sub_eq_zero] at heq
    exact absurd (wordValue_strictMono.injective heq).symm hne

/-- A value has one nearest word. -/
theorem IsNearest.unique {v : ℚ} {w u : ℕ} (hw : IsNearest v w) (hu : IsNearest v u) : w = u := by
  wlog hlt : w < u generalizing w u
  · rcases Nat.lt_trichotomy w u with h | h | h
    · exact this hw hu h
    · exact h
    · exact (this hu hw h).symm
  -- both are even, so there is a word between them, which would be nearer
  have heq := le_antisymm (hw.dist_le u hu.le_infinityWord) (hu.dist_le w hw.le_infinityWord)
  have hweven := hw.even_of_tie u hu.le_infinityWord hlt.ne' heq.symm
  have hueven := hu.even_of_tie w hw.le_infinityWord hlt.ne heq
  have hbetween := hw.dist_le (w + 1) (by have := hu.le_infinityWord; omega)
  have hlo : wordValue w < wordValue (w + 1) := wordValue_strictMono (by omega)
  have hhi : wordValue (w + 1) < wordValue u := wordValue_strictMono (by omega)
  have hdist : v - wordValue w = -(v - wordValue u) := by
    rcases abs_eq_abs.1 heq with h | h
    · linarith
    · exact h
  have hnear : |v - wordValue (w + 1)| < |v - wordValue w| := by
    rw [abs_of_nonneg (a := v - wordValue w) (by linarith), abs_lt]
    constructor
    · linarith
    · linarith
  exact absurd hbetween (not_le.2 hnear)

/-- A number is the correct rounding of a magnitude with a sign. A zero has a sign as well. -/
def IsRounded (negative : Bool) (v : ℚ) (x : Float) : Prop :=
  ∃ w, IsNearest v w ∧ x = ofWord negative w

/-- A magnitude with a sign has one correct rounding. -/
theorem IsRounded.unique {negative : Bool} {v : ℚ} {x y : Float} (hx : IsRounded negative v x)
    (hy : IsRounded negative v y) : x = y := by
  obtain ⟨w, hw, rfl⟩ := hx
  obtain ⟨u, hu, rfl⟩ := hy
  rw [hw.unique hu]

/-! ## Rounding a quotient -/

/-- A power with an integer exponent is a fraction of powers, one of which is one. -/
theorem zpow_eq_div (b : ℚ) (hb : b ≠ 0) (k : ℤ) : b ^ k = b ^ k.toNat / b ^ (-k).toNat := by
  rw [eq_div_iff (pow_ne_zero _ hb), ← zpow_natCast, ← zpow_natCast, ← zpow_add₀ hb]
  congr 1
  omega

/-- A quotient is compared with a power of two by whole numbers alone. -/
theorem div_lt_zpow_iff {num den : ℕ} (hden : 0 < den) (k : ℤ) :
    num * 2 ^ (-k).toNat < den * 2 ^ k.toNat ↔ (num / den : ℚ) < 2 ^ k := by
  have hden' : (0 : ℚ) < den := by exact_mod_cast hden
  rw [zpow_eq_div 2 (by norm_num), div_lt_div_iff₀ hden' (by positivity), mul_comm (2 ^ _) (den : ℚ)]
  exact_mod_cast Iff.rfl

/-- The place of the leading bit of a quotient, told by the powers of two around it. -/
theorem floorLog2_eq {num den : ℕ} {k : ℤ} (hnum : 0 < num) (hden : 0 < den)
    (hle : (2 : ℚ) ^ k ≤ num / den) (hlt : (num / den : ℚ) < 2 ^ (k + 1)) :
    floorLog2 num den = k := by
  have hnum' : (0 : ℚ) < num := by exact_mod_cast hnum
  have hden' : (0 : ℚ) < den := by exact_mod_cast hden
  have hnlo : (2 : ℚ) ^ (num.log2 : ℤ) ≤ num := by exact_mod_cast Nat.log2_self_le hnum.ne'
  have hnhi : (num : ℚ) < 2 ^ (num.log2 + 1 : ℤ) := by exact_mod_cast Nat.lt_log2_self
  have hdlo : (2 : ℚ) ^ (den.log2 : ℤ) ≤ den := by exact_mod_cast Nat.log2_self_le hden.ne'
  have hdhi : (den : ℚ) < 2 ^ (den.log2 + 1 : ℤ) := by exact_mod_cast Nat.lt_log2_self
  have lt_of_zpow : ∀ {i j : ℤ}, (2 : ℚ) ^ i < 2 ^ j → i < j := fun h =>
    (zpow_lt_zpow_iff_right₀ (by norm_num)).1 h
  -- the quotient lies in one of the two binades around the difference of the logarithms
  have hlower : (2 : ℚ) ^ ((num.log2 : ℤ) - den.log2 - 1) < num / den := by
    rw [lt_div_iff₀ hden', sub_sub, zpow_sub₀ (by norm_num), div_mul_eq_mul_div,
      div_lt_iff₀ (by positivity)]
    exact mul_lt_mul' hnlo hdhi hden'.le hnum'
  have hupper : (num / den : ℚ) < 2 ^ ((num.log2 : ℤ) - den.log2 + 1) := by
    rw [div_lt_iff₀ hden', sub_add_eq_add_sub, zpow_sub₀ (by norm_num), div_mul_eq_mul_div,
      lt_div_iff₀ (by positivity)]
    exact mul_lt_mul hnhi hdlo (by positivity) (by positivity)
  -- the comparison decides between the two binades
  unfold floorLog2
  simp only [div_lt_zpow_iff hden]
  split
  · rename_i h
    have := lt_of_zpow (hle.trans_lt h)
    have := lt_of_zpow (hlower.trans hlt)
    omega
  · rename_i h
    have := lt_of_zpow ((not_lt.1 h).trans_lt hlt)
    have := lt_of_zpow (hle.trans_lt hupper)
    omega

/-- The binary logarithm of a positive quotient is the place of its leading bit. -/
theorem floorLog2_spec {num den : ℕ} (hnum : 0 < num) (hden : 0 < den) :
    (2 : ℚ) ^ floorLog2 num den ≤ num / den ∧ (num / den : ℚ) < 2 ^ (floorLog2 num den + 1) := by
  have hpos : (0 : ℚ) < num / den := div_pos (by exact_mod_cast hnum) (by exact_mod_cast hden)
  have hle := Int.zpow_log_le_self (b := 2) (by norm_num) hpos
  have hlt := Int.lt_zpow_succ_log_self (b := 2) (by norm_num) (num / den : ℚ)
  rw [floorLog2_eq hnum hden hle hlt]
  exact ⟨hle, hlt⟩

/-- Rounding a quotient goes to the whole number below or above it, whichever is nearer, or to the
even one. -/
theorem roundQuotient_cases (num : ℕ) {den : ℕ} (hden : 0 < den) :
    (roundQuotient num den = num / den ∧ 2 * (num % den) ≤ den ∧
        (2 * (num % den) = den → num / den % 2 = 0)) ∨
      (roundQuotient num den = num / den + 1 ∧ den ≤ 2 * (num % den) ∧
        (2 * (num % den) = den → (num / den + 1) % 2 = 0)) := by
  have := Nat.mod_lt num hden
  unfold roundQuotient
  simp only
  split <;> omega

/-- Of the two multiples of a unit around a quotient, the word of the rounded one is the nearest. -/
theorem isNearest_roundQuotient {num den k : ℕ} (hden : 0 < den)
    (hk : k = 0 ∨ 2 ^ 52 ≤ num / den) (hlt : num / den < 2 ^ 53) :
    IsNearest (num / den * 2 ^ (leastUnit + k))
      (min infinityWord (k * 2 ^ 52 + roundQuotient num den)) := by
  have hden' : (0 : ℚ) < den := by exact_mod_cast hden
  set u : ℚ := 2 ^ (leastUnit + k)
  set f : ℚ := (num % den : ℕ) / den with hf
  have hu : 0 < u := by positivity
  have hquotient : (num / den : ℚ) = (num / den : ℕ) + f := by
    have hnum : (num : ℚ) = den * (num / den : ℕ) + (num % den : ℕ) := by
      exact_mod_cast (Nat.div_add_mod num den).symm
    rw [hf, hnum]
    field_simp
  -- the distances to the word below and to the word above are a fraction of the unit and the rest
  have hbelow : num / den * u - wordValue (k * 2 ^ 52 + num / den) = f * u := by
    rw [wordValue_add hk hlt.le, hquotient]
    ring
  have habove : wordValue (k * 2 ^ 52 + num / den + 1) - num / den * u = (1 - f) * u := by
    rw [add_assoc, wordValue_add (by omega) hlt, hquotient]
    push_cast
    ring
  have hf0 : 0 ≤ f := by positivity
  have hf1 : f < 1 := by
    rw [hf, div_lt_one hden']
    exact_mod_cast Nat.mod_lt num hden
  have hlo : wordValue (k * 2 ^ 52 + num / den) ≤ num / den * u := by nlinarith
  have hhi : num / den * u ≤ wordValue (k * 2 ^ 52 + num / den + 1) := by nlinarith
  -- a tie means that the rest is half of the divisor
  have htie : f * u = (1 - f) * u → 2 * (num % den) = den := by
    intro h
    have hhalf : 2 * f = 1 := by linarith [mul_right_cancel₀ hu.ne' h]
    rw [hf, ← mul_div_assoc, div_eq_one_iff_eq hden'.ne'] at hhalf
    exact_mod_cast hhalf
  rcases Nat.lt_or_ge infinityWord (k * 2 ^ 52 + roundQuotient num den) with hinf | hfin
  · -- what is rounded up beyond infinity is not below it
    rw [min_eq_left hinf.le]
    refine isNearest_infinityWord (le_trans (wordValue_strictMono.monotone ?_) hlo)
    rcases roundQuotient_cases num hden with ⟨h, -⟩ | ⟨h, -⟩ <;> omega
  · rw [min_eq_right hfin]
    rcases roundQuotient_cases num hden with ⟨hround, hle, heven⟩ | ⟨hround, hle, heven⟩
    · have hhalf : f ≤ 1 - f := by
        have : (2 * (num % den : ℕ) : ℚ) ≤ den := by exact_mod_cast hle
        linarith [(div_le_one hden').2 this, mul_div_assoc (2 : ℚ) (num % den : ℕ) den]
      rw [hround] at hfin ⊢
      refine isNearest_of_between hlo hhi hfin ?_ ?_ fun h => ?_
      · rw [hbelow, abs_of_nonneg (by positivity)]
      · rw [hbelow, habove, abs_of_nonneg (by positivity)]
        gcongr
      · rw [hbelow, habove] at h
        have := heven (htie h)
        omega
    · have hhalf : 1 - f ≤ f := by
        have : (den : ℚ) ≤ 2 * (num % den : ℕ) := by exact_mod_cast hle
        linarith [(one_le_div hden').2 this, mul_div_assoc (2 : ℚ) (num % den : ℕ) den]
      have hrest : 0 ≤ (1 - f) * u := mul_nonneg (by linarith) hu.le
      rw [hround, ← add_assoc] at hfin ⊢
      refine isNearest_of_between hlo hhi hfin ?_ ?_ fun h => ?_
      · rw [abs_sub_comm, hbelow, habove, abs_of_nonneg hrest]
        gcongr
      · rw [abs_sub_comm, habove, abs_of_nonneg hrest]
      · rw [hbelow, habove] at h
        have := heven (htie h)
        omega

/-- A positive quotient is rounded correctly. -/
theorem isNearest_nearestWord {num den : ℕ} (hnum : 0 < num) (hden : 0 < den) :
    IsNearest (num / den) (nearestWord num den) := by
  obtain ⟨hle, hlt⟩ := floorLog2_spec hnum hden
  unfold nearestWord
  set u := max leastUnit (floorLog2 num den - 52) with hu
  simp only
  set n := num * 2 ^ (-u).toNat with hn
  set d := den * 2 ^ u.toNat with hd
  have hdpos : 0 < d := by positivity
  have hpow : (0 : ℚ) < 2 ^ u := by positivity
  have hk : leastUnit + ((u - leastUnit).toNat : ℤ) = u := by omega
  -- the quotient by its unit is the quotient that is rounded
  have hscale : (n / d : ℚ) * 2 ^ u = num / den := by
    rw [hn, hd, zpow_eq_div 2 (by norm_num) u]
    push_cast
    field_simp
  have hquotient : (n / d : ℚ) = num / den / 2 ^ u := by
    rw [← hscale, mul_div_cancel_right₀ _ hpow.ne']
  have htop : (n / d : ℚ) < 2 ^ 53 := by
    rw [hquotient, div_lt_iff₀ hpow, ← zpow_natCast, ← zpow_add₀ (by norm_num)]
    exact hlt.trans_le (zpow_le_zpow_right₀ (by norm_num) (by push_cast; omega))
  -- the statement about the multiple of a unit, with the unit that was chosen
  suffices hround : IsNearest (n / d * 2 ^ (leastUnit + ((u - leastUnit).toNat : ℤ)))
      (min infinityWord ((u - leastUnit).toNat * 2 ^ 52 + roundQuotient n d)) by
    rwa [hk, hscale] at hround
  apply isNearest_roundQuotient hdpos
  · -- above the least unit, the leading bit is in the place of the implicit one
    rcases eq_or_ne u leastUnit with hleast | hleast
    · left
      omega
    · right
      have huge : u = floorLog2 num den - 52 := by omega
      have hbottom : (2 : ℚ) ^ 52 ≤ n / d := by
        rw [hquotient, le_div_iff₀ hpow, ← zpow_natCast, ← zpow_add₀ (by norm_num)]
        refine (zpow_le_zpow_right₀ (by norm_num) ?_).trans hle
        push_cast
        omega
      rw [Nat.le_div_iff_mul_le hdpos]
      rw [le_div_iff₀ (by exact_mod_cast hdpos)] at hbottom
      exact_mod_cast hbottom
  · rw [Nat.div_lt_iff_lt_mul hdpos]
    rw [div_lt_iff₀ (by exact_mod_cast hdpos)] at htop
    exact_mod_cast htop

end Binary64

namespace Decimal

open Binary64

/-! ## Rounding a decimal -/

/-- Exponents that are too small leave less than half of the least magnitude. -/
theorem value_lt_of_exponent_lt {d : Decimal} (hd : d.exponent < -(325 + (d.digits.log2 : ℤ))) :
    d.value < 10 ^ (-325 : ℤ) := by
  have hhi : (d.digits : ℚ) < 10 ^ (d.digits.log2 + 1 : ℤ) := by
    exact_mod_cast Nat.lt_log2_self.trans_le (Nat.pow_le_pow_left (by norm_num) _)
  calc d.value < 10 ^ (d.digits.log2 + 1 : ℤ) * 10 ^ (-(326 + (d.digits.log2 : ℤ))) := by
        refine mul_lt_mul hhi ?_ (by positivity) (by positivity)
        exact zpow_le_zpow_right₀ (by norm_num) (by omega)
    _ = 10 ^ (-325 : ℤ) := by
        rw [← zpow_add₀ (by norm_num)]
        congr 1
        ring

/-- What is below half of the least magnitude is rounded to zero. -/
theorem isNearest_zero {v : ℚ} (h0 : 0 ≤ v) (hv : v ≤ 10 ^ (-325 : ℤ)) : IsNearest v 0 := by
  have hhalf : (10 : ℚ) ^ (-325 : ℤ) ≤ 2 ^ (-1075 : ℤ) := by
    rw [zpow_neg, zpow_neg]
    refine inv_anti₀ (by positivity) ?_
    exact_mod_cast (by decide +kernel : 2 ^ 1075 ≤ 10 ^ 325)
  have hleast : wordValue (0 + 1) = 2 ^ (-1075 : ℤ) * 2 := by
    rw [zero_add, wordValue_one, ← zpow_add_one₀ (by norm_num)]
    norm_num
  refine isNearest_of_between (a := 0) ?_ ?_ (Nat.zero_le _) ?_ ?_ fun _ => rfl
  · rwa [wordValue_zero]
  · linarith
  · rw [wordValue_zero, sub_zero, abs_of_nonneg h0]
  · rw [wordValue_zero, sub_zero, abs_of_nonneg h0]
    linarith

/-- A decimal is rounded correctly, also if its exponent settles it without a division. -/
theorem isNearest_nearestWord (d : Decimal) : IsNearest d.value d.nearestWord := by
  unfold nearestWord
  split
  · rename_i h0
    have hvalue : d.value = 0 := by simp [value, h0]
    rw [hvalue]
    exact isNearest_zero le_rfl (by positivity)
  · rename_i h0
    have hone : (1 : ℚ) ≤ d.digits := by exact_mod_cast Nat.pos_of_ne_zero h0
    split
    · rename_i hexponent
      refine isNearest_infinityWord ?_
      calc wordValue infinityWord = 2 ^ (1024 : ℤ) := wordValue_infinityWord
        _ ≤ 10 ^ (309 : ℤ) := by exact_mod_cast (by decide +kernel : 2 ^ 1024 ≤ 10 ^ 309)
        _ ≤ 1 * 10 ^ d.exponent := by
            rw [one_mul]
            exact zpow_le_zpow_right₀ (by norm_num) hexponent
        _ ≤ d.value := by
            unfold value
            gcongr
    · split
      · rename_i hexponent
        refine isNearest_zero ?_ (value_lt_of_exponent_lt hexponent).le
        unfold value
        positivity
      · have hquotient : d.value =
            (d.digits * 10 ^ d.exponent.toNat : ℕ) / (10 ^ (-d.exponent).toNat : ℕ) := by
          rw [value, zpow_eq_div 10 (by norm_num)]
          push_cast
          ring
        rw [hquotient]
        exact Binary64.isNearest_nearestWord (by positivity) (by positivity)

/-- A decimal with a sign is read as its correct rounding. -/
theorem isRounded_toFloat (negative : Bool) (d : Decimal) :
    IsRounded negative d.value (d.toFloat negative) :=
  ⟨_, d.isNearest_nearestWord, rfl⟩

end Decimal

end SparsePoly
