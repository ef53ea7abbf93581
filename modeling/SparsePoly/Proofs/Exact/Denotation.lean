import Mathlib.Algebra.Polynomial.BigOperators
import SparsePoly.Poly.Calculus
import SparsePoly.Poly.Coefficient

/-!
# Polynomials over a field

With coefficients in a field, where sums, products and powers are exact, a polynomial as a list of
terms stands for a polynomial in the usual sense (`Poly.toPolynomial`).

## Main statements

* `coeff_toPolynomial`: both have the same coefficients.
* `toPolynomial_injective`: polynomials that stand for the same one have the same terms.
* `toPolynomial_ofTerms`: what is built term by term stands for the sum of the terms, although terms
  that cancel are dropped.
* `eval_toPolynomial`: both have the same values.
* `degree_toPolynomial_lt_iff`: both have the same degree.
-/

open Polynomial

namespace SparsePoly

variable {K : Type*} [Field K]

/-! ## Exact powers -/

/-- In a field, an exponent is a multiple of one, and every power is exact. -/
instance (priority := low) : ExponentScalar K where
  ofExponent e := (e.toNat : K)
  largePower x e := x ^ e.toNat

/-- Squaring and multiplying gives the power, on top of the factor that it starts from. -/
theorem squareMultiply_eq (acc x : K) (n : ℕ) : squareMultiply acc x n = acc * x ^ n := by
  fun_induction squareMultiply acc x n with
  | case1 acc x n acc' hn =>
    obtain rfl | rfl : n = 0 ∨ n = 1 := by omega
    · simp [acc']
    · simp [acc']
  | case2 acc x n acc' hn ih =>
    -- the last bit of the exponent decides about a factor, and the others about a power of the
    -- square
    have hsplit : x ^ n = x ^ (n % 2) * (x * x) ^ (n / 2) := by
      rw [← pow_two, ← pow_mul, ← pow_add, Nat.mod_add_div]
    rw [ih, hsplit, ← mul_assoc]
    rcases Nat.mod_two_eq_zero_or_one n with h | h
    · simp [acc', h]
    · simp [acc', h]

/-- A power is exact, whether it comes from squaring or from the library. -/
theorem power_eq (x : K) (e : UInt32) : power x e = x ^ e.toNat := by
  unfold power
  split
  · rw [squareMultiply_eq, one_mul]
  · rfl

/-! ## Lists of terms -/

namespace TermList

/-- The sum of some terms. -/
noncomputable def toPolynomial (ts : List (Term K)) : K[X] :=
  (ts.map fun t => monomial t.exponent.toNat t.coefficient).sum

@[simp] theorem toPolynomial_nil : toPolynomial ([] : List (Term K)) = 0 := rfl

@[simp] theorem toPolynomial_cons (t : Term K) (ts : List (Term K)) :
    toPolynomial (t :: ts) = monomial t.exponent.toNat t.coefficient + toPolynomial ts := by
  simp [toPolynomial]

/-- The coefficients of the sum of some terms with ascending exponents are those that the terms
have. -/
theorem coeff_toPolynomial {ts : List (Term K)}
    (hts : ts.Pairwise fun t u => t.exponent < u.exponent) (e : UInt32) :
    (toPolynomial ts).coeff e.toNat = (coefficient? e ts).getD 0 := by
  induction ts with
  | nil => rfl
  | cons t ts ih =>
    obtain ⟨hhead, htail⟩ := List.pairwise_cons.1 hts
    rw [toPolynomial_cons, coeff_add, coeff_monomial, ih htail, coefficient?_cons]
    by_cases ht : t.exponent = e
    · -- no later term has the exponent of the first
      rw [if_pos (congrArg UInt32.toNat ht), if_pos ht, coefficient?_eq_none_of_lt (ht ▸ hhead)]
      exact add_zero _
    · rw [if_neg (fun h => ht (UInt32.toNat_inj.1 h)), if_neg ht, zero_add]

/-- The sum of some terms has no coefficient beyond the range of exponents. -/
theorem coeff_toPolynomial_of_le (ts : List (Term K)) {n : ℕ} (hn : 2 ^ 32 ≤ n) :
    (toPolynomial ts).coeff n = 0 := by
  induction ts with
  | nil => rfl
  | cons t ts ih =>
    have ht : t.exponent.toNat ≠ n := by
      have := t.exponent.toNat_lt
      omega
    rw [toPolynomial_cons, coeff_add, coeff_monomial, if_neg ht, ih, zero_add]

/-- The value of the sum of some terms is the sum of their values. -/
theorem eval_toPolynomial (ts : List (Term K)) (x : K) :
    (toPolynomial ts).eval x = (ts.map fun t => t.eval x).sum := by
  induction ts with
  | nil => simp
  | cons t ts ih =>
    rw [toPolynomial_cons, eval_add, eval_monomial, ih, List.map_cons, List.sum_cons, Term.eval,
      power_eq]

variable [DecidableEq K]

/-- A term that is put in front adds to the sum, also where it is left out for being zero. -/
theorem toPolynomial_consNonzero (e : UInt32) (c : K) (ts : List (Term K)) :
    toPolynomial (consNonzero e c ts) = monomial e.toNat c + toPolynomial ts := by
  unfold consNonzero
  split
  · rename_i hc
    rw [eq_of_beq hc, monomial_zero_right, zero_add]
  · rw [toPolynomial_cons]

/-- Inserting a term adds it to the sum, wherever its exponent belongs. -/
theorem toPolynomial_insert (t : Term K) (ts : List (Term K)) :
    toPolynomial (insert t ts) = toPolynomial ts + monomial t.exponent.toNat t.coefficient := by
  induction ts with
  | nil => rw [insert, toPolynomial_cons, add_comm]
  | cons u us ih =>
    rw [insert]
    split
    · rw [toPolynomial_cons, toPolynomial_cons, ih, add_assoc]
    · split
      · rw [toPolynomial_cons, add_comm]
      · rename_i hut htu
        rw [toPolynomial_consNonzero, toPolynomial_cons, exponent_eq_of_not_lt htu hut, map_add]
        exact add_right_comm _ _ _

/-- Adding a term to a list adds it to the sum. -/
theorem toPolynomial_add (t : Term K) (ts : List (Term K)) :
    toPolynomial (add t ts) = toPolynomial ts + monomial t.exponent.toNat t.coefficient := by
  unfold add
  split
  · rename_i ht
    rw [eq_of_beq ht, monomial_zero_right, add_zero]
  · exact toPolynomial_insert t ts

end TermList

/-! ## Polynomials -/

namespace Poly

variable [DecidableEq K]

/-- The polynomial that the terms stand for. -/
noncomputable def toPolynomial (p : Poly K) : K[X] := TermList.toPolynomial p.terms

@[simp] theorem toPolynomial_zero : (0 : Poly K).toPolynomial = 0 := rfl

/-- A polynomial and the one that it stands for have the same coefficients. -/
theorem coeff_toPolynomial (p : Poly K) (e : UInt32) :
    p.toPolynomial.coeff e.toNat = p.coefficient e :=
  TermList.coeff_toPolynomial p.canonical.ascending e

/-- The polynomial that is stood for has no coefficient beyond the range of exponents. -/
theorem coeff_toPolynomial_of_le (p : Poly K) {n : ℕ} (hn : 2 ^ 32 ≤ n) :
    p.toPolynomial.coeff n = 0 :=
  TermList.coeff_toPolynomial_of_le p.terms hn

/-- There is a term exactly where the coefficient is not zero. -/
theorem coefficient?_eq_nonzero? (p : Poly K) (e : UInt32) :
    p.coefficient? e = nonzero? (p.coefficient e) := by
  unfold coefficient nonzero?
  cases h : p.coefficient? e with
  | none => simp
  | some c =>
    have hc := p.canonical.nonzero _ (TermList.mem_of_coefficient? h)
    rw [Option.getD_some, if_neg (Bool.eq_false_iff.1 hc)]

/-- Polynomials that stand for the same one have the same terms. -/
theorem toPolynomial_injective {p q : Poly K} (h : p.toPolynomial = q.toPolynomial) : p = q := by
  apply ext_coefficient?
  intro e
  rw [coefficient?_eq_nonzero?, coefficient?_eq_nonzero?, ← coeff_toPolynomial, ← coeff_toPolynomial,
    h]

/-- Adding terms one after the other adds their sum to what the polynomial stands for. -/
theorem toPolynomial_extend (p : Poly K) (ts : List (Term K)) :
    (p.extend ts).toPolynomial = p.toPolynomial + TermList.toPolynomial ts := by
  induction ts generalizing p with
  | nil => exact (add_zero _).symm
  | cons t ts ih =>
    rw [extend_cons, ih, TermList.toPolynomial_cons, ← add_assoc]
    congr 1
    exact TermList.toPolynomial_add t p.terms

/-- Terms that cancel are dropped, and the sum stays the same. -/
theorem toPolynomial_ofTerms (ts : List (Term K)) :
    (ofTerms ts).toPolynomial = TermList.toPolynomial ts := by
  rw [ofTerms, toPolynomial_extend, toPolynomial_zero, zero_add]

/-- A polynomial and the one that it stands for have the same values. -/
theorem eval_toPolynomial (p : Poly K) (x : K) : p.toPolynomial.eval x = p.eval x := by
  rw [toPolynomial, TermList.eval_toPolynomial, eval, List.sum_eq_foldl, List.foldl_map]

/-- The degree is that of the leading term. -/
theorem degree_toPolynomial_lt_iff (p : Poly K) (n : ℕ) :
    p.toPolynomial.degree < n ↔ ∀ d ∈ p.degree?, d.toNat < n := by
  rw [degree_lt_iff_coeff_zero]
  constructor
  · intro hcoeff d hd
    obtain ⟨top, htop, rfl⟩ := Option.map_eq_some_iff.1 hd
    by_contra hle
    have hzero := hcoeff top.exponent.toNat (Nat.not_lt.1 hle)
    have hmem := leadingTerm?_mem htop
    rw [coeff_toPolynomial, coefficient, mem_terms_iff.1 hmem, Option.getD_some] at hzero
    have hnonzero := p.canonical.nonzero top hmem
    rw [hzero, beq_self_eq_true] at hnonzero
    cases hnonzero
  · intro hdegree m hm
    -- beyond the range of exponents there are no terms anyway
    rcases Nat.lt_or_ge m (2 ^ 32) with hm32 | hm32
    · have htoNat : (UInt32.ofNat m).toNat = m := UInt32.toNat_ofNat_of_lt' hm32
      rw [← htoNat, coeff_toPolynomial, coefficient]
      cases hc : p.coefficient? (UInt32.ofNat m) with
      | none => rfl
      | some c =>
        have hmem := TermList.mem_of_coefficient? hc
        -- there is a term of this exponent, so there is a leading term
        obtain ⟨top, htop⟩ : ∃ top, p.leadingTerm? = some top :=
          Option.isSome_iff_exists.1 (List.getLast?_isSome.2 (List.ne_nil_of_mem hmem))
        have hle := UInt32.le_iff_toNat_le.1 (exponent_le_of_leadingTerm? htop hmem)
        have hlt := hdegree top.exponent (Option.map_eq_some_iff.2 ⟨top, htop, rfl⟩)
        rw [htoNat] at hle
        omega
    · exact coeff_toPolynomial_of_le p hm32

end Poly

end SparsePoly
