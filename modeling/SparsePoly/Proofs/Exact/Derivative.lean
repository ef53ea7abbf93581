import Mathlib.Algebra.Polynomial.Derivative
import SparsePoly.Proofs.Exact.Evaluation
import SparsePoly.Proofs.Termwise.Sum

/-!
# Derivatives

Over a field, the derivative is that of the polynomial that is stood for (`toPolynomial_derivative`), so it
obeys the rules of calculus. The product rule holds for lists of terms whenever no sum of exponents wraps
around in the product: none wraps around in the products of the rule then, since a derivative has lower
exponents (`exists_of_mem_derivative`).

In characteristic zero, the derivative has a term for each term but the constant, and no others
(`terms_derivative`): different exponents are still different when each of them falls by one, and no
multiple of a coefficient vanishes.
-/

open Polynomial

namespace SparsePoly

variable {K : Type*} [Field K]

/-! ## Terms -/

namespace Term

/-- A constant has no derivative. -/
theorem derivative?_of_exponent_eq_zero {t : Term K} (ht : t.exponent = 0) : t.derivative? = none :=
  if_pos ht

/-- Any other term has one, with the exponent as a factor. -/
theorem derivative?_of_exponent_ne_zero {t : Term K} (ht : t.exponent ≠ 0) :
    t.derivative? = some ⟨t.exponent - 1, t.coefficient * t.exponent.toNat⟩ :=
  if_neg ht

/-- An exponent other than zero can fall by one. -/
theorem toNat_sub_one_add_one {e : UInt32} (he : e ≠ 0) : (e - 1).toNat + 1 = e.toNat := by
  have hne : e.toNat ≠ 0 := fun h => he (UInt32.toNat_inj.1 h)
  have hle : (1 : UInt32) ≤ e := UInt32.le_iff_toNat_le.2 (Nat.one_le_iff_ne_zero.2 hne)
  have hsub : (e - 1).toNat = e.toNat - 1 := UInt32.toNat_sub_of_le e 1 hle
  omega

/-- The derivative of a term has a lower exponent. -/
theorem exponent_of_derivative? {t u : Term K} (h : t.derivative? = some u) :
    u.exponent.toNat + 1 = t.exponent.toNat := by
  by_cases ht : t.exponent = 0
  · rw [derivative?_of_exponent_eq_zero ht] at h
    cases h
  · rw [derivative?_of_exponent_ne_zero ht] at h
    cases h
    exact toNat_sub_one_add_one ht

end Term

namespace TermList

/-- The derivatives of some terms stand for the derivative of their sum. -/
theorem toPolynomial_filterMap_derivative? (ts : List (Term K)) :
    toPolynomial (ts.filterMap Term.derivative?) = Polynomial.derivative (toPolynomial ts) := by
  induction ts with
  | nil => simp
  | cons t ts ih =>
    rw [toPolynomial_cons, Polynomial.derivative_add, Polynomial.derivative_monomial, ← ih]
    -- a constant is left out, and its monomial has the derivative zero
    by_cases ht : t.exponent = 0
    · rw [List.filterMap_cons_none (Term.derivative?_of_exponent_eq_zero ht), ht]
      simp
    · have hsub : (t.exponent - 1).toNat = t.exponent.toNat - 1 :=
        Nat.eq_sub_of_add_eq (Term.toNat_sub_one_add_one ht)
      rw [List.filterMap_cons_some (Term.derivative?_of_exponent_ne_zero ht), toPolynomial_cons, hsub]

/-- The derivatives of some terms are those of the terms that are not constant. -/
theorem filterMap_derivative?_eq_map (ts : List (Term K)) :
    ts.filterMap Term.derivative? = (ts.filter (·.exponent ≠ 0)).map fun t =>
      ⟨t.exponent - 1, t.coefficient * t.exponent.toNat⟩ := by
  induction ts with
  | nil => rfl
  | cons t ts ih =>
    by_cases ht : t.exponent = 0
    · rw [List.filterMap_cons_none (Term.derivative?_of_exponent_eq_zero ht),
        List.filter_cons_of_neg (by simp [ht]), ih]
    · rw [List.filterMap_cons_some (Term.derivative?_of_exponent_ne_zero ht),
        List.filter_cons_of_pos (by simp [ht]), List.map_cons, ih]

end TermList

namespace Poly

variable [DecidableEq K]

/-! ## The rules of calculus -/

/-- The derivative stands for the derivative. -/
theorem toPolynomial_derivative (p : Poly K) :
    p.derivative.toPolynomial = Polynomial.derivative p.toPolynomial := by
  rw [derivative, toPolynomial_ofTerms, TermList.toPolynomial_filterMap_derivative?]
  rfl

/-- Each exponent of a derivative is one less than an exponent of the polynomial. -/
theorem exists_of_mem_derivative {p : Poly K} {u : Term K} (hu : u ∈ p.derivative.terms) :
    ∃ t ∈ p.terms, u.exponent.toNat + 1 = t.exponent.toNat := by
  rcases exponent_of_mem_extend hu with ⟨v, hv, hvu⟩ | ⟨v, hv, -⟩
  · obtain ⟨t, ht, htv⟩ := List.mem_filterMap.1 hv
    exact ⟨t, ht, hvu ▸ Term.exponent_of_derivative? htv⟩
  · cases hv

/-- The derivative of a sum is the sum of the derivatives. -/
theorem derivative_add (p q : Poly K) : (p + q).derivative = p.derivative + q.derivative := by
  apply toPolynomial_injective
  rw [toPolynomial_add, toPolynomial_derivative, toPolynomial_derivative, toPolynomial_derivative,
    toPolynomial_add, Polynomial.derivative_add]

/-- The derivative of a negation is the negated derivative. -/
theorem derivative_neg (p : Poly K) : (-p).derivative = -p.derivative := by
  apply toPolynomial_injective
  rw [toPolynomial_neg, toPolynomial_derivative, toPolynomial_derivative, toPolynomial_neg,
    Polynomial.derivative_neg]

/-- The product rule, if no sum of exponents wraps around in the product. -/
theorem derivative_mul {p q : Poly K} (hfit : ExponentsFit p q) :
    (p * q).derivative = p.derivative * q + p * q.derivative := by
  -- a derivative has lower exponents, so the products of the rule do not wrap around either
  have hleft : ExponentsFit p.derivative q := by
    rw [exponentsFit_iff] at hfit ⊢
    intro t ht u hu
    obtain ⟨t', ht', he⟩ := exists_of_mem_derivative ht
    have hsum := hfit t' ht' u hu
    omega
  have hright : ExponentsFit p q.derivative := by
    rw [exponentsFit_iff] at hfit ⊢
    intro t ht u hu
    obtain ⟨u', hu', he⟩ := exists_of_mem_derivative hu
    have hsum := hfit t ht u' hu'
    omega
  apply toPolynomial_injective
  rw [toPolynomial_derivative, toPolynomial_mul hfit, toPolynomial_add, toPolynomial_mul hleft,
    toPolynomial_mul hright, toPolynomial_derivative, toPolynomial_derivative,
    Polynomial.derivative_mul]

/-! ## The terms of a derivative -/

section CharZero

variable [CharZero K]

/-- The derivatives of the terms are in canonical form. -/
theorem canonical_filterMap_derivative? (p : Poly K) :
    Canonical (p.terms.filterMap Term.derivative?) := by
  constructor
  · -- all exponents fall by one, so their order stays
    refine p.canonical.ascending.filterMap _ fun t t' hlt u hu u' hu' => ?_
    have he := Term.exponent_of_derivative? hu
    have he' := Term.exponent_of_derivative? hu'
    rw [UInt32.lt_iff_toNat_lt] at hlt ⊢
    omega
  · intro u hu
    obtain ⟨t, ht, htu⟩ := List.mem_filterMap.1 hu
    by_cases h0 : t.exponent = 0
    · rw [Term.derivative?_of_exponent_eq_zero h0] at htu
      cases htu
    · rw [Term.derivative?_of_exponent_ne_zero h0] at htu
      cases htu
      have hexponent : (t.exponent.toNat : K) ≠ 0 :=
        Nat.cast_ne_zero.2 fun h => h0 (UInt32.toNat_inj.1 h)
      have hcoefficient : t.coefficient ≠ 0 := by simpa using p.canonical.nonzero t ht
      exact beq_eq_false_iff_ne.2 (mul_ne_zero hcoefficient hexponent)

/-- In characteristic zero, each term but the constant has its term in the derivative. -/
theorem terms_derivative (p : Poly K) :
    p.derivative.terms = (p.terms.filter (·.exponent ≠ 0)).map fun t =>
      ⟨t.exponent - 1, t.coefficient * t.exponent.toNat⟩ := by
  have hsum : p.derivative = ⟨_, p.canonical_filterMap_derivative?⟩ := ofTerms_of_perm (.refl _)
  exact (congrArg terms hsum).trans (TermList.filterMap_derivative?_eq_map p.terms)

/-- A derivative is zero exactly for zero and for constants. -/
theorem derivative_eq_zero_iff (p : Poly K) : p.derivative = 0 ↔ p = 0 ∨ p.degree? = some 0 := by
  -- every term but the constant leaves one in the derivative
  have hconstant : p.derivative = 0 ↔ ∀ t ∈ p.terms, t.exponent = 0 := by
    rw [Poly.ext_iff, terms_zero, terms_derivative, List.map_eq_nil_iff, List.filter_eq_nil_iff]
    simp
  rw [hconstant]
  constructor
  · intro h
    by_cases hp : p = 0
    · exact Or.inl hp
    · obtain ⟨top, htop⟩ := exists_leadingTerm? hp
      exact Or.inr (mem_degree?_iff.2 ⟨top, htop, h top (leadingTerm?_mem htop)⟩)
  · rintro (rfl | hdegree) t ht
    · cases ht
    · obtain ⟨d, hd, hle⟩ := exists_mem_degree?_of_mem ht
      rw [hdegree] at hd
      cases hd
      exact UInt32.le_antisymm hle UInt32.zero_le

/-- The degree falls by one. -/
theorem degree?_derivative {p : Poly K} {d : UInt32} (hd : d ∈ p.degree?) (h0 : d ≠ 0) :
    p.derivative.degree? = some (d - 1) := by
  obtain ⟨top, htop, rfl⟩ := mem_degree?_iff.1 hd
  refine mem_degree?_iff.2 ⟨⟨top.exponent - 1, top.coefficient * top.exponent.toNat⟩, ?_, rfl⟩
  apply leadingTerm?_eq_some
  · rw [terms_derivative, List.mem_map]
    exact ⟨top, List.mem_filter.2 ⟨leadingTerm?_mem htop, decide_eq_true h0⟩, rfl⟩
  · intro u hu
    obtain ⟨t, ht, he⟩ := exists_of_mem_derivative hu
    have hle := UInt32.le_iff_toNat_le.1 (exponent_le_of_leadingTerm? htop ht)
    have hfall := Term.toNat_sub_one_add_one h0
    rw [UInt32.le_iff_toNat_le]
    simp only
    omega

/-- Over a field of characteristic zero, the derivative obeys the rules of calculus for sums and negation,
and for products whenever the guarded product has a result. It is zero exactly for zero and for constants.
Otherwise the degree falls by one. Each term but the constant has its term in the derivative, and there are
no others. -/
theorem derivative_rules (a b : Poly K) :
    (a + b).derivative = a.derivative + b.derivative ∧
      (-a).derivative = -a.derivative ∧
      (∀ m, a.mul? b = .ok m → m.derivative = a.derivative * b + a * b.derivative) ∧
      (a.derivative = 0 ↔ a = 0 ∨ a.degree? = some 0) ∧
      (∀ d ∈ a.degree?, d ≠ 0 → a.derivative.degree? = some (d - 1)) ∧
      a.derivative.terms = (a.terms.filter (·.exponent ≠ 0)).map fun t =>
        ⟨t.exponent - 1, t.coefficient * t.exponent.toNat⟩ := by
  refine ⟨derivative_add a b, derivative_neg a, fun m hm => ?_, derivative_eq_zero_iff a,
    fun d hd h0 => degree?_derivative hd h0, terms_derivative a⟩
  rw [(mul?_eq_ok_iff.1 hm).2, derivative_mul (exponentsFit_of_mul? hm)]

/-- `x^4294967294 - x` and `x + 5`: the product has the greatest exponent there is. -/
theorem derivative_rules_greatest_exponent :
    ∃ a b m : Poly ℚ, a.terms = [⟨1, -1⟩, ⟨4294967294, 1⟩] ∧ b.terms = [⟨0, 5⟩, ⟨1, 1⟩] ∧
      a.mul? b = .ok m ∧ m.derivative = a.derivative * b + a * b.derivative ∧
      a.derivative.degree? = some 4294967293 := by
  set a : Poly ℚ := ofTerms [⟨4294967294, 1⟩, ⟨1, -1⟩]
  set b : Poly ℚ := ofTerms [⟨1, 1⟩, ⟨0, 5⟩]
  have ha : a.terms = [⟨1, -1⟩, ⟨4294967294, 1⟩] := by decide +kernel
  have hb : b.terms = [⟨0, 5⟩, ⟨1, 1⟩] := by decide +kernel
  have hmul : a.mul? b = .ok (a * b) := by
    rw [mul?_eq_ok_iff, ha, hb]
    exact ⟨by decide, rfl⟩
  have hdegree : a.degree? = some 4294967294 := by
    rw [degree?, leadingTerm?, ha]
    rfl
  obtain ⟨-, -, hproduct, -, hfall, -⟩ := derivative_rules a b
  exact ⟨a, b, a * b, ha, hb, hmul, hproduct _ hmul, hfall _ hdegree (by decide)⟩

end CharZero

/-- Without the guard the exponents wrap around, and the product rule fails. -/
example :
    (monomial ⟨4294967295, 1⟩ * monomial ⟨1, 1⟩ : Poly ℚ).derivative.terms = [] ∧
      ((monomial ⟨4294967295, 1⟩ : Poly ℚ).derivative * monomial ⟨1, 1⟩ +
        monomial ⟨4294967295, 1⟩ * (monomial ⟨1, 1⟩ : Poly ℚ).derivative).terms =
          [⟨4294967295, 4294967296⟩] := by
  decide +kernel

end Poly

end SparsePoly
