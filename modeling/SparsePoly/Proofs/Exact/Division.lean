import Mathlib.Algebra.Ring.Subring.Basic
import Mathlib.Tactic.LinearCombination
import SparsePoly.Poly.Division
import SparsePoly.Proofs.Exact.Arithmetic

/-!
# Division over a field

Over a field, long division finds the only quotient and remainder there are (`divide_spec`).

Each pass keeps `quotient * divisor + remainder` (`toPolynomial_divideFrom`). Its multiple of the divisor has
exponents that fit, since none is above that of the term it removes, and it has that term itself, so
that nothing is left to be dropped behind the subtraction (`reduce_eq_sub`). In the end no exponent of
the product of quotient and divisor can be too large, because it has no more than the dividend and the
remainder.

If the divisor is monic, each ratio of coefficients is a coefficient of the remainder, and the division
stays within any subring that has the coefficients it began with (`divideFrom_coefficient_mem`).
-/

open Polynomial

namespace SparsePoly.Poly

variable {K : Type*} [Field K] [DecidableEq K]

/-! ## Degrees -/

/-- The degree is the exponent of the leading term. -/
theorem degree_toPolynomial {p : Poly K} {top : Term K} (hp : p.leadingTerm? = some top) :
    p.toPolynomial.degree = top.exponent.toNat := by
  have hdegree : p.degree? = some top.exponent := by
    rw [degree?, hp]
    rfl
  apply le_antisymm
  · rw [← Order.lt_succ_iff]
    refine (degree_toPolynomial_lt_iff p (top.exponent.toNat + 1)).2 fun d hd => ?_
    rw [hdegree] at hd
    cases hd
    exact Nat.lt_succ_self _
  · rw [← not_lt, degree_toPolynomial_lt_iff]
    exact fun h => absurd (h _ hdegree) (Nat.lt_irrefl _)

/-- Exponents fit if the product of the polynomials that are stood for has none that is too large. -/
theorem exponentsFit_of_coeff {p q : Poly K}
    (h : ∀ n, 2 ^ 32 ≤ n → (p.toPolynomial * q.toPolynomial).coeff n = 0) : ExponentsFit p q := by
  refine exponentsFit_iff.2 fun t ht u hu => ?_
  have hp : p ≠ 0 := by
    rintro rfl
    cases ht
  have hq : q ≠ 0 := by
    rintro rfl
    cases hu
  obtain ⟨ptop, hptop⟩ := exists_leadingTerm? hp
  obtain ⟨qtop, hqtop⟩ := exists_leadingTerm? hq
  -- the degree of the product is the sum of the degrees
  have hlt : ptop.exponent.toNat + qtop.exponent.toNat < UInt32.size := by
    have hdegree : (p.toPolynomial * q.toPolynomial).degree < (2 ^ 32 : ℕ) :=
      (degree_lt_iff_coeff_zero _ _).2 h
    rw [degree_mul, degree_toPolynomial hptop, degree_toPolynomial hqtop] at hdegree
    exact_mod_cast hdegree
  have htle := UInt32.le_iff_toNat_le.1 (exponent_le_of_leadingTerm? hptop ht)
  have hule := UInt32.le_iff_toNat_le.1 (exponent_le_of_leadingTerm? hqtop hu)
  omega

/-! ## One pass -/

section Pass

variable {r d : Poly K} {top lead : Term K}

/-- The ratio stands for the monomial that takes the leading term of the divisor to the other one.
-/
theorem toPolynomial_ratio (hle : lead.exponent ≤ top.exponent) :
    (ratio top lead).toPolynomial =
      Polynomial.monomial (top.exponent.toNat - lead.exponent.toNat)
        (top.coefficient / lead.coefficient) := by
  rw [ratio, toPolynomial_monomial, UInt32.toNat_sub_of_le _ _ hle]

/-- The exponents of the multiple of the divisor fit. -/
theorem exponentsFit_ratio (hd : d.leadingTerm? = some lead) (hle : lead.exponent ≤ top.exponent) :
    ExponentsFit d (ratio top lead) := by
  refine exponentsFit_iff.2 fun t ht u hu => ?_
  have hsum := exponent_add_le_of_mem_ratio hd hle ht hu
  exact Nat.lt_of_le_of_lt hsum top.exponent.toNat_lt_size

/-- The multiple of the divisor stands for the product, since its exponents fit. -/
theorem toPolynomial_mul_ratio (hd : d.leadingTerm? = some lead)
    (hle : lead.exponent ≤ top.exponent) :
    (d * ratio top lead).toPolynomial =
      d.toPolynomial * Polynomial.monomial (top.exponent.toNat - lead.exponent.toNat)
        (top.coefficient / lead.coefficient) := by
  rw [toPolynomial_mul (exponentsFit_ratio hd hle), toPolynomial_ratio hle]

/-- The multiple of the divisor has the term that it is meant to remove. -/
theorem coefficient_mul_ratio (hd : d.leadingTerm? = some lead)
    (hle : lead.exponent ≤ top.exponent) :
    (d * ratio top lead).coefficient top.exponent = top.coefficient := by
  have hlead : lead.coefficient ≠ 0 := by
    simpa using d.canonical.nonzero lead (leadingTerm?_mem hd)
  have hle' := UInt32.le_iff_toNat_le.1 hle
  rw [← coeff_toPolynomial, toPolynomial_mul_ratio hd hle]
  calc (d.toPolynomial * Polynomial.monomial (top.exponent.toNat - lead.exponent.toNat)
        (top.coefficient / lead.coefficient)).coeff top.exponent.toNat
      = d.toPolynomial.coeff lead.exponent.toNat * (top.coefficient / lead.coefficient) := by
        rw [← coeff_mul_monomial, Nat.add_sub_cancel' hle']
    _ = lead.coefficient * (top.coefficient / lead.coefficient) := by
        rw [coeff_toPolynomial, coefficient_of_mem (leadingTerm?_mem hd)]
    _ = top.coefficient := mul_div_cancel₀ _ hlead

/-- In exact arithmetic the subtraction leaves nothing to be dropped. -/
theorem reduce_eq_sub (hr : r.leadingTerm? = some top) (hd : d.leadingTerm? = some lead)
    (hle : lead.exponent ≤ top.exponent) : reduce r d top lead = r - d * ratio top lead := by
  apply erase_of_coefficient_eq_zero
  rw [coefficient_sub, coefficient_of_mem (leadingTerm?_mem hr), coefficient_mul_ratio hd hle,
    sub_self]

/-- A pass moves a multiple of the divisor from the remainder to the quotient. -/
theorem toPolynomial_pass (q : Poly K) (hr : r.leadingTerm? = some top)
    (hd : d.leadingTerm? = some lead) (hle : lead.exponent ≤ top.exponent) :
    (q + ratio top lead).toPolynomial * d.toPolynomial + (reduce r d top lead).toPolynomial =
      q.toPolynomial * d.toPolynomial + r.toPolynomial := by
  rw [reduce_eq_sub hr hd hle, toPolynomial_add, toPolynomial_sub, toPolynomial_mul_ratio hd hle,
    toPolynomial_ratio hle]
  ring

end Pass

/-! ## The whole division -/

/-- The division keeps `quotient * divisor + remainder`. -/
theorem toPolynomial_divideFrom (d : Poly K) (lead : Term K) (hd : d.leadingTerm? = some lead)
    (q r : Poly K) :
    (divideFrom d lead hd q r).quotient.toPolynomial * d.toPolynomial +
        (divideFrom d lead hd q r).remainder.toPolynomial =
      q.toPolynomial * d.toPolynomial + r.toPolynomial := by
  -- on the passes, each of which keeps the sum
  induction q, r using divideFrom.induct d lead hd with
  | case1 q r hr => rw [divideFrom_of_none hr]
  | case2 q r top hr hlt => rw [divideFrom_of_lt hr hlt]
  | case3 q r top hr hlt _ ih =>
    rw [divideFrom_of_not_lt hr hlt, ← toPolynomial_pass q hr hd (UInt32.not_lt.1 hlt)]
    exact ih

/-- A quotient and a remainder in the usual sense. -/
structure IsDivision (p d : Poly K) (v : Division K) : Prop where
  /-- The dividend is the multiple of the divisor with the remainder. -/
  identity : p.toPolynomial =
    v.quotient.toPolynomial * d.toPolynomial + v.remainder.toPolynomial
  /-- The remainder is zero or of lower degree than the divisor. -/
  degree_lt : ∀ e ∈ v.remainder.degree?, ∀ f ∈ d.degree?, e < f

/-- What the loop ends with is a quotient and a remainder in the usual sense. -/
theorem isDivision_divideFrom (p : Poly K) {d : Poly K} {lead : Term K}
    (hd : d.leadingTerm? = some lead) : IsDivision p d (divideFrom d lead hd 0 p) := by
  refine ⟨?_, fun e he f hf => ?_⟩
  · rw [toPolynomial_divideFrom, toPolynomial_zero, zero_mul, zero_add]
  · rw [degree?, hd] at hf
    cases hf
    exact degree_remainder_lt hd 0 p e he

section Unique

variable {p d : Poly K} {v w : Division K}

/-- The remainder is of a lower degree than the divisor, zero included. -/
theorem IsDivision.degree_remainder_lt (hd : d ≠ 0) (hv : IsDivision p d v) :
    v.remainder.toPolynomial.degree < d.toPolynomial.degree := by
  obtain ⟨lead, hlead⟩ := exists_leadingTerm? hd
  rw [degree_toPolynomial hlead, degree_toPolynomial_lt_iff]
  intro e he
  refine UInt32.lt_iff_toNat_lt.1 (hv.degree_lt e he lead.exponent ?_)
  rw [degree?, hlead]
  rfl

/-- There is one quotient with its remainder only. -/
theorem IsDivision.unique (hd : d ≠ 0) (hv : IsDivision p d v) (hw : IsDivision p d w) : v = w := by
  have hdiff : (v.quotient.toPolynomial - w.quotient.toPolynomial) * d.toPolynomial =
      w.remainder.toPolynomial - v.remainder.toPolynomial := by
    have h := hv.identity.symm.trans hw.identity
    linear_combination h
  -- a multiple of the divisor other than zero is not of lower degree
  have hquotient : v.quotient.toPolynomial - w.quotient.toPolynomial = 0 := by
    by_contra hne
    have hlt : ((v.quotient.toPolynomial - w.quotient.toPolynomial) * d.toPolynomial).degree <
        d.toPolynomial.degree := by
      rw [hdiff]
      exact (degree_sub_le _ _).trans_lt
        (max_lt (hw.degree_remainder_lt hd) (hv.degree_remainder_lt hd))
    rw [mul_comm] at hlt
    exact absurd hlt (not_lt.2 (degree_le_mul_left _ hne))
  rw [hquotient, zero_mul] at hdiff
  have hq : v.quotient = w.quotient := toPolynomial_injective (sub_eq_zero.1 hquotient)
  have hr : v.remainder = w.remainder := toPolynomial_injective (sub_eq_zero.1 hdiff.symm).symm
  obtain ⟨vq, vr⟩ := v
  obtain ⟨wq, wr⟩ := w
  rw [show vq = wq from hq, show vr = wr from hr]

/-- No exponent wraps around in the product of quotient and divisor: it has none but those of
dividend and remainder. -/
theorem IsDivision.exponentsFit (hv : IsDivision p d v) : ExponentsFit v.quotient d := by
  apply exponentsFit_of_coeff
  intro n hn
  rw [← sub_eq_of_eq_add hv.identity, coeff_sub, coeff_toPolynomial_of_le p hn,
    coeff_toPolynomial_of_le v.remainder hn, sub_zero]

/-- The operations on lists of terms give the dividend back. -/
theorem IsDivision.mul_add_eq (hv : IsDivision p d v) : v.quotient * d + v.remainder = p := by
  apply toPolynomial_injective
  rw [toPolynomial_add, toPolynomial_mul hv.exponentsFit, hv.identity]

end Unique

/-! ## Coefficients in a subring -/

section Subring

variable (S : Subring K)

/-- Adding terms with coefficients in a subring stays within it. -/
theorem coefficient_extend_mem {p : Poly K} {ts : List (Term K)} (hp : ∀ e, p.coefficient e ∈ S)
    (hts : ∀ t ∈ ts, t.coefficient ∈ S) (e : UInt32) : (p.extend ts).coefficient e ∈ S := by
  induction ts generalizing p with
  | nil => exact hp e
  | cons t ts ih =>
    refine ih (fun e => ?_) fun u hu => hts u (List.mem_cons_of_mem _ hu)
    rw [coefficient_addTerm]
    refine S.add_mem (hp e) ?_
    split
    · exact hts t List.mem_cons_self
    · exact S.zero_mem

/-- A product of polynomials with coefficients in a subring stays within it. -/
theorem coefficient_mul_mem {p q : Poly K} (hp : ∀ e, p.coefficient e ∈ S)
    (hq : ∀ e, q.coefficient e ∈ S) (e : UInt32) : (p * q).coefficient e ∈ S := by
  refine coefficient_extend_mem S (p := 0) (fun e => S.zero_mem) (fun x hx => ?_) e
  obtain ⟨⟨u, t⟩, hut, rfl⟩ := List.mem_map.1 hx
  obtain ⟨hu, ht⟩ := mem_termPairs.1 hut
  rw [Term.coefficient_mul, ← coefficient_of_mem hu, ← coefficient_of_mem ht]
  exact S.mul_mem (hq _) (hp _)

/-- A ratio to a leading coefficient of one stays within the subring. -/
theorem coefficient_ratio_mem {top lead : Term K} (htop : top.coefficient ∈ S)
    (hlead : lead.coefficient = 1) (e : UInt32) : (ratio top lead).coefficient e ∈ S := by
  rw [ratio, monomial, coefficient_addTerm, coefficient_zero, zero_add, hlead, div_one]
  split
  · exact htop
  · exact S.zero_mem

/-- Division by a monic divisor stays within a subring. -/
theorem divideFrom_coefficient_mem {d : Poly K} {lead : Term K} (hd : d.leadingTerm? = some lead)
    (hmonic : lead.coefficient = 1) (hdS : ∀ e, d.coefficient e ∈ S) {q r : Poly K}
    (hq : ∀ e, q.coefficient e ∈ S) (hr : ∀ e, r.coefficient e ∈ S) :
    (∀ e, (divideFrom d lead hd q r).quotient.coefficient e ∈ S) ∧
      ∀ e, (divideFrom d lead hd q r).remainder.coefficient e ∈ S := by
  -- on the passes: quotient and remainder both stay within the subring
  induction q, r using divideFrom.induct d lead hd with
  | case1 q r hnone =>
    rw [divideFrom_of_none hnone]
    exact ⟨hq, hr⟩
  | case2 q r top htop hlt =>
    rw [divideFrom_of_lt htop hlt]
    exact ⟨hq, hr⟩
  | case3 q r top htop hlt _ ih =>
    have htopS : top.coefficient ∈ S := coefficient_of_mem (leadingTerm?_mem htop) ▸ hr _
    have hratio := coefficient_ratio_mem S htopS hmonic
    rw [divideFrom_of_not_lt htop hlt]
    apply ih
    · intro e
      rw [coefficient_add]
      exact S.add_mem (hq e) (hratio e)
    · intro e
      rw [reduce_eq_sub htop hd (UInt32.not_lt.1 hlt), coefficient_sub]
      exact S.sub_mem (hr e) (coefficient_mul_mem S hdS hratio e)

end Subring

/-! ## Integer coefficients -/

/-- All coefficients are integers. -/
def HasIntegerCoefficients (p : Poly K) : Prop := ∀ t ∈ p.terms, ∃ n : ℤ, t.coefficient = n

/-- The leading coefficient is one. -/
def IsMonic (p : Poly K) : Prop := ∀ top ∈ p.leadingTerm?, top.coefficient = 1

/-- Integer coefficients are those in the image of the integers, whether a zero stands for a term or
not. -/
theorem hasIntegerCoefficients_iff {p : Poly K} :
    p.HasIntegerCoefficients ↔ ∀ e, p.coefficient e ∈ (Int.castRingHom K).range := by
  constructor
  · intro hp e
    rw [coefficient]
    cases hc : p.coefficient? e with
    | none => exact Subring.zero_mem _
    | some c =>
      obtain ⟨n, hn⟩ := hp _ (TermList.mem_of_coefficient? hc)
      exact ⟨n, hn.symm⟩
  · intro hp t ht
    obtain ⟨n, hn⟩ := hp t.exponent
    exact ⟨n, (coefficient_of_mem ht).symm.trans hn.symm⟩

/-- Over a field, long division by a polynomial other than zero has a result, from which the product
with the divisor and the sum with the remainder, both of lists of terms, give the dividend back. No
sum of exponents wraps around in this product. The result is the only division there is. If dividend
and divisor have integer coefficients and the divisor is monic, then quotient and remainder have
integer coefficients. -/
theorem divide_spec (p : Poly K) {d : Poly K} (hd : d ≠ 0) :
    ∃ v, p.divide d = .ok v ∧
      v.quotient * d + v.remainder = p ∧
      ExponentsFit v.quotient d ∧
      (∀ w, IsDivision p d w ↔ w = v) ∧
      (p.HasIntegerCoefficients → d.HasIntegerCoefficients → d.IsMonic →
        v.quotient.HasIntegerCoefficients ∧ v.remainder.HasIntegerCoefficients) := by
  obtain ⟨lead, hlead⟩ := exists_leadingTerm? hd
  have hv := isDivision_divideFrom p hlead
  refine ⟨_, divide_of_leadingTerm? p hlead, hv.mul_add_eq, hv.exponentsFit, fun w => ?_, ?_⟩
  · constructor
    · exact fun hw => hw.unique hd hv
    · rintro rfl
      exact hv
  · intro hp hd' hmonic
    simp only [hasIntegerCoefficients_iff] at hp hd' ⊢
    exact divideFrom_coefficient_mem _ hlead (hmonic lead hlead) hd' (fun e => Subring.zero_mem _) hp

/-- `x^7 - 2*x^3 + 5` by `x^2 - 3`, where the exponents have gaps and all coefficients are integers. -/
theorem divide_spec_sparse :
    (ofTerms [⟨2, 1⟩, ⟨0, -3⟩] : Poly ℚ) ≠ 0 ∧
      ∃ v, (ofTerms [⟨7, 1⟩, ⟨3, -2⟩, ⟨0, 5⟩] : Poly ℚ).divide (ofTerms [⟨2, 1⟩, ⟨0, -3⟩]) = .ok v ∧
        v.quotient * ofTerms [⟨2, 1⟩, ⟨0, -3⟩] + v.remainder = ofTerms [⟨7, 1⟩, ⟨3, -2⟩, ⟨0, 5⟩] ∧
        (∀ w, IsDivision (ofTerms [⟨7, 1⟩, ⟨3, -2⟩, ⟨0, 5⟩]) (ofTerms [⟨2, 1⟩, ⟨0, -3⟩]) w ↔ w = v) ∧
        v.quotient.HasIntegerCoefficients ∧ v.remainder.HasIntegerCoefficients := by
  have hp : (ofTerms [⟨7, 1⟩, ⟨3, -2⟩, ⟨0, 5⟩] : Poly ℚ).terms = [⟨0, 5⟩, ⟨3, -2⟩, ⟨7, 1⟩] := by
    decide +kernel
  have hd : (ofTerms [⟨2, 1⟩, ⟨0, -3⟩] : Poly ℚ).terms = [⟨0, -3⟩, ⟨2, 1⟩] := by
    decide +kernel
  have hne : (ofTerms [⟨2, 1⟩, ⟨0, -3⟩] : Poly ℚ) ≠ 0 := by
    intro h
    rw [h] at hd
    cases hd
  obtain ⟨v, hv, hidentity, -, hunique, hinteger⟩ :=
    divide_spec (ofTerms [⟨7, 1⟩, ⟨3, -2⟩, ⟨0, 5⟩]) hne
  refine ⟨hne, v, hv, hidentity, hunique, hinteger ?_ ?_ ?_⟩
  · rw [HasIntegerCoefficients, hp]
    simp only [List.forall_mem_cons, List.not_mem_nil, false_implies, implies_true, and_true]
    exact ⟨⟨5, by norm_num⟩, ⟨-2, by norm_num⟩, ⟨1, by norm_num⟩⟩
  · rw [HasIntegerCoefficients, hd]
    simp only [List.forall_mem_cons, List.not_mem_nil, false_implies, implies_true, and_true]
    exact ⟨⟨-3, by norm_num⟩, ⟨1, by norm_num⟩⟩
  · intro top htop
    rw [leadingTerm?, hd] at htop
    cases htop
    rfl

end SparsePoly.Poly
