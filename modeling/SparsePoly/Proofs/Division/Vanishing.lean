import SparsePoly.Poly.Division
import SparsePoly.Proofs.Binary64.Quotient
import SparsePoly.Proofs.Termwise.Sum

/-!
# Terms without a share in the quotient

Each pass of a long division drops the leading term of the remainder, whether or not its multiple of
the divisor took it away. If the ratio to the leading term of the divisor is so small that it equals
zero, then nothing is added to the quotient and nothing is subtracted, and the term is dropped all the
same. It is in neither of the results then.

* `mem_quotient_of_mem`: once a ratio is in the quotient, no later one cancels it. So a quotient of zero
  means that no term at or above the degree of the divisor has a ratio (`quotient_eq_zero_iff`).
* `terms_remainder_of_quotient_eq_zero`: the remainder has the terms below the divisor then, and no
  others.
* `zero_quotient`: for finite coefficients, when this happens, and when the remainder is still the whole
  dividend.
-/

universe u

namespace SparsePoly.Poly

section Passes

variable {α : Type u} [Zero α] [BEq α] [Add α] [Div α]

/-- The term has no share in a quotient by what `lead` leads. -/
def Vanishes (lead t : Term α) : Prop := (t.coefficient / lead.coefficient == 0) = true

/-! ## The ratio -/

/-- The ratio has its one coefficient at the difference of the exponents, unless it equals zero. -/
theorem coefficient?_ratio (top lead : Term α) (e : UInt32) :
    (ratio top lead).coefficient? e =
      if top.exponent - lead.exponent = e then accumulate none (top.coefficient / lead.coefficient)
      else none :=
  coefficient?_addTerm 0 _ e

/-- A term that vanishes has no ratio to the leading term. -/
theorem ratio_eq_zero {top lead : Term α} (h : Vanishes lead top) : ratio top lead = 0 := by
  apply ext_coefficient?
  intro e
  rw [coefficient?_ratio, accumulate, if_pos (show _ = true from h), ite_self, coefficient?_zero]

/-- A term that does not vanish has a ratio to the leading term. -/
theorem mem_ratio {top lead : Term α} (h : ¬ Vanishes lead top) :
    ⟨top.exponent - lead.exponent, top.coefficient / lead.coefficient⟩ ∈ (ratio top lead).terms := by
  rw [mem_terms_iff, coefficient?_ratio, if_pos rfl]
  exact accumulate_none_of_nonzero (Bool.eq_false_iff.2 h)

variable [Mul α] [Neg α] [LawfulNegZero α]

/-- Without a ratio, a pass drops the leading term of the remainder and does nothing else. -/
theorem reduce_of_vanishes {r d : Poly α} {top lead : Term α} (h : Vanishes lead top) :
    reduce r d top lead = r.erase top.exponent := by
  have hmul : d * (0 : Poly α) = 0 := rfl
  have hsub : r - (0 : Poly α) = r := by
    apply ext_coefficient?
    intro e
    rw [coefficient?_sub, coefficient?_zero, Option.map_none, sumNonzero_none_right]
  rw [reduce, ratio_eq_zero h, hmul, hsub]

/-! ## The whole run -/

omit [Zero α] [BEq α] [Add α] [Div α] [Mul α] [Neg α] [LawfulNegZero α] in
/-- A term that is not below `e` is not missed among those below. -/
theorem filter_erase {ts : List (Term α)} {e top : UInt32} (hle : e ≤ top) :
    (TermList.erase top ts).filter (·.exponent < e) = ts.filter (·.exponent < e) := by
  rw [TermList.erase, List.filter_filter]
  refine List.filter_congr fun t _ => ?_
  by_cases hlow : t.exponent < e
  · have hne : t.exponent ≠ top := UInt32.ne_of_lt (UInt32.lt_of_lt_of_le hlow hle)
    rw [decide_eq_true hlow, bne_iff_ne.2 hne, Bool.and_self]
  · rw [decide_eq_false hlow, Bool.false_and]

variable {d q r : Poly α} {lead : Term α}

/-- A term of the quotient stays, as the ratios that are still to come have lower exponents. -/
theorem mem_quotient_of_mem (hd : d.leadingTerm? = some lead) {t : Term α} (ht : t ∈ q.terms)
    (hr : ∀ u ∈ r.terms, u.exponent.toNat < t.exponent.toNat + lead.exponent.toNat) :
    t ∈ (divideFrom d lead hd q r).quotient.terms := by
  -- on the passes: the remainder stays below the multiples that the term gives, so no ratio meets
  -- it
  induction q, r using divideFrom.induct d lead hd with
  | case1 q r hnone =>
    rw [divideFrom_of_none hnone]
    exact ht
  | case2 q r top htop hlt =>
    rw [divideFrom_of_lt htop hlt]
    exact ht
  | case3 q r top htop hlt _ ih =>
    have hle := UInt32.not_lt.1 hlt
    have hbound := hr top (leadingTerm?_mem htop)
    rw [divideFrom_of_not_lt htop hlt]
    refine ih (mem_terms_add_iff.2 (.left ht fun u hu he => ?_)) fun u hu => ?_
    · have hsum := exponent_add_le_of_mem_ratio hd hle (leadingTerm?_mem hd) hu
      rw [he] at hsum
      omega
    · have hfall := UInt32.lt_iff_toNat_lt.1 (exponent_lt_of_mem_reduce htop hd hle hu)
      omega

/-- A leading term that has a ratio keeps the quotient from zero. -/
theorem quotient_ne_zero (hd : d.leadingTerm? = some lead) {top : Term α}
    (htop : r.leadingTerm? = some top) (hlt : ¬ top.exponent < lead.exponent)
    (h : ¬ Vanishes lead top) :
    (divideFrom d lead hd 0 r).quotient ≠ 0 := by
  have hle := UInt32.not_lt.1 hlt
  have hmem := mem_ratio h
  have hfirst : ⟨top.exponent - lead.exponent, top.coefficient / lead.coefficient⟩ ∈
      ((0 : Poly α) + ratio top lead).terms :=
    mem_terms_add_iff.2 (.right hmem fun t ht => nomatch ht)
  have hstays := mem_quotient_of_mem hd hfirst fun u hu => by
    have hfall := UInt32.lt_iff_toNat_lt.1 (exponent_lt_of_mem_reduce htop hd hle hu)
    rw [UInt32.toNat_sub_of_le _ _ hle]
    omega
  rw [divideFrom_of_not_lt htop hlt]
  intro hzero
  rw [hzero] at hstays
  cases hstays

/-- Either each term at or above the degree of the divisor vanishes, and what is left is the rest, or one
of them has a ratio and brings it into the quotient. -/
theorem divideFrom_cases (hd : d.leadingTerm? = some lead) (hq : q = 0) (r : Poly α) :
    ((∀ t ∈ r.terms, lead.exponent ≤ t.exponent → Vanishes lead t) ∧
        (divideFrom d lead hd q r).quotient = 0 ∧
        (divideFrom d lead hd q r).remainder.terms =
          r.terms.filter (·.exponent < lead.exponent)) ∨
      (∃ t ∈ r.terms, lead.exponent ≤ t.exponent ∧ ¬ Vanishes lead t) ∧
        (divideFrom d lead hd q r).quotient ≠ 0 := by
  -- on the passes, as long as the quotient is zero: the first term with a ratio ends this
  induction q, r using divideFrom.induct d lead hd with
  | case1 q r hnone =>
    have hnil : r.terms = [] := List.getLast?_eq_none_iff.1 hnone
    rw [divideFrom_of_none hnone, hnil]
    exact Or.inl ⟨by simp, hq, rfl⟩
  | case2 q r top htop hlt =>
    have hbelow : ∀ t ∈ r.terms, t.exponent < lead.exponent := fun t ht =>
      UInt32.lt_of_le_of_lt (exponent_le_of_leadingTerm? htop ht) hlt
    rw [divideFrom_of_lt htop hlt]
    refine Or.inl ⟨fun t ht hle => absurd (hbelow t ht) (UInt32.not_lt.2 hle), hq, ?_⟩
    exact (List.filter_eq_self.2 fun t ht => decide_eq_true (hbelow t ht)).symm
  | case3 q r top htop hlt _ ih =>
    subst hq
    have hle := UInt32.not_lt.1 hlt
    have hmem := leadingTerm?_mem htop
    by_cases hvanishes : Vanishes lead top
    · -- the pass only drops the leading term
      have hadd : (0 : Poly α) + 0 = 0 := add_eq_extend 0 0
      rw [divideFrom_of_not_lt htop hlt]
      rw [reduce_of_vanishes hvanishes, ratio_eq_zero hvanishes, hadd] at ih ⊢
      rcases ih rfl with ⟨hall, hquotient, hremainder⟩ | ⟨⟨t, ht, htle, hratio⟩, hquotient⟩
      · refine Or.inl ⟨fun t ht htle => ?_, hquotient, ?_⟩
        · by_cases he : t.exponent = top.exponent
          · rwa [Vanishes, coefficient_eq_of_exponent_eq ht hmem he]
          · exact hall t (TermList.mem_erase.2 ⟨ht, he⟩) htle
        · rw [hremainder, terms_erase, filter_erase hle]
      · exact Or.inr ⟨⟨t, (TermList.mem_erase.1 ht).1, htle, hratio⟩, hquotient⟩
    · exact Or.inr ⟨⟨top, hmem, hle, hvanishes⟩, quotient_ne_zero hd htop hlt hvanishes⟩

/-- A quotient of zero means that nothing at or above the degree of the divisor has a share in it. -/
theorem quotient_eq_zero_iff (hd : d.leadingTerm? = some lead) (p : Poly α) :
    (divideFrom d lead hd 0 p).quotient = 0 ↔
      ∀ t ∈ p.terms, lead.exponent ≤ t.exponent → Vanishes lead t := by
  rcases divideFrom_cases hd rfl p with ⟨hall, hzero, -⟩ | ⟨⟨t, ht, hle, hratio⟩, hne⟩
  · exact iff_of_true hzero hall
  · exact iff_of_false hne fun hall => hratio (hall t ht hle)

/-- All of the terms at or above the degree of the divisor are dropped then. -/
theorem terms_remainder_of_quotient_eq_zero {hd : d.leadingTerm? = some lead} {p : Poly α}
    (h : (divideFrom d lead hd 0 p).quotient = 0) :
    (divideFrom d lead hd 0 p).remainder.terms = p.terms.filter (·.exponent < lead.exponent) := by
  rcases divideFrom_cases hd rfl p with ⟨-, -, hremainder⟩ | ⟨-, hne⟩
  · exact hremainder
  · exact absurd h hne

/-- So the remainder is the dividend only if the dividend is below the divisor. -/
theorem remainder_eq_iff_of_quotient_eq_zero {hd : d.leadingTerm? = some lead} {p : Poly α}
    (h : (divideFrom d lead hd 0 p).quotient = 0) :
    (divideFrom d lead hd 0 p).remainder = p ↔ ∀ t ∈ p.terms, t.exponent < lead.exponent := by
  rw [Poly.ext_iff, terms_remainder_of_quotient_eq_zero h, List.filter_eq_self]
  simp only [decide_eq_true_eq]

end Passes

section Binary64

open Binary64

/-- A finite coefficient has no share in the quotient exactly if its ratio to the leading coefficient
is at most half of the least magnitude. -/
theorem vanishes_iff {lead t : Term Float} (ht : t.coefficient.isFinite = true)
    (hlead : lead.coefficient.isFinite = true) (h0 : (lead.coefficient == 0) = false) :
    Vanishes lead t ↔ wordValue (magnitudeWord t.coefficient) ≤
      2 ^ (-1075 : ℤ) * wordValue (magnitudeWord lead.coefficient) :=
  div_beq_zero_iff ht hlead h0

/-- A division of polynomials with finite coefficients by a divisor other than zero comes to a quotient
of zero exactly if each coefficient of the dividend at or above the degree of the divisor is at most
`2 ^ (-1075)` times the leading coefficient of the divisor. The remainder has the terms of the dividend
below the divisor then, so it is the dividend only if the dividend has no others. -/
theorem zero_quotient {p d : Poly Float} (hp : ∀ t ∈ p.terms, t.coefficient.isFinite = true)
    (hd : ∀ t ∈ d.terms, t.coefficient.isFinite = true) (hne : d ≠ 0) :
    ∃ lead v, d.leadingTerm? = some lead ∧ p.divide d = .ok v ∧
      (v.quotient = 0 ↔ ∀ t ∈ p.terms, lead.exponent ≤ t.exponent →
        wordValue (magnitudeWord t.coefficient) ≤
          2 ^ (-1075 : ℤ) * wordValue (magnitudeWord lead.coefficient)) ∧
      (v.quotient = 0 → v.remainder.terms = p.terms.filter (·.exponent < lead.exponent)) ∧
      (v.quotient = 0 → (v.remainder = p ↔ ∀ t ∈ p.terms, t.exponent < lead.exponent)) := by
  obtain ⟨lead, hlead⟩ := exists_leadingTerm? hne
  have hmem := leadingTerm?_mem hlead
  refine ⟨lead, _, hlead, divide_of_leadingTerm? p hlead, ?_, terms_remainder_of_quotient_eq_zero,
    remainder_eq_iff_of_quotient_eq_zero⟩
  rw [quotient_eq_zero_iff]
  exact forall₂_congr fun t ht => imp_congr_right fun _ =>
    vanishes_iff (hp t ht) (hd lead hmem) (d.canonical.nonzero lead hmem)

/-- A dividend of which nothing is left: in both results it is zero. -/
theorem zero_quotient_of_underflow :
    (∀ t ∈ (ofTerms [⟨2, 1e-16⟩] : Poly Float).terms, t.coefficient.isFinite = true) ∧
      (∀ t ∈ (ofTerms [⟨1, 1e308⟩] : Poly Float).terms, t.coefficient.isFinite = true) ∧
      (ofTerms [⟨1, 1e308⟩] : Poly Float) ≠ 0 ∧
      ∃ v, (ofTerms [⟨2, 1e-16⟩] : Poly Float).divide (ofTerms [⟨1, 1e308⟩]) = .ok v ∧
        v.quotient = 0 ∧ v.remainder.terms = [] := by
  have hp : ∀ t ∈ (ofTerms [⟨2, 1e-16⟩] : Poly Float).terms, t.coefficient.isFinite = true := by
    decide +kernel
  have hd : ∀ t ∈ (ofTerms [⟨1, 1e308⟩] : Poly Float).terms, t.coefficient.isFinite = true := by
    decide +kernel
  have hlead : (ofTerms [⟨1, 1e308⟩] : Poly Float).leadingTerm? = some ⟨1, 1e308⟩ := by
    decide +kernel
  have hne := ne_zero_of_leadingTerm? hlead
  obtain ⟨lead, v, hlead', hv, hzero, hremainder, -⟩ := zero_quotient hp hd hne
  obtain rfl : ⟨1, 1e308⟩ = lead := Option.some.inj (hlead.symm.trans hlead')
  have hsmall : ∀ t ∈ (ofTerms [⟨2, 1e-16⟩] : Poly Float).terms,
      (t.coefficient / 1e308 == 0) = true := by
    decide +kernel
  have hquotient := hzero.2 fun t ht _ =>
    (vanishes_iff (hp t ht) (by decide +kernel) (by decide +kernel)).1 (hsmall t ht)
  refine ⟨hp, hd, hne, v, hv, hquotient, ?_⟩
  rw [hremainder hquotient]
  decide +kernel

/-- With a quotient of zero the remainder may have lost a term of the dividend: all that is left of
`1e-16 * x ^ 3 + 5` after the division by `1e308 * x` is the constant term. -/
theorem terms_remainder_ne_of_zero_quotient :
    (∀ t ∈ (ofTerms [⟨3, 1e-16⟩, ⟨0, 5⟩] : Poly Float).terms, t.coefficient.isFinite = true) ∧
      (∀ t ∈ (ofTerms [⟨1, 1e308⟩] : Poly Float).terms, t.coefficient.isFinite = true) ∧
      (ofTerms [⟨1, 1e308⟩] : Poly Float) ≠ 0 ∧
      ∃ v, (ofTerms [⟨3, 1e-16⟩, ⟨0, 5⟩] : Poly Float).divide (ofTerms [⟨1, 1e308⟩]) = .ok v ∧
        v.quotient = 0 ∧ v.remainder.terms = [⟨0, 5⟩] ∧
        v.remainder.terms ≠ (ofTerms [⟨3, 1e-16⟩, ⟨0, 5⟩] : Poly Float).terms := by
  have hlead : (ofTerms [⟨1, 1e308⟩] : Poly Float).leadingTerm? = some ⟨1, 1e308⟩ := by
    decide +kernel
  have hsmall : ∀ t ∈ (ofTerms [⟨3, 1e-16⟩, ⟨0, 5⟩] : Poly Float).terms,
      1 ≤ t.exponent → (t.coefficient / 1e308 == 0) = true := by
    decide +kernel
  have hquotient := (quotient_eq_zero_iff hlead _).2 hsmall
  have hremainder : (ofTerms [⟨3, 1e-16⟩, ⟨0, 5⟩] : Poly Float).terms.filter (·.exponent < 1) =
      [⟨0, 5⟩] := by
    decide +kernel
  have hterms := (terms_remainder_of_quotient_eq_zero hquotient).trans hremainder
  refine ⟨by decide +kernel, by decide +kernel, ne_zero_of_leadingTerm? hlead, _,
    divide_of_leadingTerm? _ hlead, hquotient, hterms, ?_⟩
  rw [hterms]
  decide +kernel

end Binary64

end SparsePoly.Poly
