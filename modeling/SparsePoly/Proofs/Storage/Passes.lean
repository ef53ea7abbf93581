import Mathlib.Logic.Relation
import SparsePoly.Proofs.Storage.Loops
import SparsePoly.Scalar.Binary64

/-!
# The passes of a long division

A long division goes through pairs of a quotient and a remainder (`Poly.Pass`). With floating-point
coefficients a pass may do anything to a coefficient: the ratio may be infinite, NaN or so small that
it equals zero, and the subtraction need not cancel what it is meant to. The exponents are as in exact
arithmetic all the same.

* `Pass.descent`: in each pass, the exponent of the divisor can be taken away from that of the
  remainder, no sum of exponents wraps around, and the leading exponent falls.
* `WithinDegree.pass`, `WithinDegree.run`: no exponent of the quotient gets beyond the difference of
  the degrees of dividend and divisor.
* `reflTransGen_divideFrom`: the division is a run of such passes. It ends below the divisor
  (`degree_remainder_lt`).
* `divide_total`: these facts together, for all floating-point coefficients.
-/

universe u

namespace SparsePoly.Poly

open Relation (ReflTransGen)

section Run

variable {α : Type u} [Zero α] [BEq α] [Add α] [Mul α] [Div α] [Neg α] [LawfulNegZero α]

/-- A pass of the division by `d`, which is led by `lead`: from a quotient with its remainder to the
next ones. There is none if the remainder is below the divisor. -/
inductive Pass (d : Poly α) (lead : Term α) : Division α → Division α → Prop where
  /-- The multiple of the divisor that has the leading term of the remainder is moved. -/
  | step {v : Division α} {top : Term α} (htop : v.remainder.leadingTerm? = some top)
    (hle : lead.exponent ≤ top.exponent) :
    Pass d lead v ⟨v.quotient + ratio top lead, reduce v.remainder d top lead⟩

variable {d : Poly α} {lead : Term α}

/-! ## One pass -/

/-- What a pass on a remainder that is led by `top` does to exponents on its way to `w`. -/
structure Descent (d : Poly α) (lead top : Term α) (w : Division α) : Prop where
  /-- The exponent of the divisor can be taken away. -/
  lead_le : lead.exponent ≤ top.exponent
  /-- The exponents of the multiple of the divisor do not wrap around. -/
  sum_lt : ∀ t ∈ d.terms, ∀ u ∈ (ratio top lead).terms,
    t.exponent.toNat + u.exponent.toNat < UInt32.size
  /-- The leading exponent falls, if there is anything left. -/
  degree_lt : ∀ e ∈ w.remainder.degree?, e < top.exponent

/-- Whatever the coefficients are, a pass lowers the leading exponent. -/
theorem Pass.descent (hd : d.leadingTerm? = some lead) {v w : Division α} (h : Pass d lead v w) :
    ∃ top, v.remainder.leadingTerm? = some top ∧ Descent d lead top w := by
  cases h with
  | @step top htop hle =>
    refine ⟨top, htop, hle, fun t ht u hu => ?_, fun e he => ?_⟩
    · have hsum := exponent_add_le_of_mem_ratio hd hle ht hu
      exact Nat.lt_of_le_of_lt hsum top.exponent.toNat_lt_size
    · obtain ⟨x, hx, rfl⟩ := exists_mem_of_mem_degree? he
      exact exponent_lt_of_mem_reduce htop hd hle hx

/-- The exponents of a quotient and a remainder on the way lie within the degree of the dividend `p`. -/
structure WithinDegree (p : Poly α) (lead : Term α) (v : Division α) : Prop where
  /-- Multiples of the divisor by the quotient do not have a degree above that of the dividend. -/
  quotient : ∀ t ∈ v.quotient.terms,
    ∃ e ∈ p.degree?, t.exponent.toNat + lead.exponent.toNat ≤ e.toNat
  /-- The remainder does not have a degree above that of the dividend. -/
  remainder : ∀ t ∈ v.remainder.terms, ∃ e ∈ p.degree?, t.exponent ≤ e

omit [Mul α] [Div α] [Add α] [Neg α] [LawfulNegZero α] in
theorem withinDegree_zero (p : Poly α) (lead : Term α) : WithinDegree p lead ⟨0, p⟩ := by
  exact ⟨by simp, fun t ht => exists_mem_degree?_of_mem ht⟩

/-- A pass keeps exponents within the degree of the dividend. -/
theorem WithinDegree.pass {p : Poly α} (hd : d.leadingTerm? = some lead) {v w : Division α}
    (hv : WithinDegree p lead v) (h : Pass d lead v w) : WithinDegree p lead w := by
  cases h with
  | @step top htop hle =>
    obtain ⟨e, he, htope⟩ := hv.remainder top (leadingTerm?_mem htop)
    refine ⟨fun t ht => ?_, fun t ht => ?_⟩
    · rcases TermList.exponent_of_mem_merge ht with ⟨u, hu, hut⟩ | ⟨u, hu, hut⟩
      · rw [← hut]
        exact hv.quotient u hu
      · -- the new exponent and that of the divisor add up to the leading exponent
        have hsum := exponent_add_le_of_mem_ratio hd hle (leadingTerm?_mem hd) hu
        have htope' := UInt32.le_iff_toNat_le.1 htope
        rw [hut] at hsum
        exact ⟨e, he, by omega⟩
    · have hlt := exponent_lt_of_mem_reduce htop hd hle ht
      exact ⟨e, he, UInt32.le_trans (UInt32.le_of_lt hlt) htope⟩

/-! ## The whole run -/

/-- What holds of the dividend within its own degree holds all the way. -/
theorem WithinDegree.run {p : Poly α} (hd : d.leadingTerm? = some lead) {v : Division α}
    (h : ReflTransGen (Pass d lead) ⟨0, p⟩ v) : WithinDegree p lead v := by
  induction h with
  | refl => exact withinDegree_zero p lead
  | tail _ hpass ih => exact ih.pass hd hpass

/-- The division is a run of passes. -/
theorem reflTransGen_divideFrom (hd : d.leadingTerm? = some lead) (q r : Poly α) :
    ReflTransGen (Pass d lead) ⟨q, r⟩ (divideFrom d lead hd q r) := by
  induction q, r using divideFrom.induct d lead hd with
  | case1 q r hr =>
    rw [divideFrom_of_none hr]
  | case2 q r top hr hlt =>
    rw [divideFrom_of_lt hr hlt]
  | case3 q r top hr hlt _ ih =>
    rw [divideFrom_of_not_lt hr hlt]
    exact ReflTransGen.head (Pass.step (v := ⟨q, r⟩) hr (UInt32.not_lt.1 hlt)) ih

/-- The loop on plain rows, which knows of no invariant, ends after as many passes as the dividend is
high. -/
theorem storage_divide_terms (hd : d.leadingTerm? = some lead) (p : Poly α) {passes : ℕ}
    (hpasses : p.height ≤ passes) :
    Storage.divide passes p.terms d.terms =
      some (.ok ((divideFrom d lead hd 0 p).quotient.terms,
        (divideFrom d lead hd 0 p).remainder.terms)) := by
  have hloop := Storage.divideFrom_terms d lead hd 0 p hpasses
  rw [Storage.divide, show d.terms.getLast? = some lead from hd]
  exact congrArg (Option.map Except.ok) hloop

end Run

/-- Whatever the floating-point coefficients are, division fails exactly if the divisor is zero.
Otherwise it has a result, which the loop on plain rows reaches after at most one pass for each
exponent of the dividend, and which is a run of passes, each of which lowers the leading exponent of
the remainder. In the end the remainder is below the divisor, and the quotient is not above the
difference of the degrees. A dividend below the divisor is left as it is. -/
theorem divide_total (p d : Poly Float) :
    (p.divide d = .error .divisionByZero ↔ d = 0) ∧
      (d ≠ 0 → ∃ lead v, d.leadingTerm? = some lead ∧ p.divide d = .ok v ∧
        (∀ spare, Storage.divide (p.height + spare) p.terms d.terms =
          some (.ok (v.quotient.terms, v.remainder.terms))) ∧
        ReflTransGen (Pass d lead) ⟨0, p⟩ v ∧
        (∀ u w, Pass d lead u w →
          ∃ top, u.remainder.leadingTerm? = some top ∧ Descent d lead top w) ∧
        (∀ e ∈ v.remainder.degree?, e < lead.exponent) ∧
        (∀ e ∈ v.quotient.degree?,
          ∃ f ∈ p.degree?, e.toNat + lead.exponent.toNat ≤ f.toNat) ∧
        ((∀ f ∈ p.degree?, f < lead.exponent) → v = ⟨0, p⟩)) := by
  cases hd : d.leadingTerm? with
  | none =>
    have hzero : d = 0 := Poly.ext (List.getLast?_eq_none_iff.1 hd)
    exact ⟨iff_of_true (divide_of_none p hd) hzero, fun hne => absurd hzero hne⟩
  | some lead =>
    have hne : d ≠ 0 := by
      rintro rfl
      cases hd
    have hok := divide_of_leadingTerm? p hd
    have hnofault : p.divide d ≠ .error .divisionByZero := by
      rw [hok]
      exact fun h => nomatch h
    have hrun := reflTransGen_divideFrom hd 0 p
    refine ⟨iff_of_false hnofault hne, fun _ => ⟨lead, _, rfl, hok, ?loop, hrun,
      fun u w h => h.descent hd, degree_remainder_lt hd 0 p, ?quotient,
      divideFrom_of_degree_lt hd⟩⟩
    case loop => exact fun spare => storage_divide_terms hd p (Nat.le_add_right _ _)
    case quotient =>
      intro e he
      obtain ⟨t, ht, rfl⟩ := Option.map_eq_some_iff.1 he
      exact (WithinDegree.run hd hrun).quotient t (leadingTerm?_mem ht)

/-- The ratio of the leading coefficients overflows in the first pass, from the greatest exponent on. -/
theorem divide_total_not_finite :
    (ofTerms [⟨2, 1e-308⟩, ⟨1, 1e308⟩] : Poly Float) ≠ 0 ∧
      ∃ v, (ofTerms [⟨4294967295, 1e308⟩, ⟨0, 1⟩] : Poly Float).divide
          (ofTerms [⟨2, 1e-308⟩, ⟨1, 1e308⟩]) = .ok v ∧
        (∀ e ∈ v.remainder.degree?, e < 2) ∧
        ∀ e ∈ v.quotient.degree?, e.toNat + 2 ≤ 4294967295 := by
  have hd : (ofTerms [⟨2, 1e-308⟩, ⟨1, 1e308⟩] : Poly Float).degree? = some 2 := by
    decide +kernel
  have hp : (ofTerms [⟨4294967295, 1e308⟩, ⟨0, 1⟩] : Poly Float).degree? = some 4294967295 := by
    decide +kernel
  have hne : (ofTerms [⟨2, 1e-308⟩, ⟨1, 1e308⟩] : Poly Float) ≠ 0 := by
    intro h
    rw [h] at hd
    cases hd
  obtain ⟨lead, v, hlead, hv, -, -, -, hremainder, hquotient, -⟩ :=
    (divide_total (ofTerms [⟨4294967295, 1e308⟩, ⟨0, 1⟩]) _).2 hne
  rw [degree?, hlead] at hd
  have htwo : lead.exponent = 2 := Option.some.inj hd
  rw [htwo] at hremainder hquotient
  refine ⟨hne, v, hv, hremainder, fun e he => ?_⟩
  obtain ⟨f, hf, hle⟩ := hquotient e he
  rw [hp] at hf
  cases hf
  exact hle

end SparsePoly.Poly
