import Mathlib.Data.List.Count
import Mathlib.Data.List.Nodup
import SparsePoly.Poly.Coefficient
import SparsePoly.Proofs.Storage.Loops
import SparsePoly.Scalar.Binary64

/-!
# Sums term by term

Sums and differences go over both lists of terms in one pass. Everything else that adds terms puts
them into the list one after the other, where a place is searched for each of them. Both ways lead to
the same terms, whatever the coefficients are.

* `ofTerms_of_perm`: a polynomial is the sum of its terms, in any order.
* `extend_eq_add_ofTerms`: terms of different exponents may be added one by one or all at once.
* `mem_terms_add_iff`, `mem_terms_sub_iff`: which terms a sum and a difference have, read off the terms
  of both operands (`Combined`).
* `add_and_sub_terms`: these facts together, for floating-point coefficients.

No coefficient at one exponent hangs on those at other exponents, so each statement comes down to what
happens at a single exponent: at most one term of a polynomial meets at most one term of the other.
-/

universe u

namespace SparsePoly

variable {α : Type u} [Zero α] [BEq α]

/-! ## One coefficient -/

section Accumulate

variable [Add α]

theorem accumulate_none_of_nonzero {c : α} (hc : (c == 0) = false) : accumulate none c = some c := by
  rw [accumulate, hc]
  rfl

/-- A coefficient is added to what there is as the sum that it makes alone. -/
theorem accumulate_eq_sumNonzero (c? : Option α) (c : α) :
    accumulate c? c = sumNonzero c? (accumulate none c) := by
  unfold accumulate
  by_cases hc : (c == 0) = true
  · rw [if_pos hc, if_pos hc, sumNonzero_none_right]
  · rw [if_neg hc, if_neg hc]
    match c? with
    | none => rfl
    | some d => rfl

/-- At most one coefficient is added as a whole. -/
theorem foldl_accumulate_eq_sumNonzero {cs : List α} (hcs : cs.length ≤ 1) (c? : Option α) :
    cs.foldl accumulate c? = sumNonzero c? (cs.foldl accumulate none) := by
  match cs, hcs with
  | [], _ => rw [List.foldl_nil, List.foldl_nil, sumNonzero_none_right]
  | [c], _ => exact accumulate_eq_sumNonzero c? c

end Accumulate

/-! ## Terms of different exponents -/

namespace TermList

omit [Zero α] [BEq α] in
theorem nodup_exponents {ts : List (Term α)} (h : ts.Pairwise fun t u => t.exponent < u.exponent) :
    (ts.map (·.exponent)).Nodup :=
  List.pairwise_map.2 (h.imp UInt32.ne_of_lt)

omit [Zero α] [BEq α] in
/-- Of terms with different exponents, at most one has a given exponent. -/
theorem length_filter_exponent_le {ts : List (Term α)} (hts : (ts.map (·.exponent)).Nodup)
    (e : UInt32) : (ts.filter (·.exponent == e)).length ≤ 1 := by
  have hcount := List.nodup_iff_count_le_one.1 hts e
  rwa [List.count, List.countP_map, List.countP_eq_length_filter] at hcount

omit [Zero α] [BEq α] in
/-- The coefficient at an exponent is that of the first term that has it. -/
theorem coefficient?_eq_head? (e : UInt32) (ts : List (Term α)) :
    coefficient? e ts = ((ts.filter (·.exponent == e)).map (·.coefficient)).head? := by
  induction ts with
  | nil => rfl
  | cons t ts ih =>
    rw [coefficient?_cons, List.filter_cons]
    by_cases ht : t.exponent = e
    · rw [if_pos ht, if_pos (beq_iff_eq.2 ht), List.map_cons, List.head?_cons]
    · rw [if_neg ht, if_neg fun h => ht (beq_iff_eq.1 h), ih]

end TermList

namespace Poly

open TermList

section Add

variable [Add α]

omit [Add α] in
/-- A polynomial has no term of a given exponent, or one. -/
theorem filter_exponent_cases (p : Poly α) (e : UInt32) :
    p.terms.filter (·.exponent == e) = [] ∨
      ∃ t ∈ p.terms, p.terms.filter (·.exponent == e) = [t] := by
  have hlength := length_filter_exponent_le (nodup_exponents p.canonical.ascending) e
  rcases Nat.le_one_iff_eq_zero_or_eq_one.1 hlength with hzero | hone
  · exact Or.inl (List.length_eq_zero_iff.1 hzero)
  · obtain ⟨t, ht⟩ := List.length_eq_one_iff.1 hone
    have hmem : t ∈ p.terms.filter (·.exponent == e) := by rw [ht]; exact List.mem_singleton.2 rfl
    exact Or.inr ⟨t, (List.mem_filter.1 hmem).1, ht⟩

/-- The sum of the terms of a polynomial, in any order, is the polynomial. -/
theorem ofTerms_of_perm {ts : List (Term α)} {p : Poly α} (h : ts.Perm p.terms) : ofTerms ts = p := by
  apply ext_coefficient?
  intro e
  have hfilter := h.filter (·.exponent == e)
  rw [coefficient?_ofTerms, coefficient?, coefficient?_eq_head?]
  -- at most one term has the exponent, so the order is lost
  rcases p.filter_exponent_cases e with hnil | ⟨t, ht, hone⟩
  · rw [hnil] at hfilter
    rw [hnil, hfilter.eq_nil]
    rfl
  · rw [hone] at hfilter
    rw [hone, hfilter.eq_singleton]
    exact accumulate_none_of_nonzero (p.canonical.nonzero t ht)

/-- Terms of different exponents may be added one by one or all at once. -/
theorem extend_eq_add_ofTerms (p : Poly α) {ts : List (Term α)} (hts : (ts.map (·.exponent)).Nodup) :
    p.extend ts = p + ofTerms ts := by
  apply ext_coefficient?
  intro e
  rw [coefficient?_extend, coefficient?_add, coefficient?_ofTerms]
  -- at one exponent, at most one coefficient is added
  apply foldl_accumulate_eq_sumNonzero
  rw [List.length_map]
  exact length_filter_exponent_le hts e

/-- The one pass over both lists adds the terms of the second one after the other. -/
theorem add_eq_extend (p q : Poly α) : p + q = p.extend q.terms := by
  rw [extend_eq_add_ofTerms p (nodup_exponents q.canonical.ascending), ofTerms_of_perm (.refl _)]

end Add

/-! ## The terms of a sum -/

/-- There is no coefficient exactly where there is no term. -/
theorem coefficient?_eq_none_iff {p : Poly α} {e : UInt32} :
    p.coefficient? e = none ↔ ∀ t ∈ p.terms, t.exponent ≠ e := by
  constructor
  · intro h t ht he
    rw [← he, mem_terms_iff.1 ht] at h
    cases h
  · exact TermList.coefficient?_eq_none

/-- The terms that those of two polynomials make if the coefficients of the second one count as `f`
says. -/
inductive Combined [Add α] (f : α → α) (p q : Poly α) : Term α → Prop where
  /-- An exponent of the first polynomial alone. -/
  | left {t : Term α} (ht : t ∈ p.terms) (hq : ∀ u ∈ q.terms, u.exponent ≠ t.exponent) :
    Combined f p q t
  /-- An exponent of the second polynomial alone. -/
  | right {u : Term α} (hu : u ∈ q.terms) (hp : ∀ t ∈ p.terms, t.exponent ≠ u.exponent) :
    Combined f p q ⟨u.exponent, f u.coefficient⟩
  /-- An exponent of both, if the coefficients do not add up to zero. -/
  | both {t u : Term α} (ht : t ∈ p.terms) (hu : u ∈ q.terms) (he : t.exponent = u.exponent)
    (hsum : (t.coefficient + f u.coefficient == 0) = false) :
    Combined f p q ⟨t.exponent, t.coefficient + f u.coefficient⟩

/-- What two polynomials make at an exponent is the sum of their coefficients there, if there is
one. -/
theorem combined_iff [Add α] {f : α → α} {p q : Poly α} {t : Term α} :
    Combined f p q t ↔
      sumNonzero (p.coefficient? t.exponent) ((q.coefficient? t.exponent).map f) =
        some t.coefficient := by
  constructor
  · intro h
    cases h with
    | left ht hq =>
      rw [mem_terms_iff.1 ht, coefficient?_eq_none_iff.2 hq]
      rfl
    | right hu hp =>
      rw [mem_terms_iff.1 hu, coefficient?_eq_none_iff.2 hp]
      rfl
    | both ht hu he hsum =>
      rw [mem_terms_iff.1 ht, he, mem_terms_iff.1 hu]
      show nonzero? _ = _
      rw [nonzero?, hsum]
      rfl
  · -- back from the sum: which of the two coefficients there are tells the case
    obtain ⟨e, c⟩ := t
    intro h
    simp only at h
    cases hp : p.coefficient? e with
    | none =>
      rw [hp, sumNonzero_none_left] at h
      obtain ⟨d, hd, rfl⟩ := Option.map_eq_some_iff.1 h
      exact .right (u := ⟨e, d⟩) (mem_terms_iff.2 hd) (coefficient?_eq_none_iff.1 hp)
    | some c₁ =>
      have ht : (⟨e, c₁⟩ : Term α) ∈ p.terms := mem_terms_iff.2 hp
      cases hq : q.coefficient? e with
      | none =>
        rw [hp, hq] at h
        cases h
        exact .left ht (coefficient?_eq_none_iff.1 hq)
      | some c₂ =>
        have hu : (⟨e, c₂⟩ : Term α) ∈ q.terms := mem_terms_iff.2 hq
        rw [hp, hq] at h
        change nonzero? (c₁ + f c₂) = some c at h
        unfold nonzero? at h
        split at h
        · cases h
        · rename_i hsum
          cases h
          exact .both ht hu rfl (Bool.eq_false_iff.2 hsum)

/-- The terms of a sum. -/
theorem mem_terms_add_iff [Add α] {p q : Poly α} {t : Term α} :
    t ∈ (p + q).terms ↔ Combined (fun c => c) p q t := by
  rw [combined_iff, mem_terms_iff, coefficient?_add, Option.map_id']

/-- The terms of a difference, in which the coefficients of the second polynomial count as their
opposites. -/
theorem mem_terms_sub_iff [Add α] [Neg α] [LawfulNegZero α] {p q : Poly α} {t : Term α} :
    t ∈ (p - q).terms ↔ Combined (fun c => -c) p q t := by
  rw [combined_iff, mem_terms_iff, coefficient?_sub]

/-- Whatever the floating-point coefficients are, the one pass over both lists of terms comes to the
same terms as putting those of the second polynomial into the first one by one, each at the place that
bisection finds for it, with the opposite coefficients in the case of a difference. The result has the
terms of either polynomial alone and the sums that do not equal zero, and no others. -/
theorem add_and_sub_terms (p q : Poly Float) :
    (p + q = p.extend q.terms ∧ (p + q).terms = Storage.putAll p.terms q.terms ∧
        ∀ t, t ∈ (p + q).terms ↔ Combined (fun c => c) p q t) ∧
      (p - q = p.extend (q.terms.map (-·)) ∧
        (p - q).terms = Storage.putAll p.terms (q.terms.map (-·)) ∧
        ∀ t, t ∈ (p - q).terms ↔ Combined (fun c => -c) p q t) := by
  have hadd : p + q = p.extend q.terms := add_eq_extend p q
  have hsub : p - q = p.extend (q.terms.map (-·)) := add_eq_extend p (-q)
  refine ⟨⟨hadd, ?_, fun _ => mem_terms_add_iff⟩, hsub, ?_, fun _ => mem_terms_sub_iff⟩
  · rw [Storage.putAll_terms, hadd]
  · rw [Storage.putAll_terms, hsub]

end Poly

end SparsePoly
