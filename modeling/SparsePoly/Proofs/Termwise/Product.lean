import SparsePoly.Proofs.Termwise.Sum

/-!
# Products term by term

A product adds up the products of all pairs of terms. On the way, terms are put in between others, summed,
taken out and put in again, for all exponents in turn. Seen at one exponent there is an order to it: the
terms of the right operand come by ascending exponents, and each of them meets at most one term of the left
operand there, even where sums of exponents wrap around (`length_partners_le`).

* `coefficient?_mul_eq_foldl`: the coefficient of a product at an exponent, from what the terms of the right
  operand contribute there (`contributions`).
* `contributions_of_leadingTerm?`: at the sum of the degrees, if it fits, the leading terms contribute and
  no others do.
* `mem_terms_mul_iff`: these facts together, for floating-point coefficients.
-/

universe u

namespace SparsePoly.Poly

section Terms

variable {α : Type u} [Zero α] [BEq α]

/-- The terms of `p` whose exponents add up with `d` to `e`, modulo `2 ^ 32`. -/
def partners (p : Poly α) (d e : UInt32) : List (Term α) :=
  p.terms.filter fun t => (t.exponent.toNat + d.toNat) % UInt32.size = e.toNat

/-- The sum modulo `2 ^ 32` is the sum of exponents. -/
theorem mod_eq_toNat_iff {d d' e : UInt32} :
    (d'.toNat + d.toNat) % UInt32.size = e.toNat ↔ d + d' = e := by
  rw [← UInt32.toNat_inj, UInt32.toNat_add, Nat.add_comm]

/-- A term has one partner at most: no two exponents differ by a multiple of `2 ^ 32`. -/
theorem length_partners_le (p : Poly α) (d e : UInt32) : (p.partners d e).length ≤ 1 := by
  have hexponent : p.partners d e = p.terms.filter (·.exponent == e - d) := by
    refine List.filter_congr fun t _ => ?_
    -- the exponent of a partner is the difference, which wraps around as well
    rw [Bool.eq_iff_iff, decide_eq_true_iff, mod_eq_toNat_iff, beq_iff_eq]
    constructor
    · rintro rfl
      rw [UInt32.add_comm, UInt32.add_sub_cancel]
    · intro h
      rw [h, UInt32.add_comm, UInt32.sub_add_cancel]
  rw [hexponent]
  exact TermList.length_filter_exponent_le (TermList.nodup_exponents p.canonical.ascending) _

/-- What the terms of `q`, by ascending exponents, contribute to the coefficient of `p * q` at `e`. -/
def contributions [Mul α] (p q : Poly α) (e : UInt32) : List α :=
  q.terms.flatMap fun u => (p.partners u.exponent e).map fun t => u.coefficient * t.coefficient

/-- Of all pairs of terms, those that meet at `e`. -/
theorem filter_termPairs (p q : Poly α) (e : UInt32) :
    ((termPairs p q).filter fun (u, t) => u.exponent + t.exponent == e) =
      q.terms.flatMap fun u => (p.partners u.exponent e).map fun t => (u, t) := by
  have hpartner : ∀ u t : Term α, (u.exponent + t.exponent == e) =
      decide ((t.exponent.toNat + u.exponent.toNat) % UInt32.size = e.toNat) := by
    intro u t
    rw [Bool.eq_iff_iff, decide_eq_true_iff, mod_eq_toNat_iff, beq_iff_eq]
  simp only [termPairs, List.filter_flatMap, List.filter_map, Function.comp_def, hpartner, partners]

/-- A coefficient of a product accumulates what the terms of the right operand contribute. -/
theorem coefficient?_mul_eq_foldl [Add α] [Mul α] (p q : Poly α) (e : UInt32) :
    (p * q).coefficient? e = (contributions p q e).foldl accumulate none := by
  rw [coefficient?_mul, filter_termPairs, List.map_flatMap, contributions]
  simp only [List.map_map, Function.comp_def]

/-! ## The leading terms -/

section Leading

variable {p q : Poly α} {s u : Term α}

/-- The leading term is the only partner at the greatest exponent that there can be. -/
theorem partners_of_leadingTerm? (hs : p.leadingTerm? = some s) {d e : UInt32}
    (he : e.toNat = s.exponent.toNat + d.toNat) : p.partners d e = [s] := by
  obtain ⟨ts, hts, hbelow⟩ := exists_terms_eq_append hs
  have hlt := e.toNat_lt_size
  rw [partners, hts, List.filter_append, List.filter_eq_nil_iff.2, List.nil_append,
    List.filter_cons_of_pos, List.filter_nil]
  · rw [decide_eq_true_iff, ← he, Nat.mod_eq_of_lt hlt]
  · -- a sum with a lower exponent is lower, without wrapping around
    intro t ht
    have hlow := UInt32.lt_iff_toNat_lt.1 (hbelow t ht)
    rw [decide_eq_true_iff, Nat.mod_eq_of_lt (by omega)]
    omega

/-- Beyond that exponent there is no partner. -/
theorem partners_eq_nil (hs : p.leadingTerm? = some s) {d e : UInt32}
    (he : s.exponent.toNat + d.toNat < e.toNat) : p.partners d e = [] := by
  have hlt := e.toNat_lt_size
  rw [partners, List.filter_eq_nil_iff]
  intro t ht
  have hle := UInt32.le_iff_toNat_le.1 (exponent_le_of_leadingTerm? hs ht)
  rw [decide_eq_true_iff, Nat.mod_eq_of_lt (by omega)]
  omega

variable [Mul α]

/-- The leading terms alone contribute at the sum of the degrees. -/
theorem contributions_of_leadingTerm? (hs : p.leadingTerm? = some s) (hu : q.leadingTerm? = some u)
    (hsum : s.exponent.toNat + u.exponent.toNat < UInt32.size) :
    contributions p q (s.exponent + u.exponent) = [u.coefficient * s.coefficient] := by
  have he : (s.exponent + u.exponent).toNat = s.exponent.toNat + u.exponent.toNat := by
    rw [UInt32.toNat_add]
    exact Nat.mod_eq_of_lt hsum
  obtain ⟨us, hus, hbelow⟩ := exists_terms_eq_append hu
  have hnil : (us.flatMap fun v => (p.partners v.exponent (s.exponent + u.exponent)).map fun t =>
      v.coefficient * t.coefficient) = [] := by
    rw [List.flatMap_eq_nil_iff]
    intro v hv
    have hlt := UInt32.lt_iff_toNat_lt.1 (hbelow v hv)
    rw [partners_eq_nil hs (by omega), List.map_nil]
  rw [contributions, hus, List.flatMap_append, hnil, List.nil_append, List.flatMap_singleton,
    partners_of_leadingTerm? hs he, List.map_singleton]

variable [Add α]

/-- No exponent of a product is above the sum of the degrees. -/
theorem exponent_le_of_mem_mul (hs : p.leadingTerm? = some s) (hu : q.leadingTerm? = some u) {t : Term α}
    (ht : t ∈ (p * q).terms) : t.exponent.toNat ≤ s.exponent.toNat + u.exponent.toNat := by
  obtain ⟨v, hv, w, hw, he⟩ := exponent_of_mem_mul ht
  have hvle := UInt32.le_iff_toNat_le.1 (exponent_le_of_leadingTerm? hu hv)
  have hwle := UInt32.le_iff_toNat_le.1 (exponent_le_of_leadingTerm? hs hw)
  rw [he, UInt32.toNat_add]
  exact Nat.le_trans (Nat.mod_le ..) (by omega)

end Leading

end Terms

/-- Whatever the floating-point coefficients are, the terms of a product are those whose coefficient is
what the terms of the right operand contribute at their exponent, accumulated by ascending exponents. Each
of them meets at most one term of the left operand there, modulo `2 ^ 32`. If the sum of the degrees fits,
no exponent is above it, and the coefficient there is the product of the leading coefficients, unless that
equals zero. The nest of loops over plain rows of terms does the same. -/
theorem mem_terms_mul_iff (p q : Poly Float) :
    Storage.product p.terms q.terms = (p * q).terms ∧
      (∀ t, t ∈ (p * q).terms ↔
        (contributions p q t.exponent).foldl accumulate none = some t.coefficient) ∧
      (∀ e, (p * q).coefficient? e = (contributions p q e).foldl accumulate none) ∧
      (∀ d e, (p.partners d e).length ≤ 1) ∧
      ∀ s u, p.leadingTerm? = some s → q.leadingTerm? = some u →
        s.exponent.toNat + u.exponent.toNat < UInt32.size →
        (∀ t ∈ (p * q).terms, t.exponent.toNat ≤ s.exponent.toNat + u.exponent.toNat) ∧
          (p * q).coefficient? (s.exponent + u.exponent) = nonzero? (u.coefficient * s.coefficient) := by
  refine ⟨Storage.product_terms p q, fun t => ?_, coefficient?_mul_eq_foldl p q, p.length_partners_le, ?_⟩
  · rw [mem_terms_iff, coefficient?_mul_eq_foldl]
  · intro s u hs hu hsum
    refine ⟨fun t ht => exponent_le_of_mem_mul hs hu ht, ?_⟩
    rw [coefficient?_mul_eq_foldl, contributions_of_leadingTerm? hs hu hsum]
    rfl

/-- The product of the leading coefficients underflows, at the greatest exponent that there is. -/
theorem mem_terms_mul_iff_underflow :
    ∃ p q : Poly Float, p.leadingTerm? = some ⟨4294967290, 1e-200⟩ ∧
      q.leadingTerm? = some ⟨5, 1e-200⟩ ∧
      (∀ t ∈ (p * q).terms, t.exponent.toNat ≤ 4294967295) ∧
      (p * q).coefficient? 4294967295 = none := by
  have hs : (ofTerms [⟨4294967290, 1e-200⟩, ⟨0, 3⟩] : Poly Float).leadingTerm? =
      some ⟨4294967290, 1e-200⟩ := by
    decide +kernel
  have hu : (ofTerms [⟨5, 1e-200⟩, ⟨0, 2⟩] : Poly Float).leadingTerm? = some ⟨5, 1e-200⟩ := by
    decide +kernel
  obtain ⟨-, -, -, -, hlead⟩ := mem_terms_mul_iff (ofTerms [⟨4294967290, 1e-200⟩, ⟨0, 3⟩])
    (ofTerms [⟨5, 1e-200⟩, ⟨0, 2⟩])
  obtain ⟨hle, hcoefficient⟩ := hlead _ _ hs hu (by decide)
  refine ⟨_, _, hs, hu, hle, hcoefficient.trans ?_⟩
  decide +kernel

end SparsePoly.Poly
