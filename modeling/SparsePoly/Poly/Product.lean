import SparsePoly.Fault
import SparsePoly.Poly.Basic

/-!
# Products of polynomials

The product of two polynomials adds up the products of their terms, in a fixed order: the terms of
the right operand one after the other, and for each of them those of the left operand
(`termPairs`). With floating-point coefficients the order decides the rounding, so both products
below go through the same list of pairs.

`*` lets the sum of two exponents wrap around; `mul?` reports the first pair whose exponents add up
to more than an exponent can hold.
-/

universe u

namespace SparsePoly.Poly

variable {α : Type u} [Zero α] [BEq α]

/-- The pairs of a term of `q` and a term of `p`, in the order in which products are added up. -/
def termPairs (p q : Poly α) : List (Term α × Term α) :=
  q.terms.flatMap fun u => p.terms.map fun t => (u, t)

/-- The pairs are those of a term of either operand. -/
theorem mem_termPairs {p q : Poly α} {u t : Term α} :
    (u, t) ∈ termPairs p q ↔ u ∈ q.terms ∧ t ∈ p.terms := by
  simp only [termPairs, List.mem_flatMap, List.mem_map, Prod.mk.injEq]
  constructor
  · rintro ⟨u', hu', t', ht', rfl, rfl⟩
    exact ⟨hu', ht'⟩
  · rintro ⟨hu, ht⟩
    exact ⟨u, hu, t, ht, rfl, rfl⟩

/-- Adding terms brings in no exponents but theirs. -/
theorem exponent_of_mem_extend [Add α] {p : Poly α} {ts : List (Term α)} {x : Term α}
    (h : x ∈ (p.extend ts).terms) :
    (∃ t ∈ ts, t.exponent = x.exponent) ∨ ∃ u ∈ p.terms, u.exponent = x.exponent := by
  -- on the terms: each of them brings in its own exponent at most
  induction ts generalizing p with
  | nil => exact Or.inr ⟨x, h, rfl⟩
  | cons t ts ih =>
    rcases ih (p := p.addTerm t) h with ⟨v, hv, hvx⟩ | ⟨v, hv, hvx⟩
    · exact Or.inl ⟨v, List.mem_cons_of_mem _ hv, hvx⟩
    · rcases TermList.exponent_of_mem_add hv with hvt | ⟨w, hw, hwv⟩
      · exact Or.inl ⟨t, List.mem_cons_self, by rw [← hvt, hvx]⟩
      · exact Or.inr ⟨w, hw, hwv.trans hvx⟩

variable [Add α] [Mul α]

/-- The product. Exponents add up modulo `2 ^ 32`. -/
instance : Mul (Poly α) where
  mul p q := ofTerms ((termPairs p q).map fun (u, t) => u * t)

/-- Whether the sum of two exponents is too large for an exponent. -/
def exponentsOverflow (d e : UInt32) : Bool := UInt32.size ≤ d.toNat + e.toNat

/-- The product, unless the exponents of two terms add up to more than an exponent can hold. -/
def mul? (p q : Poly α) : Except Fault (Poly α) :=
  (termPairs p q).foldlM (fun r (u, t) =>
    if exponentsOverflow u.exponent t.exponent then
      .error (.exponentOverflow t.exponent u.exponent)
    else .ok (r.addTerm (u * t))) 0

/-- The product builds up the products of the pairs, in their order. -/
theorem mul_def (p q : Poly α) : p * q = ofTerms ((termPairs p q).map fun (u, t) => u * t) := rfl

/-- The guarded product is the product, unless it comes upon a pair of terms whose exponents add up
to more than an exponent can hold. The first such pair is reported. -/
theorem mul?_eq (p q : Poly α) :
    p.mul? q =
      match (termPairs p q).find? fun (u, t) => exponentsOverflow u.exponent t.exponent with
      | some (u, t) => .error (.exponentOverflow t.exponent u.exponent)
      | none => .ok (p * q) := by
  rw [mul?, mul_def, ofTerms]
  -- on the pairs, for any polynomial that was built up before
  generalize (0 : Poly α) = r
  induction termPairs p q generalizing r with
  | nil => rfl
  | cons pair pairs ih =>
    obtain ⟨u, t⟩ := pair
    rw [List.foldlM_cons, List.find?_cons, List.map_cons, extend_cons]
    simp only
    cases exponentsOverflow u.exponent t.exponent with
    | true => rfl
    | false => exact ih _

/-- The guarded product has a result if no sum of exponents is too large, and then it is the product. -/
theorem mul?_eq_ok_iff {p q m : Poly α} :
    p.mul? q = .ok m ↔
      (∀ u ∈ q.terms, ∀ t ∈ p.terms, exponentsOverflow u.exponent t.exponent = false) ∧
        m = p * q := by
  have hpairs :
      ((termPairs p q).find? fun (u, t) => exponentsOverflow u.exponent t.exponent) = none ↔
        ∀ u ∈ q.terms, ∀ t ∈ p.terms, exponentsOverflow u.exponent t.exponent = false := by
    simp only [List.find?_eq_none, Prod.forall, mem_termPairs, and_imp, Bool.not_eq_true]
    exact ⟨fun h u hu t ht => h u t hu ht, fun h u t hu ht => h u hu t ht⟩
  rw [mul?_eq, ← hpairs]
  split
  · rename_i hsome
    simp [hsome]
  · rename_i hnone
    simp [hnone, eq_comm]

/-- Each exponent of a product is the sum of an exponent of either operand. -/
theorem exponent_of_mem_mul {p q : Poly α} {x : Term α} (h : x ∈ (p * q).terms) :
    ∃ u ∈ q.terms, ∃ t ∈ p.terms, x.exponent = u.exponent + t.exponent := by
  rcases exponent_of_mem_extend h with ⟨v, hv, hvx⟩ | ⟨v, hv, _⟩
  · obtain ⟨⟨u, t⟩, hut, rfl⟩ := List.mem_map.1 hv
    obtain ⟨hu, ht⟩ := mem_termPairs.1 hut
    exact ⟨u, hu, t, ht, hvx.symm⟩
  · simp at hv

end SparsePoly.Poly
