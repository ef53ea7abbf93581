import Mathlib.Order.Bounds.Defs
import SparsePoly.Proofs.Storage.Loops
import SparsePoly.Scalar.Binary64

/-!
# The first overflow of a product

The guarded product gives up at the first pair of terms whose exponents add up to more than an exponent
can hold. Which pair that is does not hang on the coefficients: pairs come by ascending exponents of the
right operand first and of the left operand second (`pairwise_termPairs`), so of all pairs that overflow
the one reported has the least exponent of the right operand, and with it the least one of the left
operand (`FirstOverflow`).

In exchange, there is a result if the sum of the degrees fits (`forall_exponentsOverflow_iff`), and then it
is the product (`mul?_eq_ok_or_error`).
-/

universe u

namespace SparsePoly.Poly

/-- What is found first in a row that ascends comes before everything else that could have been found. -/
theorem eq_or_rel_of_find?_eq_some {β : Type*} {R : β → β → Prop} {found : β → Bool} {xs : List β}
    (hxs : xs.Pairwise R) {x y : β} (hx : xs.find? found = some x) (hy : y ∈ xs)
    (hfound : found y = true) : y = x ∨ R x y := by
  obtain ⟨-, front, behind, rfl, hfront⟩ := List.find?_eq_some_iff_append.1 hx
  rcases List.mem_append.1 hy with hy | hy
  · have hnot := hfront y hy
    rw [hfound] at hnot
    cases hnot
  · rw [List.pairwise_append, List.pairwise_cons] at hxs
    rcases List.mem_cons.1 hy with rfl | hy
    · exact Or.inl rfl
    · exact Or.inr (hxs.2.1.1 y hy)

section Order

variable {α : Type u} [Zero α] [BEq α]

theorem exponentsOverflow_iff {d e : UInt32} :
    exponentsOverflow d e = true ↔ UInt32.size ≤ d.toNat + e.toNat := decide_eq_true_iff

/-- The pairs of terms come by the exponents of the right operand, and for each of those by the exponents
of the left operand. -/
theorem pairwise_termPairs (p q : Poly α) :
    (termPairs p q).Pairwise fun x y =>
      x.1.exponent < y.1.exponent ∨ x.1 = y.1 ∧ x.2.exponent < y.2.exponent := by
  rw [termPairs, List.pairwise_flatMap]
  refine ⟨fun u _ => ?_, q.canonical.ascending.imp fun {u v} huv x hx y hy => Or.inl ?_⟩
  · rw [List.pairwise_map]
    exact p.canonical.ascending.imp fun htt => Or.inr ⟨rfl, htt⟩
  · obtain ⟨t, -, rfl⟩ := List.mem_map.1 hx
    obtain ⟨s, -, rfl⟩ := List.mem_map.1 hy
    exact huv

/-- The exponents of `p` to which `e` cannot be added. -/
def overflowing (p : Poly α) (e : UInt32) : Set UInt32 :=
  {d | (∃ t ∈ p.terms, t.exponent = d) ∧ UInt32.size ≤ d.toNat + e.toNat}

/-- The exponents of the pair at which the product of `p` and `q` overflows first. -/
structure FirstOverflow (p q : Poly α) (left right : UInt32) : Prop where
  /-- No lower exponent of `q` overflows with the degree of `p`. -/
  right_isLeast : ∃ d ∈ p.degree?, IsLeast (overflowing q d) right
  /-- No lower exponent of `p` overflows with that exponent of `q`. -/
  left_isLeast : IsLeast (overflowing p right) left

/-- Exponents are not known as a partial order, for which this would be `IsLeast.unique`. -/
theorem isLeast_unique {s : Set UInt32} {d e : UInt32} (hd : IsLeast s d) (he : IsLeast s e) : d = e :=
  UInt32.le_antisymm (hd.2 he.1) (he.2 hd.1)

/-- Two polynomials have one first overflow at most. -/
theorem FirstOverflow.unique {p q : Poly α} {left right left' right' : UInt32}
    (h : FirstOverflow p q left right) (h' : FirstOverflow p q left' right') :
    left = left' ∧ right = right' := by
  obtain ⟨d, hd, hright⟩ := h.right_isLeast
  obtain ⟨d', hd', hright'⟩ := h'.right_isLeast
  obtain rfl : d = d' := Option.mem_unique hd hd'
  obtain rfl : right = right' := isLeast_unique hright hright'
  exact ⟨isLeast_unique h.left_isLeast h'.left_isLeast, rfl⟩

/-- The pair that is found first has the least exponents that overflow. -/
theorem firstOverflow_of_find? {p q : Poly α} {t u : Term α}
    (h : (termPairs p q).find? (fun (u, t) => exponentsOverflow u.exponent t.exponent) = some (u, t)) :
    FirstOverflow p q t.exponent u.exponent := by
  have hoverflow : UInt32.size ≤ u.exponent.toNat + t.exponent.toNat :=
    exponentsOverflow_iff.1 (List.find?_some (a := (u, t)) h)
  obtain ⟨hu, ht⟩ := mem_termPairs.1 (List.mem_of_find?_eq_some h)
  have hfirst : ∀ v ∈ q.terms, ∀ s ∈ p.terms, UInt32.size ≤ v.exponent.toNat + s.exponent.toNat →
      (v, s) = (u, t) ∨ u.exponent < v.exponent ∨ u = v ∧ t.exponent < s.exponent := by
    intro v hv s hs hvs
    exact eq_or_rel_of_find?_eq_some (pairwise_termPairs p q) h (mem_termPairs.2 ⟨hv, hs⟩)
      (exponentsOverflow_iff.2 hvs)
  obtain ⟨d, hd, htd⟩ := exists_mem_degree?_of_mem ht
  refine ⟨⟨d, hd, ⟨⟨u, hu, rfl⟩, ?_⟩, ?_⟩, ⟨⟨t, ht, rfl⟩, ?_⟩, ?_⟩
  · have := UInt32.le_iff_toNat_le.1 htd
    omega
  · -- an exponent that overflows with the degree does so with the leading term
    rintro e ⟨⟨v, hv, rfl⟩, hve⟩
    obtain ⟨top, htop, rfl⟩ := exists_mem_of_mem_degree? hd
    rcases hfirst v hv top htop hve with heq | hlt | ⟨rfl, -⟩
    · cases heq
      exact UInt32.le_refl _
    · exact UInt32.le_of_lt hlt
    · exact UInt32.le_refl _
  · omega
  · rintro e ⟨⟨s, hs, rfl⟩, hse⟩
    rcases hfirst u hu s hs (by omega) with heq | hlt | ⟨-, hlt⟩
    · cases heq
      exact UInt32.le_refl _
    · exact absurd hlt (UInt32.lt_irrefl _)
    · exact UInt32.le_of_lt hlt

/-- No sum of exponents is too large if that of the degrees is not. -/
theorem forall_exponentsOverflow_iff {p q : Poly α} :
    (∀ u ∈ q.terms, ∀ t ∈ p.terms, exponentsOverflow u.exponent t.exponent = false) ↔
      p = 0 ∨ q = 0 ∨ ∃ d ∈ p.degree?, ∃ e ∈ q.degree?, d.toNat + e.toNat < UInt32.size := by
  constructor
  · intro h
    by_cases hp : p = 0
    · exact Or.inl hp
    by_cases hq : q = 0
    · exact Or.inr (Or.inl hq)
    obtain ⟨t, ht⟩ := exists_leadingTerm? hp
    obtain ⟨u, hu⟩ := exists_leadingTerm? hq
    have hsum := h u (leadingTerm?_mem hu) t (leadingTerm?_mem ht)
    rw [← Bool.not_eq_true, exponentsOverflow_iff] at hsum
    exact Or.inr (Or.inr ⟨_, mem_degree?_iff.2 ⟨t, ht, rfl⟩, _, mem_degree?_iff.2 ⟨u, hu, rfl⟩,
      by omega⟩)
  · rintro h u hu t ht
    rw [← Bool.not_eq_true, exponentsOverflow_iff]
    rcases h with rfl | rfl | ⟨d, hd, e, he, hsum⟩
    · cases ht
    · cases hu
    · obtain ⟨d', hd', htd⟩ := exists_mem_degree?_of_mem ht
      obtain ⟨e', he', hue⟩ := exists_mem_degree?_of_mem hu
      cases Option.mem_unique hd hd'
      cases Option.mem_unique he he'
      rw [UInt32.le_iff_toNat_le] at htd hue
      omega

end Order

section Guard

variable {α : Type u} [Zero α] [BEq α] [Add α] [Mul α]

/-- A guarded product that fails reports the first overflow. -/
theorem exists_firstOverflow_of_mul? {p q : Poly α} {f : Fault} (h : p.mul? q = .error f) :
    ∃ left right, f = .exponentOverflow left right ∧ FirstOverflow p q left right := by
  rw [mul?_eq] at h
  split at h
  · rename_i hfind
    cases h
    exact ⟨_, _, rfl, firstOverflow_of_find? hfind⟩
  · cases h

/-- A guarded product fails exactly with the first overflow. -/
theorem mul?_eq_error_iff {p q : Poly α} {f : Fault} :
    p.mul? q = .error f ↔
      ∃ left right, f = .exponentOverflow left right ∧ FirstOverflow p q left right := by
  refine ⟨exists_firstOverflow_of_mul?, ?_⟩
  rintro ⟨left, right, rfl, hfirst⟩
  cases hmul : p.mul? q with
  | ok m =>
    -- the pair that overflows is one of those that are looked at
    obtain ⟨d, -, ⟨⟨u, hu, rfl⟩, -⟩, -⟩ := hfirst.right_isLeast
    obtain ⟨⟨t, ht, rfl⟩, hsum⟩ := hfirst.left_isLeast.1
    have hfit := (mul?_eq_ok_iff.1 hmul).1 u hu t ht
    rw [← Bool.not_eq_true, exponentsOverflow_iff] at hfit
    omega
  | error f =>
    obtain ⟨left', right', rfl, hfirst'⟩ := exists_firstOverflow_of_mul? hmul
    obtain ⟨rfl, rfl⟩ := hfirst.unique hfirst'
    rfl

end Guard

/-- Whatever the floating-point coefficients are, the guarded product has a result exactly if an operand
is zero or the sum of the degrees fits, and then the result is the product. Otherwise it reports the least
exponent of the right operand that overflows with the degree of the left one, behind the least exponent of
the left operand that overflows with that. The two nests of loops over plain rows of terms do the same. -/
theorem mul?_eq_ok_or_error (p q : Poly Float) :
    (∀ m, p.mul? q = .ok m ↔
        (p = 0 ∨ q = 0 ∨ ∃ d ∈ p.degree?, ∃ e ∈ q.degree?, d.toNat + e.toNat < UInt32.size) ∧
          m = p * q) ∧
      (∀ f, p.mul? q = .error f ↔
        ∃ left right, f = .exponentOverflow left right ∧ FirstOverflow p q left right) ∧
      Storage.product? p.terms q.terms = (p.mul? q).map Poly.terms ∧
      Storage.product p.terms q.terms = (p * q).terms := by
  refine ⟨fun m => ?_, fun f => mul?_eq_error_iff, Storage.product?_terms p q, Storage.product_terms p q⟩
  rw [mul?_eq_ok_iff, forall_exponentsOverflow_iff]

end SparsePoly.Poly
