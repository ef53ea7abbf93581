import SparsePoly.Proofs.Integer.Simulation
import SparsePoly.Proofs.Storage.Passes
import SparsePoly.Proofs.Termwise.Sum

/-!
# Division by a single term

A divisor with a single term shifts the terms that it reaches and leaves the others behind. With
floating-point coefficients, the product of a ratio with the divisor is seldom the coefficient that the ratio
is of: it may be rounded, zero, infinite or NaN, and so may the difference to that coefficient. Nothing of
this is left in the end, as the product has no exponent but the one that is dropped after the subtraction. So
each pass takes out one term and touches no other (`reduce_of_single`).

The ratios come with falling exponents, and each of them is put in front of those found before
(`TermList.merge_of_lt`). The passes go through the terms from the last one on, and that gives the quotient
and the remainder as rows (`divideFrom_of_single`).

No law of arithmetic is used: `divide_single` holds of any coefficients.
-/

universe u

namespace SparsePoly

variable {α : Type u} [Zero α] [BEq α]

/-! ## Rows of terms -/

namespace TermList

/-- A row of terms below all others comes first. -/
theorem merge_of_lt [Add α] {ts us : List (Term α)}
    (h : ∀ t ∈ ts, ∀ u ∈ us, u.exponent < t.exponent) : merge ts us = us ++ ts := by
  -- on the row that comes first, which the merge uses up before the other
  induction us with
  | nil => cases ts <;> simp [merge]
  | cons u us ih =>
    cases ts with
    | nil => simp [merge]
    | cons t ts =>
      have hut := h t List.mem_cons_self u List.mem_cons_self
      rw [merge, if_neg (UInt32.not_lt.2 (UInt32.le_of_lt hut)), if_pos hut, List.cons_append,
        ih fun t ht v hv => h t ht v (List.mem_cons_of_mem _ hv)]

omit [Zero α] [BEq α] in
/-- The last term of a row is dropped by its exponent if no other term has that. -/
theorem erase_append_singleton {ts : List (Term α)} {top : Term α}
    (h : ∀ t ∈ ts, t.exponent < top.exponent) : erase top.exponent (ts ++ [top]) = ts := by
  have hkeep : ts.filter (·.exponent != top.exponent) = ts :=
    List.filter_eq_self.2 fun t ht => bne_iff_ne.2 (UInt32.ne_of_lt (h t ht))
  have hdrop : [top].filter (·.exponent != top.exponent) = [] := by simp
  rw [erase, List.filter_append, hkeep, hdrop, List.append_nil]

/-- The ratios of the terms at or above the exponent of `lead` to `lead`, in their order. Ratios that equal
zero are left out. -/
def ratios [Div α] (lead : Term α) (ts : List (Term α)) : List (Term α) :=
  ((ts.filter (lead.exponent ≤ ·.exponent)).map fun t =>
    ⟨t.exponent - lead.exponent, t.coefficient / lead.coefficient⟩).filter fun t => !(t.coefficient == 0)

/-- The ratios of a longer row are those of its parts. -/
theorem ratios_append [Div α] (lead : Term α) (ts us : List (Term α)) :
    ratios lead (ts ++ us) = ratios lead ts ++ ratios lead us := by
  rw [ratios, List.filter_append, List.map_append, List.filter_append]
  rfl

/-- Below the exponent of `lead` there are no ratios. -/
theorem ratios_eq_nil [Div α] {lead : Term α} {ts : List (Term α)}
    (h : ∀ t ∈ ts, t.exponent < lead.exponent) : ratios lead ts = [] := by
  have hnone : ts.filter (lead.exponent ≤ ·.exponent) = [] :=
    List.filter_eq_nil_iff.2 fun t ht hle => UInt32.not_lt.2 (of_decide_eq_true hle) (h t ht)
  rw [ratios, hnone]
  rfl

end TermList

namespace Poly

open TermList

/-! ## One pass -/

variable [Add α] [Div α]

/-- The ratio of one term is the row of ratios with that term alone. -/
theorem terms_ratio {top lead : Term α} (hle : lead.exponent ≤ top.exponent) :
    (ratio top lead).terms = ratios lead [top] := by
  have hreached : [top].filter (lead.exponent ≤ ·.exponent) = [top] :=
    List.filter_eq_self.2 fun t ht => decide_eq_true (List.mem_singleton.1 ht ▸ hle)
  rw [ratios, hreached, ratio, monomial, terms_addTerm, add]
  split
  · rename_i hzero
    simp [hzero]
  · rename_i hzero
    simp [hzero, TermList.insert]

variable [Mul α] [Neg α] [LawfulNegZero α] {d q r : Poly α} {lead top : Term α}

omit [Neg α] [LawfulNegZero α] in
/-- The multiple of a single term has no exponent but that of the term that is to be cleared. -/
theorem exponent_of_mem_single_mul_ratio (hd : d.terms = [lead]) {x : Term α}
    (hx : x ∈ (d * ratio top lead).terms) : x.exponent = top.exponent := by
  obtain ⟨u, hu, t, ht, he⟩ := exponent_of_mem_mul hx
  rw [hd, List.mem_singleton] at ht
  rw [he, exponent_of_mem_ratio hu, ht, UInt32.sub_add_cancel]

/-- Whatever is subtracted, a pass takes out the leading term and touches no other. -/
theorem reduce_of_single (hd : d.terms = [lead]) (r : Poly α) (top : Term α) :
    reduce r d top lead = r.erase top.exponent := by
  -- exponent by exponent: the multiple has a term only where the leading one is dropped
  apply ext_coefficient?
  intro e
  rw [reduce, coefficient?_erase, coefficient?_erase]
  split
  · rfl
  · rename_i he
    have hnone : (d * ratio top lead).coefficient? e = none :=
      coefficient?_eq_none_iff.2 fun x hx hxe =>
        he ((exponent_of_mem_single_mul_ratio hd hx).symm.trans hxe)
    rw [coefficient?_sub, hnone, Option.map_none, sumNonzero_none_right]

omit [Mul α] [Neg α] [LawfulNegZero α] in
/-- A ratio is put in front of those found before. -/
theorem terms_add_ratio (habove : Above lead q r) (htop : r.leadingTerm? = some top)
    (hle : lead.exponent ≤ top.exponent) :
    (q + ratio top lead).terms = ratios lead [top] ++ q.terms := by
  rw [terms_add, ← terms_ratio hle]
  refine merge_of_lt fun t ht u hu => ?_
  have hlt := habove t ht top (leadingTerm?_mem htop)
  have hle' := UInt32.le_iff_toNat_le.1 hle
  rw [exponent_of_mem_ratio hu, UInt32.lt_iff_toNat_lt, UInt32.toNat_sub_of_le _ _ hle]
  omega

/-! ## The whole run -/

/-- The passes go through the terms from the last one on, as long as they are not below the divisor. -/
theorem divideFrom_of_single (hd : d.terms = [lead]) (hlead : d.leadingTerm? = some lead)
    (habove : Above lead q r) :
    (divideFrom d lead hlead q r).quotient.terms = ratios lead r.terms ++ q.terms ∧
      (divideFrom d lead hlead q r).remainder.terms = r.terms.filter (·.exponent < lead.exponent) := by
  -- on the passes, from the last term on: the ratios found so far are above all that are to come
  induction q, r using divideFrom.induct d lead hlead with
  | case1 q r hnone =>
    have hnil : r.terms = [] := List.getLast?_eq_none_iff.1 hnone
    rw [divideFrom_of_none hnone, hnil]
    exact ⟨rfl, rfl⟩
  | case2 q r top htop hlt =>
    have hbelow : ∀ t ∈ r.terms, t.exponent < lead.exponent := fun t ht =>
      UInt32.lt_of_le_of_lt (exponent_le_of_leadingTerm? htop ht) hlt
    rw [divideFrom_of_lt htop hlt, ratios_eq_nil hbelow]
    exact ⟨rfl, (List.filter_eq_self.2 fun t ht => decide_eq_true (hbelow t ht)).symm⟩
  | case3 q r top htop hlt _ ih =>
    have hle := UInt32.not_lt.1 hlt
    obtain ⟨ts, hts, hbelow⟩ := exists_terms_eq_append htop
    have hrest : (reduce r d top lead).terms = ts := by
      rw [reduce_of_single hd, terms_erase, hts, erase_append_singleton hbelow]
    obtain ⟨hquotient, hremainder⟩ := ih (habove.pass hlead htop hle)
    rw [divideFrom_of_not_lt htop hlt, hquotient, hremainder, hrest, terms_add_ratio habove htop hle,
      hts, ratios_append, List.append_assoc, List.filter_append, List.filter_cons_of_neg (by simpa using hle)]
    exact ⟨rfl, (List.append_nil _).symm⟩

/-- A division by a single term always has a result. Whatever the coefficients are, infinities and NaN
included, the quotient has the ratios of the terms at or above the exponent of the divisor, at the exponents
that are left of theirs, in order and without those that equal zero. The remainder has the other terms of the
dividend as they are. The loop on plain rows comes to the same rows. -/
theorem divide_single (p : Poly α) {d : Poly α} {lead : Term α} (hd : d.terms = [lead]) :
    ∃ v, p.divide d = .ok v ∧ v.quotient.terms = ratios lead p.terms ∧
      v.remainder.terms = p.terms.filter (·.exponent < lead.exponent) ∧
      ∀ spare, Storage.divide (p.height + spare) p.terms [lead] =
        some (.ok (ratios lead p.terms, p.terms.filter (·.exponent < lead.exponent))) := by
  have hlead : d.leadingTerm? = some lead := by
    rw [leadingTerm?, hd]
    rfl
  obtain ⟨hquotient, hremainder⟩ := divideFrom_of_single hd hlead (above_zero lead p)
  rw [terms_zero, List.append_nil] at hquotient
  refine ⟨_, divide_of_leadingTerm? p hlead, hquotient, hremainder, fun spare => ?_⟩
  rw [← hd, storage_divide_terms hlead p (Nat.le_add_right _ _), hquotient, hremainder]

/-- Of the ratios, one is rounded, one underflows to zero, and two are not finite. -/
theorem divide_single_not_finite :
    ∃ p d : Poly Float,
      p.terms = [⟨0, 3⟩, ⟨2, 1⟩, ⟨3, 1e-20⟩, ⟨5, 1 / 0⟩, ⟨4294967295, 0 / 0⟩] ∧ d.terms = [⟨2, 1e308⟩] ∧
      ∃ v, p.divide d = .ok v ∧
        v.quotient.terms = [⟨0, 1e-308⟩, ⟨3, 1 / 0⟩, ⟨4294967293, 0 / 0⟩] ∧
        v.remainder.terms = [⟨0, 3⟩] := by
  have hp : (ofTerms [⟨0, 3⟩, ⟨2, 1⟩, ⟨3, 1e-20⟩, ⟨5, 1 / 0⟩, ⟨4294967295, 0 / 0⟩] : Poly Float).terms =
      [⟨0, 3⟩, ⟨2, 1⟩, ⟨3, 1e-20⟩, ⟨5, 1 / 0⟩, ⟨4294967295, 0 / 0⟩] := by
    decide +kernel
  have hd : (monomial ⟨2, 1e308⟩ : Poly Float).terms = [⟨2, 1e308⟩] := by
    decide +kernel
  obtain ⟨v, hv, hquotient, hremainder, -⟩ := divide_single (ofTerms _) hd
  rw [hp] at hquotient hremainder
  refine ⟨_, _, hp, hd, v, hv, hquotient.trans ?_, hremainder.trans ?_⟩
  · decide +kernel
  · decide +kernel

end Poly

end SparsePoly
