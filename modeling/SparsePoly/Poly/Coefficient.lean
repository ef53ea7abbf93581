import SparsePoly.Poly.Product

/-!
# Polynomials by their coefficients

A polynomial is told by `coefficient?`, which says for each exponent whether there is a term and with
which coefficient (`ext_coefficient?`). Each operation acts on it exponent by exponent:

* adding terms one after the other runs an accumulator (`accumulate`), which passes over zeros and is
  empty again once its sum equals zero;
* adding two polynomials sums what both of them have (`sumNonzero`).

No law of arithmetic is needed for any of this: it holds with floating-point coefficients.

## Main statements

* `ext_coefficient?`: polynomials with the same coefficients are equal.
* `coefficient?_extend`: what a row of terms adds to a coefficient hangs only on those of its exponent.
* `coefficient?_add`, `coefficient?_sub`, `coefficient?_neg`, `coefficient?_erase`: the pointwise rules.
* `coefficient?_mul`: a coefficient of a product runs over the pairs of terms with that exponent.
-/

universe u

namespace SparsePoly

variable {α : Type u}

/-- A coefficient, unless it equals zero. -/
def nonzero? [Zero α] [BEq α] (c : α) : Option α := if c == 0 then none else some c

/-- Adds `c` to what there is of a coefficient. Zeros add nothing. -/
def accumulate [Zero α] [BEq α] [Add α] (sum? : Option α) (c : α) : Option α :=
  if c == 0 then sum?
  else
    match sum? with
    | none => some c
    | some d => nonzero? (d + c)

/-- The sum of what there is of two coefficients. -/
def sumNonzero [Zero α] [BEq α] [Add α] : Option α → Option α → Option α
  | some c, some d => nonzero? (c + d)
  | some c, none => some c
  | none, d? => d?

@[simp] theorem sumNonzero_none_left [Zero α] [BEq α] [Add α] (d? : Option α) :
    sumNonzero none d? = d? := rfl

@[simp] theorem sumNonzero_none_right [Zero α] [BEq α] [Add α] (c? : Option α) :
    sumNonzero c? none = c? := by
  cases c? <;> rfl

namespace TermList

/-! ## Looking up coefficients -/

@[simp] theorem coefficient?_nil (e : UInt32) : coefficient? e ([] : List (Term α)) = none := rfl

theorem coefficient?_cons (e : UInt32) (t : Term α) (ts : List (Term α)) :
    coefficient? e (t :: ts) = if t.exponent = e then some t.coefficient else coefficient? e ts := rfl

/-- Nothing is found at an exponent that no term has. -/
theorem coefficient?_eq_none {e : UInt32} {ts : List (Term α)}
    (h : ∀ t ∈ ts, t.exponent ≠ e) : coefficient? e ts = none := by
  induction ts with
  | nil => rfl
  | cons t ts ih =>
    rw [coefficient?_cons, if_neg (h t List.mem_cons_self)]
    exact ih fun u hu => h u (List.mem_cons_of_mem _ hu)

/-- There is nothing below the exponents of a list. -/
theorem coefficient?_eq_none_of_lt {e : UInt32} {ts : List (Term α)}
    (h : ∀ t ∈ ts, e < t.exponent) : coefficient? e ts = none :=
  coefficient?_eq_none fun t ht => (UInt32.ne_of_lt (h t ht)).symm

/-- What is found is the coefficient of a term of the list. -/
theorem mem_of_coefficient? {e : UInt32} {c : α} {ts : List (Term α)}
    (h : coefficient? e ts = some c) : ⟨e, c⟩ ∈ ts := by
  induction ts with
  | nil => cases h
  | cons t ts ih =>
    rw [coefficient?_cons] at h
    split at h
    · rename_i he
      cases h
      exact he ▸ List.mem_cons_self
    · exact List.mem_cons_of_mem _ (ih h)

/-- In a list with ascending exponents every term is found. -/
theorem coefficient?_of_mem {ts : List (Term α)}
    (hts : ts.Pairwise fun t u => t.exponent < u.exponent) {t : Term α} (ht : t ∈ ts) :
    coefficient? t.exponent ts = some t.coefficient := by
  induction ts with
  | nil => cases ht
  | cons u us ih =>
    rw [List.pairwise_cons] at hts
    rw [coefficient?_cons]
    rcases List.mem_cons.1 ht with rfl | ht
    · rw [if_pos rfl]
    · rw [if_neg (UInt32.ne_of_lt (hts.1 t ht)), ih hts.2 ht]

/-- Lists with ascending exponents and the same coefficients are equal. -/
theorem eq_of_coefficient? {ts us : List (Term α)}
    (hts : ts.Pairwise fun t u => t.exponent < u.exponent)
    (hus : us.Pairwise fun t u => t.exponent < u.exponent)
    (h : ∀ e, coefficient? e ts = coefficient? e us) : ts = us := by
  -- on both lists: each first term is found in the other list, and what is behind it is told at all
  -- other exponents
  induction ts generalizing us with
  | nil =>
    match us with
    | [] => rfl
    | u :: us =>
      have hu := h u.exponent
      rw [coefficient?_of_mem hus List.mem_cons_self] at hu
      cases hu
  | cons t ts ih =>
    match us with
    | [] =>
      have ht := h t.exponent
      rw [coefficient?_of_mem hts List.mem_cons_self] at ht
      cases ht
    | u :: us =>
      have ht := h t.exponent
      have hu := h u.exponent
      rw [coefficient?_of_mem hts List.mem_cons_self] at ht
      rw [coefficient?_of_mem hus List.mem_cons_self] at hu
      rw [List.pairwise_cons] at hts hus
      -- neither of the first terms lies below the other
      have htu : t = u := by
        rcases List.mem_cons.1 (mem_of_coefficient? ht.symm) with htu | htu
        · exact htu
        · rcases List.mem_cons.1 (mem_of_coefficient? hu) with hut | hut
          · exact hut.symm
          · exact absurd (UInt32.lt_trans (hus.1 _ htu) (hts.1 _ hut)) (UInt32.lt_irrefl _)
      rw [htu, ih hts.2 hus.2 fun e => ?_]
      have he := h e
      rw [coefficient?_cons, coefficient?_cons, htu] at he
      by_cases heu : u.exponent = e
      · rw [coefficient?_eq_none_of_lt fun v hv => by rw [← heu, ← htu]; exact hts.1 v hv,
          coefficient?_eq_none_of_lt fun v hv => by rw [← heu]; exact hus.1 v hv]
      · rwa [if_neg heu, if_neg heu] at he

section Operations

variable [Zero α] [BEq α] {ts us : List (Term α)}

/-- A term put in front is found at its exponent, unless it was left out, and hides nothing at
others. -/
theorem coefficient?_consNonzero {e d : UInt32} {c : α}
    (h : ∀ t ∈ ts, d < t.exponent) :
    coefficient? e (consNonzero d c ts) = if d = e then nonzero? c else coefficient? e ts := by
  unfold consNonzero nonzero?
  by_cases hd : d = e
  · rw [if_pos hd]
    split
    · exact coefficient?_eq_none_of_lt fun t ht => hd ▸ h t ht
    · rw [coefficient?_cons, if_pos hd]
  · rw [if_neg hd]
    split
    · rfl
    · rw [coefficient?_cons, if_neg hd]

/-- Adding a term runs the accumulator of its exponent. -/
theorem coefficient?_add [Add α] (hts : Canonical ts) (t : Term α) (e : UInt32) :
    coefficient? e (add t ts) =
      if t.exponent = e then accumulate (coefficient? e ts) t.coefficient
      else coefficient? e ts := by
  unfold add accumulate
  by_cases hzero : t.coefficient == 0
  · rw [if_pos hzero, if_pos hzero, ite_self]
  rw [if_neg hzero, if_neg hzero]
  induction ts with
  | nil => rfl
  | cons u us ih =>
    rw [insert]
    by_cases hut : u.exponent < t.exponent
    · -- the new term comes later
      rw [if_pos hut, coefficient?_cons, coefficient?_cons]
      by_cases hu : u.exponent = e
      · rw [if_pos hu, if_pos hu, if_neg fun ht => UInt32.ne_of_lt hut (hu.trans ht.symm)]
      · rw [if_neg hu, if_neg hu, ih hts.tail]
    rw [if_neg hut]
    by_cases htu : t.exponent < u.exponent
    · -- the new term comes first
      rw [if_pos htu, coefficient?_cons]
      by_cases ht : t.exponent = e
      · rw [if_pos ht, if_pos ht, coefficient?_eq_none_of_lt]
        intro v hv
        rw [← ht]
        rcases List.mem_cons.1 hv with rfl | hv
        · exact htu
        · exact UInt32.lt_trans htu (hts.head_lt v hv)
      · rw [if_neg ht, if_neg ht]
    · -- both terms have the same exponent
      rw [if_neg htu, coefficient?_consNonzero hts.head_lt, coefficient?_cons,
        exponent_eq_of_not_lt htu hut]
      by_cases hu : u.exponent = e
      · rw [if_pos hu, if_pos hu, if_pos hu]
      · rw [if_neg hu, if_neg hu, if_neg hu]

/-- Merging sums the coefficients at each exponent. -/
theorem coefficient?_merge [Add α] (hts : Canonical ts) (hus : Canonical us) (e : UInt32) :
    coefficient? e (merge ts us) = sumNonzero (coefficient? e ts) (coefficient? e us) := by
  -- on the merge: where one list is ahead, the other has nothing at that exponent
  induction ts, us using merge.induct with
  | case1 us => rw [merge, coefficient?_nil, sumNonzero_none_left]
  | case2 ts _ => rw [merge.eq_def]; cases ts <;> simp
  | case3 t ts u us htu ih =>
    rw [merge, if_pos htu, coefficient?_cons, coefficient?_cons e t]
    by_cases ht : t.exponent = e
    · have hnone : coefficient? e (u :: us) = none := coefficient?_eq_none_of_lt fun v hv => by
        rcases List.mem_cons.1 hv with rfl | hv
        · exact ht ▸ htu
        · exact ht ▸ UInt32.lt_trans htu (hus.head_lt v hv)
      rw [if_pos ht, if_pos ht, hnone, sumNonzero_none_right]
    · rw [if_neg ht, if_neg ht, ih hts.tail hus]
  | case4 t ts u us htu hut ih =>
    rw [merge, if_neg htu, if_pos hut, coefficient?_cons, coefficient?_cons e u]
    by_cases hu : u.exponent = e
    · have hnone : coefficient? e (t :: ts) = none := coefficient?_eq_none_of_lt fun v hv => by
        rcases List.mem_cons.1 hv with rfl | hv
        · exact hu ▸ hut
        · exact hu ▸ UInt32.lt_trans hut (hts.head_lt v hv)
      rw [if_pos hu, if_pos hu, hnone, sumNonzero_none_left]
    · rw [if_neg hu, if_neg hu, ih hts hus.tail]
  | case5 t ts u us htu hut ih =>
    have heq : t.exponent = u.exponent := exponent_eq_of_not_lt htu hut
    have hlt : ∀ v ∈ merge ts us, t.exponent < v.exponent := fun v hv => by
      rcases exponent_of_mem_merge hv with ⟨w, hw, hwv⟩ | ⟨w, hw, hwv⟩
      · rw [← hwv]; exact hts.head_lt w hw
      · rw [← hwv, heq]; exact hus.head_lt w hw
    rw [merge, if_neg htu, if_neg hut, coefficient?_consNonzero hlt, coefficient?_cons,
      coefficient?_cons, ← heq, ih hts.tail hus.tail]
    by_cases ht : t.exponent = e
    · rw [if_pos ht, if_pos ht, if_pos ht, sumNonzero]
    · rw [if_neg ht, if_neg ht, if_neg ht]

end Operations

/-- In a negated list the negated coefficients are found. -/
theorem coefficient?_map_neg [Neg α] (e : UInt32) (ts : List (Term α)) :
    coefficient? e (ts.map (-·)) = (coefficient? e ts).map (-·) := by
  induction ts with
  | nil => rfl
  | cons t ts ih =>
    rw [List.map_cons, coefficient?_cons, coefficient?_cons, Term.exponent_neg]
    by_cases ht : t.exponent = e
    · rw [if_pos ht, if_pos ht, Term.coefficient_neg, Option.map_some]
    · rw [if_neg ht, if_neg ht, ih]

/-- Dropping an exponent leaves nothing there, and all the rest. -/
theorem coefficient?_erase (e d : UInt32) (ts : List (Term α)) :
    coefficient? e (erase d ts) = if d = e then none else coefficient? e ts := by
  by_cases hd : d = e
  · rw [if_pos hd]
    exact coefficient?_eq_none fun t ht => hd ▸ (mem_erase.1 ht).2
  rw [if_neg hd]
  induction ts with
  | nil => rfl
  | cons t ts ih =>
    unfold erase at ih ⊢
    rw [List.filter_cons, coefficient?_cons]
    split
    · rw [coefficient?_cons, ih]
    · -- the term dropped does not have the exponent looked up
      rename_i htd
      have htd : t.exponent = d := by simpa using htd
      rw [if_neg (htd ▸ hd), ih]

end TermList

namespace Poly

variable [Zero α] [BEq α]

/-! ## Coefficients of polynomials -/

/-- A polynomial has a term exactly if its coefficient is found at its exponent. -/
theorem mem_terms_iff {p : Poly α} {t : Term α} :
    t ∈ p.terms ↔ p.coefficient? t.exponent = some t.coefficient :=
  ⟨TermList.coefficient?_of_mem p.canonical.ascending, TermList.mem_of_coefficient?⟩

/-- There is one term of an exponent at most. -/
theorem coefficient_eq_of_exponent_eq {p : Poly α} {t u : Term α} (ht : t ∈ p.terms) (hu : u ∈ p.terms)
    (he : t.exponent = u.exponent) : t.coefficient = u.coefficient := by
  have ht' := mem_terms_iff.1 ht
  rw [he, mem_terms_iff.1 hu] at ht'
  exact (Option.some.inj ht').symm

/-- Polynomials with the same coefficients are equal. -/
theorem ext_coefficient? {p q : Poly α} (h : ∀ e, p.coefficient? e = q.coefficient? e) : p = q :=
  Poly.ext (TermList.eq_of_coefficient? p.canonical.ascending q.canonical.ascending h)

@[simp] theorem coefficient?_zero (e : UInt32) : (0 : Poly α).coefficient? e = none := rfl

/-- Adding a term runs the accumulator of its exponent, and no other. -/
theorem coefficient?_addTerm [Add α] (p : Poly α) (t : Term α) (e : UInt32) :
    (p.addTerm t).coefficient? e =
      if t.exponent = e then accumulate (p.coefficient? e) t.coefficient else p.coefficient? e :=
  TermList.coefficient?_add p.canonical t e

/-- Of a row of terms, those of exponent `e` change the coefficient there, one after the other. -/
theorem coefficient?_extend [Add α] (p : Poly α) (ts : List (Term α)) (e : UInt32) :
    (p.extend ts).coefficient? e =
      ((ts.filter (·.exponent == e)).map (·.coefficient)).foldl accumulate (p.coefficient? e) := by
  induction ts generalizing p with
  | nil => rfl
  | cons t ts ih =>
    rw [extend_cons, ih, coefficient?_addTerm, List.filter_cons]
    by_cases ht : t.exponent = e
    · rw [if_pos ht, if_pos (beq_iff_eq.2 ht), List.map_cons, List.foldl_cons]
    · rw [if_neg ht, if_neg fun h => ht (beq_iff_eq.1 h)]

/-- A coefficient built from terms accumulates those of its exponent, from nothing. -/
theorem coefficient?_ofTerms [Add α] (ts : List (Term α)) (e : UInt32) :
    (ofTerms ts).coefficient? e =
      ((ts.filter (·.exponent == e)).map (·.coefficient)).foldl accumulate none :=
  coefficient?_extend 0 ts e

/-- A coefficient of a sum is the sum of what both operands have there. -/
@[simp] theorem coefficient?_add [Add α] (p q : Poly α) (e : UInt32) :
    (p + q).coefficient? e = sumNonzero (p.coefficient? e) (q.coefficient? e) :=
  TermList.coefficient?_merge p.canonical q.canonical e

/-- A coefficient of a negation is the negated one. -/
@[simp] theorem coefficient?_neg [Neg α] [LawfulNegZero α] (p : Poly α) (e : UInt32) :
    (-p).coefficient? e = (p.coefficient? e).map (-·) :=
  TermList.coefficient?_map_neg e p.terms

/-- A coefficient of a difference is the sum with the negated one of the right operand. -/
@[simp] theorem coefficient?_sub [Add α] [Neg α] [LawfulNegZero α] (p q : Poly α) (e : UInt32) :
    (p - q).coefficient? e =
      sumNonzero (p.coefficient? e) ((q.coefficient? e).map (-·)) := by
  rw [← coefficient?_neg]
  exact coefficient?_add p (-q) e

/-- Dropping an exponent leaves no coefficient there, and all others. -/
@[simp] theorem coefficient?_erase (p : Poly α) (d e : UInt32) :
    (p.erase d).coefficient? e = if d = e then none else p.coefficient? e :=
  TermList.coefficient?_erase e d p.terms

/-- A coefficient of a product accumulates, in order, the products of the coefficients of all pairs
of terms whose exponents add up to its own. -/
theorem coefficient?_mul [Add α] [Mul α] (p q : Poly α) (e : UInt32) :
    (p * q).coefficient? e =
      (((termPairs p q).filter fun (u, t) => u.exponent + t.exponent == e).map
        fun (u, t) => u.coefficient * t.coefficient).foldl accumulate none := by
  rw [mul_def, coefficient?_ofTerms, List.filter_map, List.map_map]
  rfl

end Poly

end SparsePoly
