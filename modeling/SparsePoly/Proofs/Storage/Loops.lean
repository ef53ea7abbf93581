import SparsePoly.Poly.Calculus
import SparsePoly.Poly.Division
import SparsePoly.Proofs.Storage.Search

/-!
# Arithmetic on flat storage

The loops of polynomial arithmetic on plain rows of terms, which need not be canonical. Nothing here
knows of `Poly`: a product is a nest of two loops that put terms into a growing row, and a division
is a loop that need not end. It is given a number of passes (`divideFrom` is `none` if they are not
enough).

Started on canonical rows, each loop goes through the rows of the polynomials that the operations on
`Poly` compute. So every row on the way is canonical, bisection finds what it looks for, and the
division ends within `2 ^ 32` passes, whatever the coefficients are.

## Main statements

* `putAll_terms`, `product_terms`, `product?_terms`, `divide_terms`: the loops and the operations agree.
-/

universe u

namespace SparsePoly.Storage

variable {α : Type u} [Zero α] [BEq α]

/-- Puts terms into a row, one after the other. -/
def putAll [Add α] (ts us : List (Term α)) : List (Term α) := us.foldl (fun r u => put u r) ts

/-- The product: for each term of `us`, its products with the terms of `ts` are put into a row. -/
def product [Add α] [Mul α] (ts us : List (Term α)) : List (Term α) :=
  us.foldl (fun r u => ts.foldl (fun r t => put (u * t) r) r) []

/-- Puts the product of two terms into a row, unless the sum of their exponents is too large. -/
def putProduct? [Add α] [Mul α] (r : List (Term α)) (u t : Term α) :
    Except Fault (List (Term α)) :=
  if Poly.exponentsOverflow u.exponent t.exponent then
    .error (.exponentOverflow t.exponent u.exponent)
  else .ok (put (u * t) r)

/-- The product that stops at the first sum of exponents that is too large. -/
def product? [Add α] [Mul α] (ts us : List (Term α)) : Except Fault (List (Term α)) :=
  us.foldlM (fun r u => ts.foldlM (fun r t => putProduct? r u t) r) []

/-- Long division of `r` by `d`, which is led by `lead`, on top of the quotient `q`. A division that
takes more than the given passes has no result. -/
def divideFrom [Add α] [Mul α] [Div α] [Neg α] (d : List (Term α)) (lead : Term α) (passes : ℕ)
    (q r : List (Term α)) : Option (List (Term α) × List (Term α)) :=
  match r.getLast? with
  | none => some (q, r)
  | some top =>
    if top.exponent < lead.exponent then some (q, r)
    else
      match passes with
      | 0 => none
      | passes + 1 =>
        let step := put ⟨top.exponent - lead.exponent, top.coefficient / lead.coefficient⟩ []
        divideFrom d lead passes (TermList.merge q step)
          (remove top.exponent (TermList.merge r ((product d step).map (-·))))

/-- Quotient and remainder, of which there are none if the divisor has no terms. -/
def divide [Add α] [Mul α] [Div α] [Neg α] (passes : ℕ) (ts d : List (Term α)) :
    Option (Except Fault (List (Term α) × List (Term α))) :=
  match d.getLast? with
  | none => some (.error .divisionByZero)
  | some lead => (divideFrom d lead passes [] ts).map .ok

/-! ## The loops run through polynomials -/

theorem remove_terms (p : Poly α) (e : UInt32) : remove e p.terms = (p.erase e).terms :=
  remove_eq_erase p.canonical.ascending e

/-- No polynomial is higher than there are exponents, so as many passes are always enough. -/
theorem height_le (p : Poly α) : p.height ≤ UInt32.size := by
  unfold Poly.height
  split
  · exact Nat.zero_le _
  · rename_i top _
    exact top.exponent.toNat_lt_size

section Add

variable [Add α]

theorem put_terms (p : Poly α) (t : Term α) : put t p.terms = (p.addTerm t).terms :=
  put_eq_add p.canonical.ascending t

/-- Putting terms into a canonical row is adding them to the polynomial one by one. -/
theorem putAll_terms (p : Poly α) (ts : List (Term α)) :
    putAll p.terms ts = (p.extend ts).terms := by
  induction ts generalizing p with
  | nil => rfl
  | cons t ts ih =>
    rw [Poly.extend_cons, ← ih, ← put_terms]
    rfl

theorem putAll_nil_terms (ts : List (Term α)) : putAll [] ts = (Poly.ofTerms ts).terms :=
  putAll_terms 0 ts

end Add

section Mul

variable [Add α] [Mul α]

/-- The nested loops are one loop over all pairs of terms. -/
theorem product_eq_putAll (ts us : List (Term α)) :
    product ts us = putAll [] (us.flatMap fun u => ts.map fun t => u * t) := by
  rw [product, putAll, List.foldl_flatMap]
  simp only [List.foldl_map]

/-- The nest of loops comes to the product. -/
theorem product_terms (p q : Poly α) : product p.terms q.terms = (p * q).terms := by
  rw [product_eq_putAll, putAll_nil_terms, Poly.mul_def, Poly.termPairs, List.map_flatMap]
  simp only [List.map_map, Function.comp_def]

/-- The nested loops of the guarded product are one loop over all pairs of terms. -/
theorem product?_eq_foldlM (ts us : List (Term α)) :
    product? ts us =
      (us.flatMap fun u => ts.map fun t => (u, t)).foldlM (fun r (u, t) => putProduct? r u t) [] := by
  unfold product?
  generalize ([] : List (Term α)) = r
  induction us generalizing r with
  | nil => rfl
  | cons u us ih =>
    rw [List.flatMap_cons, List.foldlM_append, List.foldlM_map, List.foldlM_cons]
    exact bind_congr ih

omit [Add α] [Mul α] in
/-- A loop on rows follows a loop on polynomials if each of its steps does. -/
theorem foldlM_terms {β : Type*} {f : List (Term α) → β → Except Fault (List (Term α))}
    {g : Poly α → β → Except Fault (Poly α)} (h : ∀ r x, f r.terms x = (g r x).map Poly.terms)
    (xs : List β) (r : Poly α) : xs.foldlM f r.terms = (xs.foldlM g r).map Poly.terms := by
  induction xs generalizing r with
  | nil => rfl
  | cons x xs ih =>
    rw [List.foldlM_cons, List.foldlM_cons, h]
    cases g r x with
    | error fault => rfl
    | ok r' => exact ih r'

/-- The guarded nest of loops comes to the guarded product, or stops with the same fault. -/
theorem product?_terms (p q : Poly α) :
    product? p.terms q.terms = (p.mul? q).map Poly.terms := by
  rw [product?_eq_foldlM]
  refine foldlM_terms (fun r (u, t) => ?_) _ 0
  simp only [putProduct?, put_terms]
  split <;> rfl

end Mul

section Div

variable [Add α] [Mul α] [Div α] [Neg α] [LawfulNegZero α]

/-- One pass of the division on rows is one pass on polynomials. -/
theorem reduce_terms (r d : Poly α) (top lead : Term α) :
    remove top.exponent (TermList.merge r.terms ((product d.terms (Poly.ratio top lead).terms).map
      (-·))) = (Poly.reduce r d top lead).terms := by
  rw [product_terms, ← Poly.terms_sub, remove_terms]
  rfl

/-- The division on rows ends with the quotient and the remainder of the polynomials, after as many
passes as the dividend is high. -/
theorem divideFrom_terms (d : Poly α) (lead : Term α) (hd : d.leadingTerm? = some lead)
    (q r : Poly α) {passes : ℕ} (hpasses : r.height ≤ passes) :
    divideFrom d.terms lead passes q.terms r.terms =
      some ((Poly.divideFrom d lead hd q r).quotient.terms,
        (Poly.divideFrom d lead hd q r).remainder.terms) := by
  induction q, r using Poly.divideFrom.induct d lead hd generalizing passes with
  | case1 q r hr =>
    rw [divideFrom, show r.terms.getLast? = none from hr, Poly.divideFrom_of_none hr]
  | case2 q r top hr hlt =>
    rw [divideFrom, show r.terms.getLast? = some top from hr, Poly.divideFrom_of_lt hr hlt]
    exact if_pos hlt
  | case3 q r top hr hlt hheight ih =>
    have hstep : put ⟨top.exponent - lead.exponent, top.coefficient / lead.coefficient⟩ [] =
        (Poly.ratio top lead).terms := put_terms 0 _
    rw [divideFrom, show r.terms.getLast? = some top from hr, Poly.divideFrom_of_not_lt hr hlt]
    simp only [if_neg hlt]
    -- the remainder has a term, so a pass is left, and the next remainder is lower
    have htop := Poly.height_of_leadingTerm? hr
    obtain ⟨passes, rfl⟩ : ∃ n, passes = n + 1 := Nat.exists_eq_succ_of_ne_zero (by omega)
    simp only
    rw [hstep, reduce_terms, ← Poly.terms_add]
    exact ih (by omega)

/-- The loop of the division comes to quotient and remainder, or there is no divisor. -/
theorem divide_terms (p d : Poly α) {passes : ℕ} (hpasses : UInt32.size ≤ passes) :
    divide passes p.terms d.terms =
      some ((p.divide d).map fun v => (v.quotient.terms, v.remainder.terms)) := by
  unfold divide
  cases hd : d.leadingTerm? with
  | none =>
    rw [show d.terms.getLast? = none from hd, Poly.divide_of_none p hd]
    rfl
  | some lead =>
    rw [show d.terms.getLast? = some lead from hd, Poly.divide_of_leadingTerm? p hd,
      ← Poly.terms_zero]
    simp only [divideFrom_terms d lead hd 0 p (Nat.le_trans (height_le p) hpasses)]
    rfl

end Div

end SparsePoly.Storage
