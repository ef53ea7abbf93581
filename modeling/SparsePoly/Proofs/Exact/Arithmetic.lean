import SparsePoly.Proofs.Exact.Denotation

/-!
# Arithmetic over a field

Over a field the coefficients of sums and differences are the sums and differences of coefficients
(`coefficient_add`, `coefficient_sub`): a term that is dropped because its coefficient vanishes has the
coefficient zero like any term that is not there.

So addition, negation and subtraction of polynomials are those of the polynomials that they stand for.
A product is the product of those as long as no sum of exponents wraps around (`toPolynomial_mul`).
Both rest on one fact about the nested loops of a product: what turns products of terms into products
turns a sum over all pairs of terms into a product of sums (`sum_map_termPairs`).
-/

open Polynomial

namespace SparsePoly

variable {K : Type*} [Field K] [DecidableEq K]

instance (priority := low) : LawfulNegZero K where
  neg_beq_zero a := by simp

/-! ## Coefficients that are there or not -/

/-- Dropping a zero does not change a coefficient that counts as zero where it is not there. -/
theorem getD_nonzero? (c : K) : (nonzero? c).getD 0 = c := by
  unfold nonzero?
  split
  · rename_i hc
    exact (eq_of_beq hc).symm
  · rfl

/-- A sum of coefficients that are there or not is the sum of what they count as. -/
theorem getD_sumNonzero (c? d? : Option K) :
    (sumNonzero c? d?).getD 0 = c?.getD 0 + d?.getD 0 := by
  cases c? with
  | none => simp
  | some c =>
    cases d? with
    | none => simp
    | some d => exact getD_nonzero? (c + d)

/-- Adding to what has accumulated adds to what it counts as, also where a zero is skipped or a sum
vanishes. -/
theorem getD_accumulate (sum? : Option K) (c : K) :
    (accumulate sum? c).getD 0 = sum?.getD 0 + c := by
  unfold accumulate
  split
  · rename_i hc
    rw [eq_of_beq hc, add_zero]
  · cases sum? with
    | none => simp
    | some d => exact getD_nonzero? (d + c)

namespace Poly

/-! ## Coefficients of sums and products -/

/-- Polynomials with the same coefficients are equal, whether a zero stands for a term or not. -/
theorem ext_coefficient {p q : Poly K} (h : ∀ e, p.coefficient e = q.coefficient e) : p = q := by
  apply ext_coefficient?
  intro e
  rw [coefficient?_eq_nonzero?, coefficient?_eq_nonzero?, h]

@[simp] theorem coefficient_zero (e : UInt32) : (0 : Poly K).coefficient e = 0 := rfl

/-- The coefficient at the exponent of a term is that of the term. -/
theorem coefficient_of_mem {p : Poly K} {t : Term K} (ht : t ∈ p.terms) :
    p.coefficient t.exponent = t.coefficient := by
  rw [coefficient, mem_terms_iff.1 ht, Option.getD_some]

/-- The coefficients of a sum are the sums of the coefficients. -/
@[simp] theorem coefficient_add (p q : Poly K) (e : UInt32) :
    (p + q).coefficient e = p.coefficient e + q.coefficient e := by
  rw [coefficient, coefficient?_add, getD_sumNonzero]
  rfl

/-- The coefficients of a negation are the negated coefficients. -/
@[simp] theorem coefficient_neg (p : Poly K) (e : UInt32) :
    (-p).coefficient e = -p.coefficient e := by
  rw [coefficient, coefficient?_neg, coefficient]
  cases p.coefficient? e with
  | none => simp
  | some c => rfl

/-- The coefficients of a difference are the differences of the coefficients. -/
@[simp] theorem coefficient_sub (p q : Poly K) (e : UInt32) :
    (p - q).coefficient e = p.coefficient e - q.coefficient e := by
  rw [sub_eq_add_neg, ← coefficient_neg, ← coefficient_add]
  rfl

/-- Dropping the term of an exponent makes its coefficient zero, and keeps the others. -/
@[simp] theorem coefficient_erase (p : Poly K) (d e : UInt32) :
    (p.erase d).coefficient e = if d = e then 0 else p.coefficient e := by
  rw [coefficient, coefficient?_erase]
  split <;> rfl

/-- Adding a term adds its coefficient at its exponent, and keeps the others. -/
theorem coefficient_addTerm (p : Poly K) (t : Term K) (e : UInt32) :
    (p.addTerm t).coefficient e =
      p.coefficient e + if t.exponent = e then t.coefficient else 0 := by
  rw [coefficient, coefficient?_addTerm]
  split
  · exact getD_accumulate _ _
  · exact (add_zero _).symm

/-- Dropping a term that is not there changes nothing. -/
theorem erase_of_coefficient_eq_zero {p : Poly K} {e : UInt32} (h : p.coefficient e = 0) :
    p.erase e = p := by
  apply ext_coefficient
  intro d
  rw [coefficient_erase]
  split
  · rename_i he
    rw [← he, h]
  · rfl

/-! ## Sums over pairs of terms -/

/-- What turns products of terms into products turns a sum over all pairs of terms into the product
of two sums. -/
theorem sum_map_termPairs {R : Type*} [NonUnitalNonAssocSemiring R] (p q : Poly K)
    {f : Term K → R} (hf : ∀ u ∈ q.terms, ∀ t ∈ p.terms, f (u * t) = f u * f t) :
    ((termPairs p q).map fun (u, t) => f (u * t)).sum =
      (q.terms.map f).sum * (p.terms.map f).sum := by
  unfold termPairs
  generalize q.terms = us at hf ⊢
  -- on the outer loop, each pass of which adds one row of products
  induction us with
  | nil => simp
  | cons u us ih =>
    have hrow : (p.terms.map fun t => f (u * t)).sum = f u * (p.terms.map f).sum := by
      rw [← List.sum_map_mul_left]
      exact congrArg List.sum (List.map_congr_left fun t ht => hf u List.mem_cons_self t ht)
    have hrest := ih fun v hv => hf v (List.mem_cons_of_mem _ hv)
    rw [List.flatMap_cons, List.map_append, List.sum_append, hrest, List.map_map, List.map_cons,
      List.sum_cons, add_mul, ← hrow]
    rfl

/-! ## The polynomials that sums and products stand for -/

/-- A polynomial stands for the one that has its coefficients, and none beyond its exponents. -/
theorem toPolynomial_eq {p : Poly K} {P : K[X]} (hP : ∀ e : UInt32, P.coeff e.toNat = p.coefficient e)
    (hlarge : ∀ n, 2 ^ 32 ≤ n → P.coeff n = 0) : p.toPolynomial = P := by
  ext n
  -- an exponent of the usual polynomial is one of ours, or beyond the range of them
  rcases Nat.lt_or_ge n (2 ^ 32) with hn | hn
  · have htoNat : (UInt32.ofNat n).toNat = n := UInt32.toNat_ofNat_of_lt' hn
    rw [← htoNat, coeff_toPolynomial, hP]
  · rw [coeff_toPolynomial_of_le p hn, hlarge n hn]

/-- A sum stands for the sum. -/
@[simp] theorem toPolynomial_add (p q : Poly K) :
    (p + q).toPolynomial = p.toPolynomial + q.toPolynomial := by
  apply toPolynomial_eq
  · intro e
    rw [coeff_add, coeff_toPolynomial, coeff_toPolynomial, coefficient_add]
  · intro n hn
    rw [coeff_add, coeff_toPolynomial_of_le p hn, coeff_toPolynomial_of_le q hn, add_zero]

/-- A negation stands for the negation. -/
@[simp] theorem toPolynomial_neg (p : Poly K) : (-p).toPolynomial = -p.toPolynomial := by
  apply toPolynomial_eq
  · intro e
    rw [coeff_neg, coeff_toPolynomial, coefficient_neg]
  · intro n hn
    rw [coeff_neg, coeff_toPolynomial_of_le p hn, neg_zero]

/-- A difference stands for the difference. -/
@[simp] theorem toPolynomial_sub (p q : Poly K) :
    (p - q).toPolynomial = p.toPolynomial - q.toPolynomial := by
  rw [sub_eq_add_neg, ← toPolynomial_neg, ← toPolynomial_add]
  rfl

/-- The polynomial of a single term stands for that monomial. -/
theorem toPolynomial_monomial (t : Term K) :
    (monomial t).toPolynomial = Polynomial.monomial t.exponent.toNat t.coefficient := by
  have h := toPolynomial_ofTerms [t]
  rw [TermList.toPolynomial_cons, TermList.toPolynomial_nil, add_zero] at h
  exact h

/-- No exponent of one polynomial wraps around when an exponent of the other is added to it. -/
def ExponentsFit (p q : Poly K) : Prop :=
  ∀ t ∈ p.terms, ∀ u ∈ q.terms, exponentsOverflow t.exponent u.exponent = false

/-- Exponents fit if their sums, as natural numbers, are exponents again. -/
theorem exponentsFit_iff {p q : Poly K} :
    ExponentsFit p q ↔ ∀ t ∈ p.terms, ∀ u ∈ q.terms,
      t.exponent.toNat + u.exponent.toNat < UInt32.size := by
  simp only [ExponentsFit, exponentsOverflow, decide_eq_false_iff_not, Nat.not_le]

/-- The product of polynomials whose exponents fit stands for the product. -/
theorem toPolynomial_mul {p q : Poly K} (hfit : ExponentsFit p q) :
    (p * q).toPolynomial = p.toPolynomial * q.toPolynomial := by
  have hf : ∀ u ∈ q.terms, ∀ t ∈ p.terms,
      Polynomial.monomial (u * t).exponent.toNat (u * t).coefficient =
        Polynomial.monomial u.exponent.toNat u.coefficient *
          Polynomial.monomial t.exponent.toNat t.coefficient := by
    intro u hu t ht
    -- the sum of the exponents is the one that the product has, as it does not wrap around
    have hlt := exponentsFit_iff.1 hfit t ht u hu
    rw [Polynomial.monomial_mul_monomial, Term.exponent_mul, Term.coefficient_mul, UInt32.toNat_add,
      Nat.add_comm u.exponent.toNat, Nat.mod_eq_of_lt hlt]
  have hsum := sum_map_termPairs p q
    (f := fun t => Polynomial.monomial t.exponent.toNat t.coefficient) hf
  rw [mul_def, toPolynomial_ofTerms, TermList.toPolynomial, List.map_map,
    mul_comm p.toPolynomial]
  exact hsum

end Poly

end SparsePoly
