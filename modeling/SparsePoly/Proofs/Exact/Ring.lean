import Mathlib.Algebra.MonoidAlgebra.Basic
import Mathlib.Data.UInt
import SparsePoly.Proofs.Exact.Arithmetic

/-!
# The laws of a ring

Over a field, polynomials with the operations `+`, `-` and `*` obey the laws of a commutative ring, as
equalities of lists of terms (`ring_laws`). Nothing is asked of the exponents: the sums of exponents
that wrap around obey the laws as well.

For sums and differences this is seen at each coefficient. For products, a polynomial stands for an
element of the algebra over the group of exponents, which has a basis vector for each exponent and in
which the product of two basis vectors is that of the sum of their exponents, modulo `2 ^ 32`
(`Poly.toAlgebra`). Whatever the order in which the products of terms are added up, and whichever of
them vanish on the way, what is reached is the product of that algebra (`toAlgebra_mul`), and no two
polynomials stand for the same element (`toAlgebra_injective`).
-/

namespace SparsePoly

open AddMonoidAlgebra (single)

variable {K : Type*} [Field K]

/-! ## Lists of terms -/

/-- The sum of some terms, in the algebra over the group of exponents. -/
noncomputable def TermList.toAlgebra (ts : List (Term K)) : AddMonoidAlgebra K UInt32 :=
  (ts.map fun t => single t.exponent t.coefficient).sum

@[simp] theorem TermList.toAlgebra_cons (t : Term K) (ts : List (Term K)) :
    toAlgebra (t :: ts) = single t.exponent t.coefficient + toAlgebra ts := by
  simp [toAlgebra]

/-- The coefficients of the sum of some terms with ascending exponents are those that the terms
have. -/
theorem TermList.coeff_toAlgebra {ts : List (Term K)}
    (hts : ts.Pairwise fun t u => t.exponent < u.exponent) (e : UInt32) :
    (toAlgebra ts).coeff e = (coefficient? e ts).getD 0 := by
  induction ts with
  | nil => rfl
  | cons t ts ih =>
    obtain ⟨hhead, htail⟩ := List.pairwise_cons.1 hts
    rw [toAlgebra_cons, AddMonoidAlgebra.coeff_add, Finsupp.add_apply, ih htail, coefficient?_cons,
      AddMonoidAlgebra.coeff_single, Finsupp.single_apply]
    by_cases ht : t.exponent = e
    · -- no later term has the exponent of the first
      rw [if_pos ht, if_pos ht, coefficient?_eq_none_of_lt (ht ▸ hhead)]
      exact add_zero _
    · rw [if_neg ht, if_neg ht, zero_add]

namespace Poly

variable [DecidableEq K]

/-! ## Polynomials -/

/-- The element that the terms stand for in the algebra over the group of exponents. -/
noncomputable def toAlgebra (p : Poly K) : AddMonoidAlgebra K UInt32 := TermList.toAlgebra p.terms

/-- A polynomial and the element that it stands for have the same coefficients. -/
theorem coeff_toAlgebra (p : Poly K) (e : UInt32) : p.toAlgebra.coeff e = p.coefficient e :=
  TermList.coeff_toAlgebra p.canonical.ascending e

/-- Polynomials that stand for the same element have the same terms. -/
theorem toAlgebra_injective {p q : Poly K} (h : p.toAlgebra = q.toAlgebra) : p = q := by
  apply ext_coefficient
  intro e
  rw [← coeff_toAlgebra, ← coeff_toAlgebra, h]

/-- A sum stands for the sum. -/
theorem toAlgebra_add (p q : Poly K) : (p + q).toAlgebra = p.toAlgebra + q.toAlgebra := by
  ext e
  rw [AddMonoidAlgebra.coeff_add, Finsupp.add_apply, coeff_toAlgebra, coeff_toAlgebra,
    coeff_toAlgebra, coefficient_add]

/-- A difference stands for the difference. -/
theorem toAlgebra_sub (p q : Poly K) : (p - q).toAlgebra = p.toAlgebra - q.toAlgebra := by
  ext e
  rw [AddMonoidAlgebra.coeff_sub, Finsupp.sub_apply, coeff_toAlgebra, coeff_toAlgebra,
    coeff_toAlgebra, coefficient_sub]

/-- Adding a term adds its basis vector. -/
theorem toAlgebra_addTerm (p : Poly K) (t : Term K) :
    (p.addTerm t).toAlgebra = p.toAlgebra + single t.exponent t.coefficient := by
  ext e
  rw [AddMonoidAlgebra.coeff_add, Finsupp.add_apply, coeff_toAlgebra, coeff_toAlgebra,
    coefficient_addTerm, AddMonoidAlgebra.coeff_single, Finsupp.single_apply]

/-- Adding terms one after the other adds their sum. -/
theorem toAlgebra_extend (p : Poly K) (ts : List (Term K)) :
    (p.extend ts).toAlgebra = p.toAlgebra + TermList.toAlgebra ts := by
  induction ts generalizing p with
  | nil => exact (add_zero _).symm
  | cons t ts ih => rw [extend_cons, ih, toAlgebra_addTerm, TermList.toAlgebra_cons, add_assoc]

/-- Terms that cancel are dropped, and the sum stays the same. -/
theorem toAlgebra_ofTerms (ts : List (Term K)) :
    (ofTerms ts).toAlgebra = TermList.toAlgebra ts :=
  (toAlgebra_extend 0 ts).trans (zero_add _)

/-- The polynomial of a single term stands for a multiple of a basis vector. -/
theorem toAlgebra_monomial (t : Term K) : (monomial t).toAlgebra = single t.exponent t.coefficient :=
  (toAlgebra_addTerm 0 t).trans (zero_add _)

theorem toAlgebra_one : (1 : Poly K).toAlgebra = 1 := toAlgebra_monomial ⟨0, 1⟩

/-- The product of polynomials is that of the algebra, in which exponents wrap around as well. -/
theorem toAlgebra_mul (p q : Poly K) : (p * q).toAlgebra = p.toAlgebra * q.toAlgebra := by
  -- a pair of terms gives the product of their basis vectors, so the loops give the product of the
  -- sums
  have hsum := sum_map_termPairs p q (f := fun t => single t.exponent t.coefficient)
    fun u _ t _ => (AddMonoidAlgebra.single_mul_single _ _ _ _).symm
  rw [mul_def, toAlgebra_ofTerms, TermList.toAlgebra, List.map_map, mul_comm p.toAlgebra]
  exact hsum

/-! ## The laws -/

/-- Over a field, polynomials obey the laws of a commutative ring, for all exponents. -/
theorem ring_laws (a b c : Poly K) :
    a + b = b + a ∧ a + b + c = a + (b + c) ∧ a + 0 = a ∧
      a - b = a + -b ∧ a + b - b = a ∧ a - a = 0 ∧
      a * b = b * a ∧ a * b * c = a * (b * c) ∧ a * 1 = a ∧ a * 0 = 0 ∧
      a * (b + c) = a * b + a * c := by
  refine ⟨?addComm, ?addAssoc, ?addZero, ?subEq, ?addSub, ?subSelf, ?mulComm, ?mulAssoc, ?mulOne,
    ?mulZero, ?mulAdd⟩
  case addComm => exact ext_coefficient fun e => by simp [add_comm]
  case addAssoc => exact ext_coefficient fun e => by simp [add_assoc]
  case addZero => exact ext_coefficient fun e => by simp
  case subEq => rfl
  case addSub => exact ext_coefficient fun e => by simp
  case subSelf => exact ext_coefficient fun e => by simp
  case mulComm =>
    apply toAlgebra_injective
    rw [toAlgebra_mul, toAlgebra_mul, mul_comm]
  case mulAssoc =>
    apply toAlgebra_injective
    rw [toAlgebra_mul, toAlgebra_mul, toAlgebra_mul, toAlgebra_mul, mul_assoc]
  case mulOne =>
    apply toAlgebra_injective
    rw [toAlgebra_mul, toAlgebra_one, mul_one]
  case mulZero =>
    -- there are no pairs of terms
    rfl
  case mulAdd =>
    apply toAlgebra_injective
    rw [toAlgebra_mul, toAlgebra_add, toAlgebra_add, toAlgebra_mul, toAlgebra_mul, mul_add]

end Poly

end SparsePoly
