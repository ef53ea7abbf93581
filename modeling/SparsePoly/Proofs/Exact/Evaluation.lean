import SparsePoly.Proofs.Exact.Division

/-!
# Values

Over a field, where powers are exact, the value at a point turns the operations on polynomials into
those of the field (`eval_hom`).

The value of a polynomial is that of the polynomial it stands for, so each operation comes down to what
it does to that. For a product this is only known if no sum of exponents wraps around; the guarded
product has a result in no other case, and a division has exponents that fit by itself. A product that
does wrap around has other values: the square of `x ^ 2147483648` is the constant `1`.
-/

open Polynomial

namespace SparsePoly.Poly

variable {K : Type*} [Field K] [DecidableEq K]

/-- The guarded product has a result only if the exponents fit. -/
theorem exponentsFit_of_mul? {p q m : Poly K} (h : p.mul? q = .ok m) : ExponentsFit p q := by
  obtain ⟨hfit, -⟩ := mul?_eq_ok_iff.1 h
  intro t ht u hu
  have hut := hfit u hu t ht
  rwa [exponentsOverflow, Nat.add_comm] at hut

/-- The result of the guarded product stands for the product. -/
theorem toPolynomial_of_mul? {p q m : Poly K} (h : p.mul? q = .ok m) :
    m.toPolynomial = p.toPolynomial * q.toPolynomial := by
  rw [(mul?_eq_ok_iff.1 h).2, toPolynomial_mul (exponentsFit_of_mul? h)]

/-- The result of a division is a quotient with its remainder in the usual sense. -/
theorem isDivision_of_divide {p d : Poly K} {v : Division K} (h : p.divide d = .ok v) :
    IsDivision p d v := by
  cases hd : d.leadingTerm? with
  | none =>
    rw [divide_of_none p hd] at h
    cases h
  | some lead =>
    rw [divide_of_leadingTerm? p hd] at h
    cases h
    exact isDivision_divideFrom p hd

/-- Over a field, the value of a sum, a difference or a negation is the sum, the difference or the
negation of values. So are the value of a product, if the guarded product has one, and the value of a
dividend from those of quotient, divisor and remainder. -/
theorem eval_hom (a b : Poly K) (x : K) :
    (a + b).eval x = a.eval x + b.eval x ∧
      (a - b).eval x = a.eval x - b.eval x ∧
      (-a).eval x = -a.eval x ∧
      (∀ m, a.mul? b = .ok m → m.eval x = a.eval x * b.eval x) ∧
      ∀ v, a.divide b = .ok v →
        a.eval x = v.quotient.eval x * b.eval x + v.remainder.eval x := by
  -- all values are those of the polynomials that are stood for
  simp only [← eval_toPolynomial]
  refine ⟨?add, ?sub, ?neg, ?mul, ?divide⟩
  case add => rw [toPolynomial_add, eval_add]
  case sub => rw [toPolynomial_sub, eval_sub]
  case neg => rw [toPolynomial_neg, eval_neg]
  case mul =>
    intro m hm
    rw [toPolynomial_of_mul? hm, eval_mul]
  case divide =>
    intro v hv
    rw [(isDivision_of_divide hv).identity, eval_add, eval_mul]

/-- Without the guard the exponents wrap around, and the values are those of another polynomial. -/
example : (monomial ⟨2147483648, 1⟩ * monomial ⟨2147483648, 1⟩ : Poly ℚ).terms = [⟨0, 1⟩] := by
  decide +kernel

/-- `x^4294967294 + 1` and `x + 1`, whose product has the greatest exponent there is. -/
theorem eval_hom_greatest_exponent :
    ∃ (a b m : Poly ℚ) (v : Division ℚ), a.terms = [⟨0, 1⟩, ⟨4294967294, 1⟩] ∧
      b.terms = [⟨0, 1⟩, ⟨1, 1⟩] ∧ a.mul? b = .ok m ∧ a.divide b = .ok v ∧
      m.eval 2 = a.eval 2 * b.eval 2 ∧
      a.eval 2 = v.quotient.eval 2 * b.eval 2 + v.remainder.eval 2 := by
  set a : Poly ℚ := ofTerms [⟨4294967294, 1⟩, ⟨0, 1⟩]
  set b : Poly ℚ := ofTerms [⟨1, 1⟩, ⟨0, 1⟩]
  have ha : a.terms = [⟨0, 1⟩, ⟨4294967294, 1⟩] := by decide +kernel
  have hb : b.terms = [⟨0, 1⟩, ⟨1, 1⟩] := by decide +kernel
  have hmul : a.mul? b = .ok (a * b) := by
    rw [mul?_eq_ok_iff, ha, hb]
    exact ⟨by decide, rfl⟩
  have hdivide : a.divide b = .ok _ := divide_of_leadingTerm? a (congrArg List.getLast? hb)
  obtain ⟨-, -, -, heval, heval'⟩ := eval_hom a b 2
  exact ⟨a, b, _, _, ha, hb, hmul, hdivide, heval _ hmul, heval' _ hdivide⟩

end SparsePoly.Poly
