import SparsePoly.Poly.Calculus
import SparsePoly.Poly.Coefficient
import SparsePoly.Poly.Division
import SparsePoly.Proofs.Binary64.Sign

/-!
# Negation passes through arithmetic

Where rounding looks at magnitudes only (`SignSymmetric`), a calculation with negated polynomials goes through
the negated polynomials of the calculation without. Both drop the same terms and end after the same passes,
however often a coefficient is rounded, overflows or underflows on the way, as a coefficient equals zero
exactly if its negation does.

* `accumulate_neg`, `sumNonzero_neg`: what happens at a single exponent.
* `neg_addTerm`, `Poly.neg_add`, `Poly.neg_mul`, `Poly.mul_neg`, `neg_derivative`: one operation.
* `neg_reduce`, `reduce_neg`: one pass of a division. Of dividend and divisor, the negated one decides what
  becomes of the remainder, while the ratio is negated either way.
* `divideFrom_neg_dividend`, `divideFrom_neg_divisor`: the whole division.
* `neg_arithmetic`: these facts together, for floating-point coefficients.

A sum is the one place where the sign of a zero could differ. It is never seen, since zeros are dropped.
-/

universe u

namespace SparsePoly

/-- Arithmetic that looks at magnitudes only: negation passes through every operation, up to the sign of a
sum that equals zero. -/
class SignSymmetric (α : Type u) [Zero α] [BEq α] [Add α] [Mul α] [Div α] [Neg α] : Prop
    extends LawfulNegZero α where
  /-- Negation takes itself back. -/
  neg_neg (x : α) : - -x = x
  /-- The order of summands does not matter. -/
  add_comm (x y : α) : x + y = y + x
  /-- Negation passes through a sum. -/
  neg_add (x y : α) : -x + -y = -(x + y) ∨ (-x + -y == 0) = true ∧ (x + y == 0) = true
  /-- Negation passes from the left factor to the product. -/
  neg_mul (x y : α) : -x * y = -(x * y)
  /-- Negation passes from the right factor to the product. -/
  mul_neg (x y : α) : x * -y = -(x * y)
  /-- Negation passes from the dividend to the quotient. -/
  neg_div (x y : α) : -x / y = -(x / y)
  /-- Negation passes from the divisor to the quotient. -/
  div_neg (x y : α) : x / -y = -(x / y)

instance : SignSymmetric Float where
  neg_neg := Binary64.neg_neg
  add_comm := Binary64.add_comm
  neg_add := Binary64.neg_add
  neg_mul := Binary64.neg_mul
  mul_neg x y := by rw [Binary64.mul_comm, Binary64.neg_mul, Binary64.mul_comm]
  neg_div := Binary64.neg_div
  div_neg := Binary64.div_neg

section SignSymmetric

variable {α : Type u} [Zero α] [BEq α] [Add α] [Mul α] [Div α] [Neg α] [SignSymmetric α]

/-! ## One coefficient -/

/-- A negated number is dropped exactly if the number is. -/
theorem nonzero?_neg (c : α) : nonzero? (-c) = (nonzero? c).map (-·) := by
  rw [nonzero?, nonzero?, LawfulNegZero.neg_beq_zero]
  split <;> rfl

/-- A sum of negated numbers is dropped exactly if the sum is, whatever the sign of a zero. -/
theorem nonzero?_neg_add (c d : α) : nonzero? (-c + -d) = (nonzero? (c + d)).map (-·) := by
  -- either the sums are each other's negation, or both equal zero and are dropped
  rcases SignSymmetric.neg_add c d with h | ⟨hneg, hpos⟩
  · rw [h, nonzero?_neg]
  · rw [nonzero?, nonzero?, if_pos hneg, if_pos hpos]
    rfl

/-- What accumulates from negated numbers is the negation of what accumulates. -/
theorem accumulate_neg (sum? : Option α) (c : α) :
    accumulate (sum?.map (-·)) (-c) = (accumulate sum? c).map (-·) := by
  unfold accumulate
  rw [LawfulNegZero.neg_beq_zero]
  split
  · rfl
  · cases sum? with
    | none => rfl
    | some d => exact nonzero?_neg_add d c

/-- Negation passes through the sum of two coefficients, each of them there or not. -/
theorem sumNonzero_neg (c? d? : Option α) :
    sumNonzero (c?.map (-·)) (d?.map (-·)) = (sumNonzero c? d?).map (-·) := by
  cases c? with
  | none => rfl
  | some c =>
    cases d? with
    | none => rfl
    | some d => exact nonzero?_neg_add c d

/-- The sum of two coefficients, each of them there or not, does not hang on their order. -/
theorem sumNonzero_comm (c? d? : Option α) : sumNonzero c? d? = sumNonzero d? c? := by
  cases c? with
  | none => exact (sumNonzero_none_right d?).symm
  | some c =>
    cases d? with
    | none => rfl
    | some d => exact congrArg nonzero? (SignSymmetric.add_comm c d)

/-! ## Terms -/

namespace Term

/-- The product by a negated term is the negated product. -/
theorem mul_neg (u t : Term α) : u * -t = -(u * t) :=
  Term.ext rfl (SignSymmetric.mul_neg _ _)

/-- The product of a negated term is the negated product. -/
theorem neg_mul (u t : Term α) : -u * t = -(u * t) :=
  Term.ext rfl (SignSymmetric.neg_mul _ _)

/-- A negated term loses its derivative exactly if the term does. -/
theorem derivative?_neg [ExponentScalar α] (t : Term α) :
    (-t).derivative? = t.derivative?.map (-·) := by
  unfold derivative?
  rw [exponent_neg]
  split
  · rfl
  · exact congrArg some (Term.ext rfl (SignSymmetric.neg_mul _ _))

end Term

namespace Poly

/-! ## Sums -/

/-- Negation of a polynomial takes itself back. -/
protected theorem neg_neg (p : Poly α) : - -p = p := by
  apply ext_coefficient?
  intro e
  rw [coefficient?_neg, coefficient?_neg, Option.map_map]
  exact (congrArg (Option.map · _) (funext SignSymmetric.neg_neg)).trans Option.map_id'

/-- The order of two summands does not matter. -/
protected theorem add_comm (p q : Poly α) : p + q = q + p := by
  apply ext_coefficient?
  intro e
  rw [coefficient?_add, coefficient?_add, sumNonzero_comm]

/-- Negation passes through a sum: both sides drop the same terms. -/
protected theorem neg_add (p q : Poly α) : -p + -q = -(p + q) := by
  apply ext_coefficient?
  intro e
  rw [coefficient?_add, coefficient?_neg, coefficient?_neg, sumNonzero_neg, ← coefficient?_add,
    ← coefficient?_neg]

omit [Mul α] [Div α] [SignSymmetric α] in
/-- A difference is formed by adding the negated polynomial. -/
protected theorem sub_eq_add_neg [LawfulNegZero α] (p q : Poly α) : p - q = p + -q := rfl

/-- The negation of a difference is the difference the other way round. -/
protected theorem neg_sub (p q : Poly α) : -(p - q) = q - p := by
  rw [Poly.sub_eq_add_neg, Poly.sub_eq_add_neg, ← Poly.neg_add, Poly.neg_neg, Poly.add_comm]

/-- Adding a negated term to a negated polynomial gives the negated result. -/
theorem neg_addTerm (p : Poly α) (t : Term α) : (-p).addTerm (-t) = -p.addTerm t := by
  apply ext_coefficient?
  intro e
  rw [coefficient?_addTerm, coefficient?_neg, coefficient?_neg, coefficient?_addTerm, Term.exponent_neg,
    Term.coefficient_neg, accumulate_neg]
  split <;> rfl

/-- The polynomial of a negated term is the negated polynomial of the term. -/
theorem monomial_neg (t : Term α) : monomial (-t) = -monomial t := neg_addTerm 0 t

/-- Negation passes through adding terms one after the other, whichever of them cancel on the way.
-/
theorem neg_extend (p : Poly α) (ts : List (Term α)) : (-p).extend (ts.map (-·)) = -p.extend ts := by
  -- on the terms: after each of them the two polynomials are each other's negation
  induction ts generalizing p with
  | nil => rfl
  | cons t ts ih => rw [List.map_cons, extend_cons, extend_cons, neg_addTerm, ih]

/-- The polynomial of negated terms is the negated polynomial of the terms. -/
theorem ofTerms_map_neg (ts : List (Term α)) : ofTerms (ts.map (-·)) = -ofTerms ts := neg_extend 0 ts

omit [Add α] [Mul α] [Div α] [SignSymmetric α] in
/-- Dropping the term of an exponent takes no part in the sign of the others. -/
theorem neg_erase [LawfulNegZero α] (p : Poly α) (e : UInt32) : (-p).erase e = -p.erase e := by
  apply ext_coefficient?
  intro d
  rw [coefficient?_erase, coefficient?_neg, coefficient?_neg, coefficient?_erase]
  split <;> rfl

/-! ## Products and derivatives -/

omit [Add α] [Mul α] [Div α] [SignSymmetric α] in
/-- A negated left factor negates the second of each pair of terms, and keeps the order of the
pairs. -/
theorem termPairs_neg_left [LawfulNegZero α] (p q : Poly α) :
    termPairs (-p) q = (termPairs p q).map fun pair => (pair.1, -pair.2) := by
  simp only [termPairs, terms_neg, List.map_flatMap, List.map_map, Function.comp_def]

omit [Add α] [Mul α] [Div α] [SignSymmetric α] in
/-- A negated right factor negates the first of each pair of terms, and keeps the order of the
pairs. -/
theorem termPairs_neg_right [LawfulNegZero α] (p q : Poly α) :
    termPairs p (-q) = (termPairs p q).map fun pair => (-pair.1, pair.2) := by
  simp only [termPairs, terms_neg, List.flatMap_map, List.map_flatMap, List.map_map, Function.comp_def]

/-- Negation passes from the left factor to a product, as each of the products of terms is negated.
-/
protected theorem neg_mul (p q : Poly α) : -p * q = -(p * q) := by
  rw [mul_def, mul_def, termPairs_neg_left, List.map_map, ← ofTerms_map_neg, List.map_map]
  exact congrArg ofTerms (List.map_congr_left fun pair _ => Term.mul_neg pair.1 pair.2)

/-- Negation passes from the right factor to a product, as each of the products of terms is negated.
-/
protected theorem mul_neg (p q : Poly α) : p * -q = -(p * q) := by
  rw [mul_def, mul_def, termPairs_neg_right, List.map_map, ← ofTerms_map_neg, List.map_map]
  exact congrArg ofTerms (List.map_congr_left fun pair _ => Term.neg_mul pair.1 pair.2)

/-- Negation passes through the derivative, which takes the terms one by one. -/
theorem neg_derivative [ExponentScalar α] (p : Poly α) : (-p).derivative = -p.derivative := by
  have hterms : (p.terms.map (-·)).filterMap Term.derivative? =
      (p.terms.filterMap Term.derivative?).map (-·) := by
    simp only [List.filterMap_map, List.map_filterMap, Function.comp_def, Term.derivative?_neg]
  rw [derivative, terms_neg, hterms, ofTerms_map_neg, derivative]

/-! ## Divisions -/

omit [Add α] [Mul α] [Div α] [SignSymmetric α] in
/-- The leading term of the negation is the negated leading term. -/
theorem leadingTerm?_neg [LawfulNegZero α] (p : Poly α) :
    (-p).leadingTerm? = p.leadingTerm?.map (-·) := by
  rw [leadingTerm?, terms_neg, List.getLast?_map, leadingTerm?]

omit [Add α] [Mul α] [Div α] [SignSymmetric α] in
/-- The negation of a polynomial without terms has none. -/
theorem leadingTerm?_neg_of_none [LawfulNegZero α] {p : Poly α} (h : p.leadingTerm? = none) :
    (-p).leadingTerm? = none := by
  rw [leadingTerm?_neg, h]
  rfl

omit [Add α] [Mul α] [Div α] [SignSymmetric α] in
/-- The negation has a leading term of the same exponent. -/
theorem leadingTerm?_neg_of_some [LawfulNegZero α] {p : Poly α} {t : Term α}
    (h : p.leadingTerm? = some t) : (-p).leadingTerm? = some (-t) := by
  rw [leadingTerm?_neg, h]
  rfl

/-- The ratio of a negated term to the leading one of the divisor is negated. -/
theorem neg_ratio (top lead : Term α) : ratio (-top) lead = -ratio top lead := by
  rw [ratio, ratio, ← monomial_neg]
  exact congrArg monomial (Term.ext rfl (SignSymmetric.neg_div _ _))

/-- The ratio of a term to a negated leading one is negated. -/
theorem ratio_neg (top lead : Term α) : ratio top (-lead) = -ratio top lead := by
  rw [ratio, ratio, ← monomial_neg]
  exact congrArg monomial (Term.ext rfl (SignSymmetric.div_neg _ _))

variable {d q r : Poly α} {lead top : Term α}

/-- With a negated remainder, a pass leaves a negated remainder. -/
theorem neg_reduce : reduce (-r) d (-top) lead = -reduce r d top lead := by
  rw [reduce, reduce, neg_ratio, Poly.mul_neg, Poly.sub_eq_add_neg, Poly.sub_eq_add_neg, Poly.neg_add,
    neg_erase, Term.exponent_neg]

/-- With a negated divisor, a pass leaves the same remainder. -/
theorem reduce_neg : reduce r (-d) top (-lead) = reduce r d top lead := by
  rw [reduce, reduce, ratio_neg, Poly.neg_mul, Poly.mul_neg, Poly.neg_neg]

/-- A division of a negated remainder, on top of a negated quotient, ends with both of them negated. -/
theorem divideFrom_neg_dividend (hd : d.leadingTerm? = some lead) (q r : Poly α) :
    divideFrom d lead hd (-q) (-r) =
      ⟨-(divideFrom d lead hd q r).quotient, -(divideFrom d lead hd q r).remainder⟩ := by
  -- on the passes: both runs have the same leading exponent in each of them
  induction q, r using divideFrom.induct d lead hd with
  | case1 q r hr =>
    rw [divideFrom_of_none hr, divideFrom_of_none (leadingTerm?_neg_of_none hr)]
  | case2 q r top hr hlt =>
    rw [divideFrom_of_lt hr hlt, divideFrom_of_lt (leadingTerm?_neg_of_some hr) hlt]
  | case3 q r top hr hlt _ ih =>
    rw [divideFrom_of_not_lt hr hlt, divideFrom_of_not_lt (leadingTerm?_neg_of_some hr) hlt, neg_ratio,
      Poly.neg_add, neg_reduce, ih]

/-- A division by a negated divisor, on top of a negated quotient, ends with the quotient negated. -/
theorem divideFrom_neg_divisor (hd : d.leadingTerm? = some lead) (hd' : (-d).leadingTerm? = some (-lead))
    (q r : Poly α) :
    divideFrom (-d) (-lead) hd' (-q) r =
      ⟨-(divideFrom d lead hd q r).quotient, (divideFrom d lead hd q r).remainder⟩ := by
  -- on the passes: the remainders are the same, and the quotients each other's negation
  induction q, r using divideFrom.induct d lead hd with
  | case1 q r hr => rw [divideFrom_of_none hr, divideFrom_of_none hr]
  | case2 q r top hr hlt =>
    have hlt' : top.exponent < (-lead).exponent := hlt
    rw [divideFrom_of_lt hr hlt, divideFrom_of_lt hr hlt']
  | case3 q r top hr hlt _ ih =>
    have hlt' : ¬top.exponent < (-lead).exponent := hlt
    rw [divideFrom_of_not_lt hr hlt, divideFrom_of_not_lt hr hlt', ratio_neg, Poly.neg_add, reduce_neg, ih]

/-- A division of a negated dividend has the negated results, and the same fault. -/
theorem divide_neg_dividend (p d : Poly α) :
    (-p).divide d = (p.divide d).map fun v => ⟨-v.quotient, -v.remainder⟩ := by
  cases hd : d.leadingTerm? with
  | none => rw [divide_of_none _ hd, divide_of_none _ hd]; rfl
  | some lead =>
    rw [divide_of_leadingTerm? _ hd, divide_of_leadingTerm? _ hd]
    exact congrArg Except.ok (divideFrom_neg_dividend hd 0 p)

/-- A division by a negated divisor has the negated quotient, the same remainder and the same fault.
-/
theorem divide_neg_divisor (p d : Poly α) :
    p.divide (-d) = (p.divide d).map fun v => ⟨-v.quotient, v.remainder⟩ := by
  cases hd : d.leadingTerm? with
  | none => rw [divide_of_none _ hd, divide_of_none _ (leadingTerm?_neg_of_none hd)]; rfl
  | some lead =>
    have hd' := leadingTerm?_neg_of_some hd
    rw [divide_of_leadingTerm? _ hd, divide_of_leadingTerm? _ hd']
    exact congrArg Except.ok (divideFrom_neg_divisor hd hd' 0 p)

end Poly

end SignSymmetric

namespace Poly

/-- Negation passes through floating-point arithmetic on polynomials, bit for bit and whatever the
coefficients are. A division has the negated results if the dividend is negated, and the negated quotient
with the same remainder if the divisor is. It always has a result if the divisor is not zero, and the same
fault otherwise. -/
theorem neg_arithmetic (a b : Poly Float) :
    -a + -b = -(a + b) ∧ a - b = -(b - a) ∧ -a * b = -(a * b) ∧ a * -b = -(a * b) ∧
      (-a).derivative = -a.derivative ∧
      ((-a).divide b = (a.divide b).map fun v => ⟨-v.quotient, -v.remainder⟩) ∧
      (a.divide (-b) = (a.divide b).map fun v => ⟨-v.quotient, v.remainder⟩) ∧
      (b ≠ 0 → ∃ v, a.divide b = .ok v ∧ (-a).divide b = .ok ⟨-v.quotient, -v.remainder⟩ ∧
        a.divide (-b) = .ok ⟨-v.quotient, v.remainder⟩) := by
  refine ⟨Poly.neg_add a b, (Poly.neg_sub b a).symm, Poly.neg_mul a b, Poly.mul_neg a b, neg_derivative a,
    divide_neg_dividend a b, divide_neg_divisor a b, fun hb => ?_⟩
  -- a divisor other than zero has a leading term, so the division is the loop, which ends
  obtain ⟨lead, hlead⟩ := exists_leadingTerm? hb
  have hok := divide_of_leadingTerm? a hlead
  refine ⟨_, hok, ?_, ?_⟩
  · rw [divide_neg_dividend, hok]; rfl
  · rw [divide_neg_divisor, hok]; rfl

/-- One product overflows, one is subnormal, and one is lost in a sum. -/
theorem neg_arithmetic_overflow :
    ∃ a b : Poly Float, a.terms = [⟨0, 0.5⟩, ⟨2, 3⟩, ⟨3, 1e-323⟩] ∧ b.terms = [⟨0, 1e308⟩, ⟨1, 10⟩] ∧
      (a * b).terms = [⟨0, 5e307⟩, ⟨1, 5⟩, ⟨2, 1 / 0⟩, ⟨3, 30⟩, ⟨4, 1e-322⟩] ∧ -a * b = -(a * b) ∧
      b ≠ 0 ∧ ∃ v, a.divide b = .ok v ∧ (-a).divide b = .ok ⟨-v.quotient, -v.remainder⟩ ∧
        a.divide (-b) = .ok ⟨-v.quotient, v.remainder⟩ := by
  have hlead : (ofTerms [⟨0, 1e308⟩, ⟨1, 10⟩] : Poly Float).leadingTerm? = some ⟨1, 10⟩ := by
    decide +kernel
  have hne := ne_zero_of_leadingTerm? hlead
  obtain ⟨-, -, hmul, -, -, -, -, hdivide⟩ :=
    neg_arithmetic (ofTerms [⟨0, 0.5⟩, ⟨2, 3⟩, ⟨3, 1e-323⟩]) (ofTerms _)
  refine ⟨_, _, ?_, ?_, ?_, hmul, hne, hdivide hne⟩
  · decide +kernel
  · decide +kernel
  · decide +kernel

end Poly

end SparsePoly
