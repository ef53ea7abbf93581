import SparsePoly.Scalar.Basic

/-!
# Terms

A term is one summand `coefficient * x ^ exponent` of a polynomial. Exponents are 32-bit words, and
the exponent of a product of terms wraps around like any sum of words.
-/

universe u

namespace SparsePoly

/-- The summand `coefficient * x ^ exponent`. -/
@[ext] structure Term (α : Type u) where
  /-- The power of the variable. -/
  exponent : UInt32
  /-- The factor in front of it. -/
  coefficient : α
deriving DecidableEq

namespace Term

variable {α : Type u}

/-- Equal exponents and coefficients that compare equal. -/
instance [BEq α] : BEq (Term α) where
  beq t u := t.exponent == u.exponent && t.coefficient == u.coefficient

/-- The value of the term at `x`. -/
def eval [One α] [Mul α] [ExponentScalar α] (t : Term α) (x : α) : α :=
  t.coefficient * power x t.exponent

/-- The derivative, or `none` for a constant. -/
def derivative? [Mul α] [ExponentScalar α] (t : Term α) : Option (Term α) :=
  if t.exponent = 0 then none
  else some ⟨t.exponent - 1, t.coefficient * ExponentScalar.ofExponent t.exponent⟩

/-- The product of two terms. Exponents add up modulo `2 ^ 32`. -/
instance [Mul α] : Mul (Term α) where
  mul t u := ⟨t.exponent + u.exponent, t.coefficient * u.coefficient⟩

/-- The term with the opposite coefficient. -/
instance [Neg α] : Neg (Term α) where
  neg t := ⟨t.exponent, -t.coefficient⟩

@[simp] theorem exponent_mul [Mul α] (t u : Term α) :
    (t * u).exponent = t.exponent + u.exponent := rfl

@[simp] theorem coefficient_mul [Mul α] (t u : Term α) :
    (t * u).coefficient = t.coefficient * u.coefficient := rfl

@[simp] theorem exponent_neg [Neg α] (t : Term α) : (-t).exponent = t.exponent := rfl

@[simp] theorem coefficient_neg [Neg α] (t : Term α) : (-t).coefficient = -t.coefficient := rfl

end Term

end SparsePoly
