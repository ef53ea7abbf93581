/-!
# Coefficients and their powers

A coefficient type brings the arithmetic classes of core, of which each operation asks for those
that it uses. Two things are added here: how an exponent acts on a coefficient
(`ExponentScalar`), and the one law that the canonical form of a polynomial needs of negation
(`LawfulNegZero`).

`power` is the power of a point: repeated squaring up to `squaringLimit`, and the power of the
coefficient type itself beyond that.
-/

universe u

namespace SparsePoly

/-- Exponents seen from the coefficients: as a factor, and as a power too large for repeated
squaring. -/
class ExponentScalar (α : Type u) where
  /-- The exponent as a coefficient. -/
  ofExponent : UInt32 → α
  /-- The power for exponents above `squaringLimit`. -/
  largePower : α → UInt32 → α

/-- Negation sends exactly the coefficients that equal zero to coefficients that equal zero. -/
class LawfulNegZero (α : Type u) [Zero α] [Neg α] [BEq α] : Prop where
  /-- Negation neither creates nor destroys a zero. -/
  neg_beq_zero (a : α) : (-a == 0) = (a == 0)

variable {α : Type u}

/-- The greatest exponent that is reached by repeated squaring. -/
def squaringLimit : Nat := 2147483647

/-- Square and multiply from the lowest bit of `n` on: `acc` collects the powers `x, x ^ 2, x ^ 4, …`
at the bits that are set. The last square is never taken. -/
def squareMultiply [Mul α] (acc x : α) (n : Nat) : α :=
  let acc := if n % 2 = 1 then acc * x else acc
  if n / 2 = 0 then acc else squareMultiply acc (x * x) (n / 2)
termination_by n
decreasing_by omega

/-- The power `x ^ e`. -/
def power [One α] [Mul α] [ExponentScalar α] (x : α) (e : UInt32) : α :=
  if e.toNat ≤ squaringLimit then squareMultiply 1 x e.toNat else ExponentScalar.largePower x e

end SparsePoly
