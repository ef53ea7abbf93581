import SparsePoly.Poly.Basic

/-!
# Values and derivatives

The value of a polynomial sums its terms from the lowest exponent on; the derivative collects the
derivatives of its terms.
-/

universe u

namespace SparsePoly.Poly

variable {α : Type u} [Zero α] [BEq α] [Add α] [Mul α] [ExponentScalar α]

/-- The value at `x`. -/
def eval [One α] (p : Poly α) (x : α) : α :=
  p.terms.foldl (fun y t => y + t.eval x) 0

/-- The derivative. -/
def derivative (p : Poly α) : Poly α :=
  ofTerms (p.terms.filterMap Term.derivative?)

end SparsePoly.Poly
