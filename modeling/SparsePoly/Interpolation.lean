import SparsePoly.Poly.Basic
import SparsePoly.Vandermonde.Inverse

/-!
# Interpolation

The polynomial of the least degree through some points. Its coefficients solve the system of the
Vandermonde matrix over the abscissas; those that equal zero are dropped.

Samples may also come as one row of numbers in which each abscissa is followed by its ordinate. A
last abscissa without an ordinate is ignored.

Abscissas have to be distinct. If two of them coincide, a coefficient is not finite.
-/

universe u

namespace SparsePoly

variable {α : Type u}

/-- The points in a row of numbers. -/
def samplePairs : List α → List (α × α)
  | x :: y :: rest => (x, y) :: samplePairs rest
  | _ => []

/-- The matrix over the abscissas of some points. -/
def Vandermonde.ofPoints (points : List (α × α)) : Vandermonde α := ⟨points.map Prod.fst⟩

@[simp] theorem Vandermonde.size_ofPoints (points : List (α × α)) :
    (ofPoints points).size = points.length := List.length_map _

namespace Poly

/-- The terms of some coefficients, with the constant first. -/
def termsOfCoefficients (cs : List α) : List (Term α) :=
  cs.zipIdx.map fun (c, i) => ⟨UInt32.ofNat i, c⟩

variable [Zero α] [One α] [Add α] [Sub α] [Mul α] [Neg α] [Div α] [BEq α]

/-- The polynomial through some points. -/
def ofPoints (points : List (α × α)) : Poly α :=
  ofTerms <| termsOfCoefficients <|
    (Vandermonde.ofPoints points).solve (points.map Prod.snd) (by
      simp [Vandermonde.ofPoints, Vandermonde.size])

/-- The polynomial through the points in a row of numbers. -/
def ofSamples (samples : List α) : Poly α := ofPoints (samplePairs samples)

end Poly

end SparsePoly
