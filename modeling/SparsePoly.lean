import SparsePoly.Decimal.Basic
import SparsePoly.Decimal.Layout
import SparsePoly.Decimal.Nearest
import SparsePoly.Decimal.Numeral
import SparsePoly.Decimal.Shortest
import SparsePoly.Event
import SparsePoly.Fault
import SparsePoly.Grid
import SparsePoly.Interpolation
import SparsePoly.Poly.Basic
import SparsePoly.Poly.Calculus
import SparsePoly.Poly.Coefficient
import SparsePoly.Poly.Division
import SparsePoly.Poly.Product
import SparsePoly.Poly.Render
import SparsePoly.Poly.TermList
import SparsePoly.Reading
import SparsePoly.Scalar.Basic
import SparsePoly.Scalar.Binary64
import SparsePoly.Term
import SparsePoly.Text.Blank
import SparsePoly.Text.Lowercase
import SparsePoly.Text.Normal
import SparsePoly.Text.Superscript
import SparsePoly.Vandermonde.Basic
import SparsePoly.Vandermonde.Inverse
import SparsePoly.Proofs.Storage.Loops
import SparsePoly.Proofs.Storage.Program
import SparsePoly.Proofs.Decimal.Fields
import SparsePoly.Proofs.Decimal.Nearest
import SparsePoly.Proofs.Decimal.Positional
import SparsePoly.Proofs.Reading.Term
import SparsePoly.Proofs.Reading.RoundTrip
import SparsePoly.Proofs.Vandermonde.Inverse
import SparsePoly.Proofs.Exact.Denotation
import SparsePoly.Proofs.Exact.Interpolation
import SparsePoly.Proofs.Exact.Arithmetic
import SparsePoly.Proofs.Exact.Ring
import SparsePoly.Proofs.Exact.Division
import SparsePoly.Proofs.Reading.Number
import SparsePoly.Proofs.Reading.Faults
import SparsePoly.Proofs.Exact.Evaluation
import SparsePoly.Proofs.Storage.Passes
import SparsePoly.Proofs.Binary64.Propagation
import SparsePoly.Proofs.Interpolation.Coincident
import SparsePoly.Proofs.Binary64.Difference
import SparsePoly.Proofs.Vandermonde.Invertible
import SparsePoly.Proofs.Termwise.Overflow
import SparsePoly.Proofs.Termwise.Sum
import SparsePoly.Proofs.Binary64.Quotient
import SparsePoly.Proofs.Division.Vanishing
import SparsePoly.Proofs.Reading.Composition
import SparsePoly.Proofs.Exact.Derivative
import SparsePoly.Proofs.Termwise.Product
import SparsePoly.Proofs.Vandermonde.Determinant
import SparsePoly.Proofs.Binary64.Integer
import SparsePoly.Proofs.Integer.Exactness
import SparsePoly.Proofs.Binary64.Sign
import SparsePoly.Proofs.Division.Monomial
import SparsePoly.Proofs.Termwise.History
import SparsePoly.Proofs.Termwise.Negation
import SparsePoly.Proofs.Reading.Uniqueness
import SparsePoly.Proofs.Storage.Factors
import SparsePoly.Proofs.Vandermonde.DividedDifference
import SparsePoly.Proofs.Vandermonde.Band
import SparsePoly.Proofs.Exact.NewtonBasis
import SparsePoly.Proofs.Interpolation.Samples
import SparsePoly.Proofs.Storage.Corners
import SparsePoly.Proofs.Reading.Progress
