import SparsePoly.Decimal.Layout
import SparsePoly.Grid

/-!
# Vandermonde matrices

The Vandermonde matrix over some nodes has a row of powers `1, x, x², …` for each node `x`. It is
held as the list of its nodes, from which everything else is computed.

Nodes may coincide. In exact arithmetic the matrix is invertible if and only if they do not, which
the determinant tells: it is the product of the differences of any two nodes. A product of
floating-point differences may also come out as zero because it is too small, or as NaN because it
was too large on the way.
-/

universe u

namespace SparsePoly

/-- A Vandermonde matrix, given by its nodes. -/
structure Vandermonde (α : Type u) where
  /-- The nodes from the first row on. -/
  nodes : List α
deriving BEq

namespace Vandermonde

variable {α : Type u}

/-- The number of rows, and of columns. -/
def size (v : Vandermonde α) : Nat := v.nodes.length

/-- No two nodes compare equal. -/
def Distinct [BEq α] (v : Vandermonde α) : Prop :=
  v.nodes.Pairwise fun x y => (x == y) = false

instance [BEq α] (v : Vandermonde α) : Decidable v.Distinct :=
  inferInstanceAs (Decidable (v.nodes.Pairwise fun x y => (x == y) = false))

/-- Whether there are no nodes. -/
def isEmpty (v : Vandermonde α) : Bool := v.nodes.isEmpty

/-- The power `x ^ j` by repeated multiplication. -/
def nodePower [One α] [Mul α] (x : α) : Nat → α
  | 0 => 1
  | j + 1 => nodePower x j * x

/-- The matrix itself. -/
def matrix [Zero α] [One α] [Mul α] (v : Vandermonde α) : Grid α :=
  .tabulate v.size fun i j => nodePower (v.nodes.getD i 0) j

/-- Within the bounds the matrix has the powers of the nodes. -/
theorem entry_matrix [Zero α] [One α] [Mul α] (v : Vandermonde α) {i j : Nat} (hi : i < v.size)
    (hj : j < v.size) : v.matrix.entry i j = nodePower (v.nodes.getD i 0) j :=
  Grid.entry_tabulate hi hj

/-- The product of the differences of any two nodes, on top of a product found so far. The node that
comes first is taken away from the later one. -/
def mulDifferences [Mul α] [Sub α] (product : α) : List α → α
  | [] => product
  | x :: xs => mulDifferences (xs.foldl (fun d y => d * (y - x)) product) xs

/-- The determinant. -/
def determinant [One α] [Mul α] [Sub α] (v : Vandermonde α) : α := mulDifferences 1 v.nodes

/-- Whether the determinant differs from zero. -/
def isInvertible [Zero α] [One α] [Mul α] [Sub α] [BEq α] (v : Vandermonde α) : Bool :=
  v.determinant != 0

/-- Nodes are written with a fraction, and with an exponent if their magnitude is below `10⁻⁴` or
reaches `10¹⁶`. -/
def nodeLayout : Layout where
  isPositional place := -4 ≤ place ∧ place < 16
  wholeFraction := true

/-- The nodes in writing. -/
def render (v : Vandermonde Float) : String :=
  let nodes := v.nodes.map fun x => String.ofList (nodeLayout.float x)
  "VandermondeMatrix \x7b nodes: [" ++ ", ".intercalate nodes ++ "] \x7d"

end Vandermonde

end SparsePoly
