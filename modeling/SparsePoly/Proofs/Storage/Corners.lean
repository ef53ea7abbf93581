import SparsePoly.Proofs.Storage.Factors
import SparsePoly.Scalar.Binary64

/-!
# Corners of grids, and the first nodes

A Vandermonde matrix and its two triangular factors over the first few nodes are the corners of those
over all nodes (`take_eq_corner`). More nodes do not change what is computed from the first ones: an
entry hangs on the nodes up to the larger one of its indices, and it is the same operations in the same
order that lead to it. No law of arithmetic is used of the nodes, so coincident, infinite and NaN nodes
are no exception.

That is plain where an entry is computed by itself, as a function of its indices and the nodes
(`corner_tabulate_cells`). Loops that fill a grid in place go over more cells if there are more nodes,
and they read cells that they have written before. They are compared through what they end with:
`fillMatrix_eq` here, and `fillUpper_eq` and `fillLower_eq` for the factors.
-/

universe u

namespace SparsePoly

variable {α : Type u}

/-! ## Corners -/

/-- The first `m` rows and columns of a grid, or the grid itself if it does not have as many. -/
def Grid.corner (m : ℕ) (g : Grid α) : Grid α where
  rows := (g.rows.take m).map fun row => row.take m

/-- The corner of a grid has the same cells, as far as the grid goes. -/
theorem Grid.corner_tabulate (m n : ℕ) (f : ℕ → ℕ → α) :
    (tabulate n f).corner m = tabulate (min m n) f := by
  unfold corner tabulate
  congr 1
  refine Array.ext (by simp) fun i hi hi' => ?_
  refine Array.ext (by simp) fun j hj hj' => ?_
  simp

/-- The matrix over the first `m` nodes, or over all if there are not as many. -/
def Vandermonde.take (m : ℕ) (v : Vandermonde α) : Vandermonde α := ⟨v.nodes.take m⟩

/-- If the cells of the corner hang on the first nodes alone, the grid over the first nodes is the
corner. -/
theorem Grid.corner_tabulate_cells {cell : List α → ℕ → ℕ → α} (nodes : List α) {m : ℕ}
    (h : ∀ i j, i < m → j < m → cell (nodes.take m) i j = cell nodes i j) :
    tabulate (nodes.take m).length (cell (nodes.take m)) =
      (tabulate nodes.length (cell nodes)).corner m := by
  rw [corner_tabulate, List.length_take]
  apply tabulate_congr
  intro i j hi hj
  exact h i j (by omega) (by omega)

/-! ## The matrix, filled in place -/

namespace Storage

section Matrix

variable [Zero α] [One α] [Mul α]

/-- Writes the next entry of a row of powers, from the one to its left. -/
def stepPowers (nodes : List α) (i : ℕ) (g : Grid α) (j : ℕ) : Grid α :=
  write g i j (g.entry i (j - 1) * nodes.getD i 0)

/-- The matrix, filled in place row by row, each row from its first entry on. -/
def fillMatrix (nodes : List α) : Grid α :=
  let n := nodes.length
  loop 0 n (fun g i => loop 1 n (stepPowers nodes i) (write g i 0 1)) (zeros n)

/-- What the cells of the matrix are to hold. -/
def matrixCell (nodes : List α) (i j : ℕ) : α := Vandermonde.nodePower (nodes.getD i 0) j

/-- A step of the inner loop writes the next power of a node. -/
theorem Holds.power {nodes : List α} {i j : ℕ} {g : Grid α} (h1 : 1 ≤ j) (hi : i < nodes.length)
    (hj : j < nodes.length)
    (hg : Holds nodes.length (matrixCell nodes) (fun k l => k < i ∨ k = i ∧ l < j) g) :
    Holds nodes.length (matrixCell nodes) (fun k l => k < i ∨ k = i ∧ l < j + 1)
      (stepPowers nodes i g j) := by
  have hvalue : g.entry i (j - 1) * nodes.getD i 0 = matrixCell nodes i j := by
    -- the cell to the left is the last that was written
    obtain ⟨j, rfl⟩ := Nat.exists_eq_add_of_le' h1
    rw [Nat.add_sub_cancel, hg.entry_eq i j hi (by omega) (by omega)]
    rfl
  exact (hg.write hvalue).mono (by intros; omega)

/-- The inner loop writes a row. -/
theorem Holds.powers {nodes : List α} {i : ℕ} {g : Grid α} (hi : i < nodes.length)
    (hg : Holds nodes.length (matrixCell nodes) (fun k _ => k < i) g) :
    Holds nodes.length (matrixCell nodes) (fun k _ => k < i + 1)
      (loop 1 nodes.length (stepPowers nodes i) (Storage.write g i 0 1)) := by
  have hone : (1 : α) = matrixCell nodes i 0 := rfl
  have hrow := loop_induction (fun j => Holds nodes.length (matrixCell nodes)
      fun k l => k < i ∨ k = i ∧ l < j) (Nat.one_le_of_lt hi) ((hg.write hone).mono (by intros; omega))
    fun j g h1 hj hg => hg.power h1 hi hj
  exact hrow.mono (by intros; omega)

/-- Filling the matrix in place ends with the powers of the nodes. -/
theorem fillMatrix_eq (v : Vandermonde α) : fillMatrix v.nodes = v.matrix := by
  have hzeros : Holds v.nodes.length (matrixCell v.nodes) (fun k _ => k < 0)
      (zeros v.nodes.length) := ⟨⟨_, rfl⟩, by intros; omega⟩
  have hfilled := loop_induction (fun i => Holds v.nodes.length (matrixCell v.nodes)
      fun k _ => k < i) (Nat.zero_le _) hzeros fun i g _ hi hg => hg.powers hi
  exact hfilled.eq_tabulate (by intros; assumption)

end Matrix

/-! ## Cells of the first nodes -/

/-- A row of the matrix hangs on its own node. -/
theorem matrixCell_take [Zero α] [One α] [Mul α] (nodes : List α) {m i : ℕ} (hi : i < m) (j : ℕ) :
    matrixCell (nodes.take m) i j = matrixCell nodes i j := by
  rw [matrixCell, Vandermonde.getD_take hi, matrixCell]

/-- A column of the upper factor hangs on the nodes in front of that of its index. -/
theorem upperCell_take [Zero α] [One α] [Sub α] [Mul α] [Neg α] (nodes : List α) {m j : ℕ}
    (hj : j < m) (i : ℕ) : upperCell (nodes.take m) i j = upperCell nodes i j := by
  rw [upperCell, List.take_take, Nat.min_eq_left (Nat.le_of_lt hj), upperCell]

/-- A row of the lower factor hangs on the nodes up to that of its index. -/
theorem lowerCell_take [Zero α] [One α] [Sub α] [Mul α] [Div α] (nodes : List α) {m i : ℕ}
    (hi : i < m) (j : ℕ) : lowerCell (nodes.take m) i j = lowerCell nodes i j := by
  rw [lowerCell, List.take_take, Nat.min_eq_left (Nat.succ_le_of_lt hi), lowerCell]

end Storage

namespace Vandermonde

open Storage

theorem matrix_take [Zero α] [One α] [Mul α] (v : Vandermonde α) (m : ℕ) :
    (v.take m).matrix = v.matrix.corner m :=
  Grid.corner_tabulate_cells v.nodes fun _ j hi _ => matrixCell_take v.nodes hi j

theorem upperInverse_take [Zero α] [One α] [Sub α] [Mul α] [Neg α] (v : Vandermonde α) (m : ℕ) :
    (v.take m).upperInverse = v.upperInverse.corner m := by
  rw [upperInverse_eq_tabulate, upperInverse_eq_tabulate]
  exact Grid.corner_tabulate_cells v.nodes fun i _ _ hj => upperCell_take v.nodes hj i

theorem lowerInverse_take [Zero α] [One α] [Sub α] [Mul α] [Div α] (v : Vandermonde α) (m : ℕ) :
    (v.take m).lowerInverse = v.lowerInverse.corner m := by
  rw [lowerInverse_eq_tabulate, lowerInverse_eq_tabulate]
  exact Grid.corner_tabulate_cells v.nodes fun _ j hi _ => lowerCell_take v.nodes hi j

/-- Over the first nodes, whatever floating-point numbers they are, the matrix and both of its
triangular factors are the corners of those over all nodes. That holds as well if they are filled in
place, with loops that go over more cells and columns if there are more nodes. -/
theorem take_eq_corner (v : Vandermonde Float) (m : ℕ) :
    ((v.take m).matrix = v.matrix.corner m ∧
        (v.take m).lowerInverse = v.lowerInverse.corner m ∧
        (v.take m).upperInverse = v.upperInverse.corner m) ∧
      fillMatrix (v.nodes.take m) = (fillMatrix v.nodes).corner m ∧
      fillLower (v.nodes.take m) = (fillLower v.nodes).corner m ∧
      fillUpper (v.nodes.take m) = (fillUpper v.nodes).corner m := by
  -- the loop of the lower factor begins with `1` where the closed form divides
  have hone : (1 : Float) / 1 = 1 := by decide +kernel
  have hmatrix := v.matrix_take m
  have hlower := v.lowerInverse_take m
  have hupper := v.upperInverse_take m
  refine ⟨⟨hmatrix, hlower, hupper⟩, ?_, ?_, ?_⟩
  · rw [fillMatrix_eq v, ← hmatrix]
    exact fillMatrix_eq (v.take m)
  · rw [fillLower_eq hone v, ← hlower]
    exact fillLower_eq hone (v.take m)
  · rw [fillUpper_eq v, ← hupper]
    exact fillUpper_eq (v.take m)

end Vandermonde

end SparsePoly
