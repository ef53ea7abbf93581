import Mathlib.LinearAlgebra.Matrix.NonsingularInverse
import Mathlib.LinearAlgebra.Vandermonde
import SparsePoly.Proofs.Vandermonde.Newton

/-!
# The inverse of a Vandermonde matrix is its inverse

Over a field, the closed form for distinct nodes is the inverse of the matrix on both sides, and so
the solution of a linear system is its only solution (`inverse_eq`).

Grids are read as matrices (`Grid.toMatrix`), and columns of numbers as vectors. The matrix takes the
upper factor to the values of the Newton polynomials at the nodes, which the lower factor takes to
their divided differences (`lowerInverse_mul`). Those make up the identity. That the factors multiply
to the inverse although products beyond the triangles are left out is `toMatrix_inverse`.
-/

open Polynomial

namespace SparsePoly

variable {K : Type*} [Field K]

/-! ## Grids as matrices -/

namespace Grid

/-- The first `n` rows and columns of a grid. -/
def toMatrix (n : ℕ) (g : Grid K) : Matrix (Fin n) (Fin n) K := Matrix.of fun i j => g.entry i j

@[simp] theorem toMatrix_apply {n : ℕ} (g : Grid K) (i j : Fin n) :
    g.toMatrix n i j = g.entry i j := rfl

theorem sum_eq_list_sum (xs : List K) : sum xs = xs.sum := List.sum_eq_foldl.symm

/-- The sum over a range of indices. -/
theorem sum_map_range' (f : ℕ → K) (a b : ℕ) :
    sum ((List.range' a (b - a)).map f) = ∑ k ∈ Finset.Ico a b, f k := by
  rw [sum_eq_list_sum]
  rfl

/-- The product of a row with a column. -/
theorem sum_zipWith_mul {n : ℕ} (f : ℕ → K) {c : List K} (hc : c.length = n) :
    sum (List.zipWith (· * ·) ((List.range n).map f) c) = ∑ k : Fin n, f k * c.getD k 0 := by
  have hzip : List.zipWith (· * ·) ((List.range n).map f) c =
      List.ofFn fun k : Fin n => f k * c.getD k 0 := by
    refine List.ext_getElem (by simp [hc]) fun k hk hk' => ?_
    simp [hc]
  rw [sum_eq_list_sum, hzip, List.sum_ofFn]

/-- A column of numbers as a vector. -/
def column (n : ℕ) (c : List K) : Fin n → K := fun i => c.getD i 0

theorem column_ofFn {n : ℕ} (f : Fin n → K) : column n (List.ofFn f) = f := by
  funext i
  simp [column]

theorem ofFn_column {n : ℕ} {c : List K} (hc : c.length = n) : List.ofFn (column n c) = c := by
  refine List.ext_getElem (by simp [hc]) fun k hk hk' => ?_
  simp [column, hk']

/-- The product with a column is that of the matrix with the vector. -/
theorem mulColumn_eq {n : ℕ} (f : ℕ → ℕ → K) {c : List K} (hc : c.length = n) :
    (tabulate n f).mulColumn c =
      List.ofFn (((tabulate n f).toMatrix n).mulVec (column n c)) := by
  rw [mulColumn_tabulate]
  refine List.ext_getElem (by simp) fun i hi hi' => ?_
  rw [List.length_ofFn] at hi'
  rw [List.getElem_map, List.getElem_range, sum_zipWith_mul (f i) hc, List.getElem_ofFn,
    Matrix.mulVec, dotProduct]
  apply Finset.sum_congr rfl
  intro k _
  rw [toMatrix_apply, entry_tabulate hi' k.isLt, column]

end Grid

namespace Vandermonde

variable (v : Vandermonde K)

/-- The node of a row. -/
def node (i : Fin v.size) : K := v.nodes.getD i 0

theorem nodePower_eq (x : K) (j : ℕ) : nodePower x j = x ^ j := by
  induction j with
  | zero => rw [nodePower, pow_zero]
  | succ j ih => rw [nodePower, ih, pow_succ]

/-- The matrix that is computed is the Vandermonde matrix of the nodes. -/
theorem toMatrix_matrix : v.matrix.toMatrix v.size = Matrix.vandermonde v.node := by
  ext i j
  rw [Grid.toMatrix_apply, entry_matrix v i.isLt j.isLt, nodePower_eq, Matrix.vandermonde_apply]
  rfl

/-! ## The factors -/

/-- Column `j` of the upper factor belongs to a polynomial of degree `j`. -/
theorem natDegree_newton_take (j : Fin v.size) : (newton (v.nodes.take j)).natDegree = j := by
  rw [natDegree_newton, List.length_take]
  exact Nat.min_eq_left j.isLt.le

/-- The upper factor holds the coefficients of the Newton polynomials. -/
theorem toMatrix_upperInverse : v.upperInverse.toMatrix v.size =
    Matrix.of fun i j : Fin v.size => (newton (v.nodes.take j)).coeff i := by
  ext i j
  rw [Grid.toMatrix_apply, entry_upperInverse v i.isLt j.isLt, getD_newtonPoly, Matrix.of_apply]

/-- The matrix takes the upper factor to the values of the Newton polynomials at the nodes. -/
theorem matrix_mul_upperInverse : v.matrix.toMatrix v.size * v.upperInverse.toMatrix v.size =
    Matrix.of fun i j : Fin v.size => (newton (v.nodes.take j)).eval (v.node i) := by
  rw [toMatrix_matrix, toMatrix_upperInverse]
  exact (Matrix.eval_matrixOfPolynomials_eq_vandermonde_mul_matrixOfPolynomials v.node _
    fun j => (v.natDegree_newton_take j).le).symm

/-- A row of the lower factor weights the nodes up to that of its row, and no others. -/
theorem sum_lowerInverse_mul (f : ℕ → K) {i : ℕ} (hi : i < v.size) :
    ∑ k ∈ Finset.range v.size, v.lowerInverse.entry i k * f k =
      ∑ k ∈ Finset.range (i + 1), weight (v.nodes.take (i + 1)) k * f k := by
  rw [← Finset.sum_subset (Finset.range_mono hi)]
  · apply Finset.sum_congr rfl
    intro k hk
    rw [Finset.mem_range] at hk
    rw [entry_lowerInverse v hi (by omega), if_pos (by omega)]
  · intro k hk hki
    rw [Finset.mem_range] at hk hki
    rw [entry_lowerInverse v hi hk, if_neg (by omega), zero_mul]

/-- The lower factor takes those values to divided differences, which make up the identity. -/
theorem lowerInverse_mul (hnodup : v.nodes.Nodup) : v.lowerInverse.toMatrix v.size *
    (v.matrix.toMatrix v.size * v.upperInverse.toMatrix v.size) = 1 := by
  ext i j
  rw [matrix_mul_upperInverse, Matrix.mul_apply, Matrix.one_apply]
  simp only [Grid.toMatrix_apply, Matrix.of_apply, node]
  rw [Fin.sum_univ_eq_sum_range (fun k => v.lowerInverse.entry i k *
    (newton (v.nodes.take j)).eval (v.nodes.getD k 0)), v.sum_lowerInverse_mul _ i.isLt,
    sum_weight_mul_eval_newton hnodup i.isLt j.isLt]
  exact if_congr Fin.ext_iff.symm rfl rfl

/-- Beyond the triangles, the factors vanish. -/
theorem toMatrix_inverse : v.inverse.toMatrix v.size =
    v.upperInverse.toMatrix v.size * v.lowerInverse.toMatrix v.size := by
  ext i j
  rw [Grid.toMatrix_apply, entry_inverse v i.isLt j.isLt, Grid.sum_map_range', Matrix.mul_apply]
  simp only [Grid.toMatrix_apply]
  rw [Fin.sum_univ_eq_sum_range (fun k => v.upperInverse.entry i k * v.lowerInverse.entry k j)]
  refine Finset.sum_subset (fun k hk => ?_) fun k hk hkij => ?_
  · rw [Finset.mem_range]
    exact (Finset.mem_Ico.1 hk).2
  · rw [Finset.mem_range] at hk
    rw [Finset.mem_Ico, max_le_iff] at hkij
    -- an index that is left out is below the row or below the column
    rcases Nat.lt_or_ge k i with hki | hki
    · rw [v.entry_upperInverse_of_lt i.isLt hki, zero_mul]
    · have hkj : k < j := Nat.lt_of_not_le fun hjk => hkij ⟨⟨hki, hjk⟩, hk⟩
      rw [v.entry_lowerInverse_of_lt j.isLt hkj, mul_zero]

/-! ## The inverse -/

/-- For distinct nodes, the closed form is an inverse on the right. -/
theorem matrix_mul_inverse (hnodup : v.nodes.Nodup) :
    v.matrix.toMatrix v.size * v.inverse.toMatrix v.size = 1 := by
  rw [toMatrix_inverse, ← Matrix.mul_assoc]
  -- a left inverse of a square matrix is a right inverse
  exact mul_eq_one_comm.1 (v.lowerInverse_mul hnodup)

/-- For distinct nodes, the closed form is an inverse on the left. -/
theorem inverse_mul_matrix (hnodup : v.nodes.Nodup) :
    v.inverse.toMatrix v.size * v.matrix.toMatrix v.size = 1 :=
  mul_eq_one_comm.1 (v.matrix_mul_inverse hnodup)

/-- The matrix takes coefficients to samples as a linear map does. -/
theorem mulColumn_matrix {c : List K} (hc : c.length = v.size) : v.matrix.mulColumn c =
    List.ofFn ((v.matrix.toMatrix v.size).mulVec (Grid.column v.size c)) :=
  Grid.mulColumn_eq _ hc

/-- The solution is what the inverse makes of the samples. -/
theorem solve_eq {y : List K} (hy : y.length = v.size) : v.solve y hy =
    List.ofFn ((v.inverse.toMatrix v.size).mulVec (Grid.column v.size y)) :=
  Grid.mulColumn_eq _ hy

/-- What the matrix makes of some coefficients has them as its solution. -/
theorem solve?_mulColumn (hnodup : v.nodes.Nodup) {c : List K} (hc : c.length = v.size) :
    v.solve? (v.matrix.mulColumn c) = some c := by
  have hlength : (v.matrix.mulColumn c).length = v.size := by
    rw [mulColumn_matrix v hc, List.length_ofFn]
  rw [solve?_eq_some v _ hlength, solve_eq, mulColumn_matrix v hc, Grid.column_ofFn,
    Matrix.mulVec_mulVec, inverse_mul_matrix v hnodup, Matrix.one_mulVec, Grid.ofFn_column hc]

/-- The matrix takes a solution back to the samples. -/
theorem mulColumn_solve (hnodup : v.nodes.Nodup) {y : List K} (hy : y.length = v.size) :
    v.matrix.mulColumn (v.solve y hy) = y := by
  rw [mulColumn_matrix v (length_solve v y hy), solve_eq, Grid.column_ofFn, Matrix.mulVec_mulVec,
    matrix_mul_inverse v hnodup, Matrix.one_mulVec, Grid.ofFn_column hy]

/-- Over distinct nodes, the closed form is the inverse on both sides, and a linear system has the
solution that is computed and no other. -/
theorem inverse_eq (hnodup : v.nodes.Nodup) :
    v.inverse.toMatrix v.size = v.upperInverse.toMatrix v.size * v.lowerInverse.toMatrix v.size ∧
      v.inverse.toMatrix v.size * v.matrix.toMatrix v.size = 1 ∧
      v.matrix.toMatrix v.size * v.inverse.toMatrix v.size = 1 ∧
      (∀ c : List K, c.length = v.size → v.solve? (v.matrix.mulColumn c) = some c) ∧
      ∀ y : List K, y.length = v.size → (v.solve? y).map v.matrix.mulColumn = some y := by
  refine ⟨v.toMatrix_inverse, v.inverse_mul_matrix hnodup, v.matrix_mul_inverse hnodup, ?_, ?_⟩
  · intro c hc
    exact v.solve?_mulColumn hnodup hc
  · intro y hy
    rw [solve?_eq_some v y hy, Option.map_some, mulColumn_solve v hnodup hy]

/-- The nodes `0`, `1` and `3` are distinct, and `1, 2, 10` are the samples of `1 + x ^ 2` there. -/
theorem inverse_eq_rat : [(0 : ℚ), 1, 3].Nodup ∧
    (⟨[(0 : ℚ), 1, 3]⟩ : Vandermonde ℚ).solve?
        ((⟨[0, 1, 3]⟩ : Vandermonde ℚ).matrix.mulColumn [1, 0, 1]) = some [1, 0, 1] ∧
    ((⟨[(0 : ℚ), 1, 3]⟩ : Vandermonde ℚ).solve? [1, 2, 10]).map
        (⟨[0, 1, 3]⟩ : Vandermonde ℚ).matrix.mulColumn = some [1, 2, 10] := by
  have hnodup : [(0 : ℚ), 1, 3].Nodup := by decide +kernel
  obtain ⟨-, -, -, hsolve, hmatrix⟩ := inverse_eq (⟨[0, 1, 3]⟩ : Vandermonde ℚ) hnodup
  exact ⟨hnodup, hsolve [1, 0, 1] rfl, hmatrix [1, 2, 10] rfl⟩

end Vandermonde

end SparsePoly
