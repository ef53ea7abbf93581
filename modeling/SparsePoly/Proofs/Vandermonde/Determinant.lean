import Mathlib.LinearAlgebra.Matrix.Determinant.Basic
import SparsePoly.Proofs.Vandermonde.Inverse
import SparsePoly.Proofs.Vandermonde.Invertible

/-!
# The determinant of a Vandermonde matrix

The determinant is computed from the nodes, as a product of differences, and the matrix is never looked
at. Over a field this is the determinant of the matrix all the same (`determinant_eq_det`).

The differences are multiplied row by row of the triangle of pairs: those to the first node, then those
to the second one, and so on (`differences`). Taken together they are the factors that belong to the
pairs of indices `i < j`, each with the sign that the determinant asks for (`prod_differences`).
-/

open Finset (Ioi)

namespace SparsePoly.Vandermonde

variable {K : Type*} [Field K]

/-- The product of the differences to the first node. -/
theorem prod_map_sub (x : K) (xs : List K) :
    (xs.map (· - x)).prod = ∏ i : Fin xs.length, (xs.getD i 0 - x) := by
  have hlist : xs.map (· - x) = List.ofFn fun i : Fin xs.length => xs.getD i 0 - x := by
    refine List.ext_getElem (by simp) fun i _ _ => ?_
    simp
  rw [hlist, List.prod_ofFn]

/-- The differences in the order in which they are multiplied are those of the pairs of indices. -/
theorem prod_differences (nodes : List K) :
    (differences nodes).prod =
      ∏ i : Fin nodes.length, ∏ j ∈ Ioi i, (nodes.getD j 0 - nodes.getD i 0) := by
  induction nodes with
  | nil => rfl
  | cons x xs ih =>
    rw [differences, List.prod_append, ih, prod_map_sub]
    -- the first row of the triangle belongs to the index `0`
    simp only [List.length_cons, Fin.prod_univ_succ, Fin.prod_Ioi_zero, Fin.prod_Ioi_succ,
      Fin.val_succ, Fin.val_zero, List.getD_cons_zero, List.getD_cons_succ]

variable (v : Vandermonde K)

/-- The determinant that is computed, with a factor for each pair of indices. -/
theorem determinant_eq_prod :
    v.determinant = ∏ i : Fin v.size, ∏ j ∈ Ioi i, (v.node j - v.node i) := by
  rw [determinant_eq_product, product, ← List.prod_eq_foldl, prod_differences]
  rfl

/-- Over a field, for any number of nodes, the product of differences is the determinant of the matrix,
and it is zero if and only if two nodes coincide. -/
theorem determinant_eq_det :
    v.determinant = (v.matrix.toMatrix v.size).det ∧
      (v.determinant = 0 ↔ ∃ i j, v.node i = v.node j ∧ i ≠ j) := by
  have hdet : v.determinant = (Matrix.vandermonde v.node).det := by
    rw [determinant_eq_prod, Matrix.det_vandermonde]
  refine ⟨?_, ?_⟩
  · rw [toMatrix_matrix, hdet]
  · rw [hdet, Matrix.det_vandermonde_eq_zero_iff]

end SparsePoly.Vandermonde
