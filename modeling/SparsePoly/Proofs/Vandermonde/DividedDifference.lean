import SparsePoly.Proofs.Storage.Factors
import SparsePoly.Proofs.Vandermonde.Inverse

/-!
# Divided differences

Over a field and for distinct nodes, row `i` of the lower factor takes samples to their divided
difference over the first `i + 1` nodes (`lowerInverse_eq_dividedDifference`).

A divided difference is defined by recursion on the number of nodes, from those over all but the first
and over all but the last of them (`dividedDifference`). The row is a sum of the samples with weights,
each the reciprocal of a product of differences. Both agree over any run of consecutive nodes
(`dividedDifference_eq_sum`): to leave out a node is to multiply each weight by the difference to it
(`sum_nodalWeight_erase`), so the weights over all but the first and over all but the last node differ by
the weights over all nodes, times the difference of the last and the first.
-/

open Finset Lagrange

namespace SparsePoly.Vandermonde

variable {K : Type*} [Field K]

/-- The divided difference of the samples `y` over the nodes `x` from index `a` to index `a + n`. -/
def dividedDifference (x y : ℕ → K) : ℕ → ℕ → K
  | a, 0 => y a
  | a, n + 1 =>
    (dividedDifference x y (a + 1) n - dividedDifference x y a n) / (x (a + n + 1) - x a)

/-! ## Weights over sets of nodes -/

section Weights

variable {ι : Type*} [DecidableEq ι] {s : Finset ι} {x : ι → K}

/-- Leaving out a node multiplies the weight of another one by their difference. -/
theorem nodalWeight_erase (hx : Set.InjOn x s) {i k : ι} (hi : i ∈ s) (hk : k ∈ s) (hki : k ≠ i) :
    nodalWeight (s.erase i) x k = nodalWeight s x k * (x k - x i) := by
  have hne : x k - x i ≠ 0 := sub_ne_zero_of_ne fun h => hki (hx hk hi h)
  rw [nodalWeight, nodalWeight, erase_right_comm,
    ← mul_prod_erase (s.erase k) _ (mem_erase.2 ⟨hki.symm, hi⟩), mul_right_comm,
    inv_mul_cancel₀ hne, one_mul]

/-- The weighted sum without a node, as a sum over all nodes. -/
theorem sum_nodalWeight_erase (hx : Set.InjOn x s) {i : ι} (hi : i ∈ s) (y : ι → K) :
    ∑ k ∈ s.erase i, nodalWeight (s.erase i) x k * y k =
      ∑ k ∈ s, nodalWeight s x k * (x k - x i) * y k := by
  rw [← add_sum_erase s _ hi, sub_self, mul_zero, zero_mul, zero_add]
  apply sum_congr rfl
  intro k hk
  rw [nodalWeight_erase hx hi (mem_of_mem_erase hk) (ne_of_mem_erase hk)]

/-- The weighted sum over all nodes from those without either of two of them. -/
theorem sum_nodalWeight_eq_div (hx : Set.InjOn x s) {i j : ι} (hi : i ∈ s) (hj : j ∈ s) (hij : i ≠ j)
    (y : ι → K) :
    ∑ k ∈ s, nodalWeight s x k * y k =
      (∑ k ∈ s.erase i, nodalWeight (s.erase i) x k * y k -
        ∑ k ∈ s.erase j, nodalWeight (s.erase j) x k * y k) / (x j - x i) := by
  have hne : x j - x i ≠ 0 := sub_ne_zero_of_ne fun h => hij (hx hj hi h).symm
  rw [sum_nodalWeight_erase hx hi, sum_nodalWeight_erase hx hj, eq_div_iff hne, sum_mul,
    ← sum_sub_distrib]
  apply sum_congr rfl
  intro k _
  ring

end Weights

/-! ## Divided differences as weighted sums -/

/-- A divided difference over distinct nodes is the sum of the samples with the weights of their
nodes. -/
theorem dividedDifference_eq_sum {x : ℕ → K} (y : ℕ → K) {a n : ℕ}
    (hx : Set.InjOn x (Ico a (a + n + 1) : Finset ℕ)) :
    dividedDifference x y a n =
      ∑ k ∈ Ico a (a + n + 1), nodalWeight (Ico a (a + n + 1)) x k * y k := by
  -- on the number of nodes, wherever the run of them begins
  induction n generalizing a with
  | zero => simp [dividedDifference, nodalWeight]
  | succ n ih =>
    have hfirst : (Ico a (a + n + 2)).erase a = Ico (a + 1) (a + 1 + n + 1) := by
      ext k
      simp only [mem_erase, mem_Ico]
      omega
    have hlast : (Ico a (a + n + 2)).erase (a + n + 1) = Ico a (a + n + 1) := by
      ext k
      simp only [mem_erase, mem_Ico]
      omega
    have hxfirst : Set.InjOn x (Ico (a + 1) (a + 1 + n + 1) : Finset ℕ) := by
      rw [← hfirst]
      exact hx.mono (coe_subset.2 (erase_subset _ _))
    have hxlast : Set.InjOn x (Ico a (a + n + 1) : Finset ℕ) := by
      rw [← hlast]
      exact hx.mono (coe_subset.2 (erase_subset _ _))
    -- both shorter runs are the whole one without a node at its end
    have ha : a ∈ Ico a (a + n + 2) := mem_Ico.2 (by omega)
    have hb : a + n + 1 ∈ Ico a (a + n + 2) := mem_Ico.2 (by omega)
    rw [dividedDifference, ih hxfirst, ih hxlast, ← hfirst, ← hlast]
    exact (sum_nodalWeight_eq_div hx ha hb (by omega) y).symm

/-! ## The rows of the lower factor -/

variable {v : Vandermonde K}

/-- The weight of a node among the first ones. -/
theorem weight_take_eq {i j : ℕ} (hi : i < v.size) (hj : j < i + 1) :
    weight (v.nodes.take (i + 1)) j = nodalWeight (range (i + 1)) (fun k => v.nodes.getD k 0) j := by
  have hlength : (v.nodes.take (i + 1)).length = i + 1 := List.length_take_of_le hi
  rw [weight_eq _ (by omega), hlength, nodalWeight, prod_inv_distrib]
  congr 1
  apply prod_congr rfl
  intro k hk
  rw [getD_take hj, getD_take (mem_range.1 (mem_of_mem_erase hk))]

/-- Over a field, the lower factor, which is the one that is filled in place, takes samples at distinct
nodes to their divided differences over the first nodes. -/
theorem lowerInverse_eq_dividedDifference (hnodup : v.nodes.Nodup) (y : List K) :
    Storage.fillLower v.nodes = v.lowerInverse ∧
      ∀ i < v.size, ∑ j ∈ range v.size, v.lowerInverse.entry i j * y.getD j 0 =
        dividedDifference (fun k => v.nodes.getD k 0) (fun k => y.getD k 0) 0 i := by
  refine ⟨Storage.fillLower_eq (div_one 1) v, fun i hi => ?_⟩
  have hinj : Set.InjOn (fun k => v.nodes.getD k 0) (Ico 0 (0 + i + 1) : Finset ℕ) := by
    refine (injOn_getD hnodup).mono fun k hk => ?_
    rw [mem_coe, mem_Ico, zero_add] at hk
    rw [mem_coe, mem_range]
    exact hk.2.trans_le hi
  rw [v.sum_lowerInverse_mul _ hi, dividedDifference_eq_sum _ hinj, zero_add, ← range_eq_Ico]
  apply sum_congr rfl
  intro k hk
  rw [weight_take_eq hi (mem_range.1 hk)]

/-- The samples `1, 2, 8` of `2 ^ x` at the nodes `0`, `1` and `3`. -/
theorem lowerInverse_eq_dividedDifference_rat : [(0 : ℚ), 1, 3].Nodup ∧
    ∑ j ∈ range 3, (⟨[0, 1, 3]⟩ : Vandermonde ℚ).lowerInverse.entry 2 j * [(1 : ℚ), 2, 8].getD j 0 =
      ((8 - 2) / (3 - 1) - (2 - 1) / (1 - 0)) / (3 - 0) := by
  have hnodup : (⟨[0, 1, 3]⟩ : Vandermonde ℚ).nodes.Nodup := by decide +kernel
  obtain ⟨-, hrow⟩ := lowerInverse_eq_dividedDifference hnodup [1, 2, 8]
  exact ⟨hnodup, hrow 2 (by decide)⟩

end SparsePoly.Vandermonde
