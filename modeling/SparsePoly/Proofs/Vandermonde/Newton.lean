import Mathlib.Data.List.GetD
import Mathlib.LinearAlgebra.Lagrange
import SparsePoly.Vandermonde.Inverse

/-!
# Newton polynomials and divided differences

Over a field, the two factors of the inverse of a Vandermonde matrix are what they are meant to be:

* the coefficients that `newtonPoly` computes are those of the product of `X - C x` over the nodes
  (`getD_newtonPoly`);
* the weights of the nodes take samples of a polynomial to its divided difference, which is the
  leading coefficient if the polynomial has one degree less than there are nodes
  (`sum_weight_mul_eval`).

Together they say that the divided differences of a Newton polynomial vanish, but for the one over
all its nodes and one more, which is one (`sum_weight_mul_eval_newton`).
-/

open Polynomial

namespace SparsePoly.Vandermonde

variable {K : Type*} [Field K]

/-! ## Newton polynomials -/

/-- The product of `X - C x` over some nodes `x`. -/
noncomputable def newton (nodes : List K) : K[X] := (nodes.map fun x => X - C x).prod

theorem newton_append (nodes : List K) (x : K) : newton (nodes ++ [x]) = newton nodes * (X - C x) := by
  simp [newton]

theorem monic_newton (nodes : List K) : (newton nodes).Monic := by
  induction nodes using List.reverseRecOn with
  | nil => exact monic_one
  | append_singleton nodes x ih =>
    rw [newton_append]
    exact ih.mul (monic_X_sub_C x)

theorem natDegree_newton (nodes : List K) : (newton nodes).natDegree = nodes.length := by
  induction nodes using List.reverseRecOn with
  | nil => exact natDegree_one
  | append_singleton nodes x ih =>
    rw [newton_append, (monic_newton nodes).natDegree_mul (monic_X_sub_C x), ih, natDegree_X_sub_C,
      List.length_append, List.length_singleton]

theorem eval_newton_of_mem {nodes : List K} {x : K} (hx : x ∈ nodes) :
    (newton nodes).eval x = 0 := by
  obtain ⟨before, behind, rfl⟩ := List.append_of_mem hx
  simp [newton]

/-- Multiplication by one more factor, on the coefficients of a monic polynomial. -/
theorem getD_mulRoot (x : K) {cs : List K} {p : K[X]} (hmonic : p.Monic)
    (hlength : cs.length = p.natDegree + 1) (hcs : ∀ i, cs.getD i 0 = p.coeff i) (i : ℕ) :
    (mulRoot x cs).getD i 0 = (p * (X - C x)).coeff i := by
  have hpos : 0 < cs.length := by omega
  cases i with
  | zero =>
    rw [getD_zero_mulRoot x hpos, mul_coeff_zero, hcs]
    simp
  | succ i =>
    rw [coeff_mul_X_sub_C, ← hcs i, ← hcs (i + 1)]
    rcases Nat.lt_trichotomy (i + 1) cs.length with hi | hi | hi
    · exact getD_succ_mulRoot x hi
    · -- the new leading coefficient, which is that of a product of monic polynomials
      have hlead : cs.getD i 0 = 1 := by
        rw [hcs, show i = p.natDegree by omega, hmonic.coeff_natDegree]
      rw [hi, getD_length_mulRoot x hpos, ← hi, hlead, List.getD_eq_default _ _ hi.ge, zero_mul,
        sub_zero]
    · have hlong : (mulRoot x cs).length ≤ i + 1 := by
        rw [length_mulRoot x (List.ne_nil_of_length_pos hpos)]
        exact hi
      rw [List.getD_eq_default _ _ hlong, List.getD_eq_default _ _ (Nat.le_of_lt_succ hi),
        List.getD_eq_default _ _ hi.le, zero_mul, sub_zero]

/-- The coefficients that are computed for a Newton polynomial. -/
theorem getD_newtonPoly (nodes : List K) (i : ℕ) :
    (newtonPoly nodes).getD i 0 = (newton nodes).coeff i := by
  induction nodes using List.reverseRecOn generalizing i with
  | nil =>
    cases i with
    | zero => simp [newtonPoly, newton]
    | succ i => simp [newtonPoly, newton, coeff_one]
  | append_singleton nodes x ih =>
    rw [newtonPoly_append, newton_append]
    exact getD_mulRoot x (monic_newton nodes) (by rw [length_newtonPoly, natDegree_newton]) ih i

/-! ## Divided differences -/

/-- The product over all nodes but the one of index `j`. -/
theorem prod_eraseIdx (nodes : List K) (f : K → K) {j : ℕ} (hj : j < nodes.length) :
    ((nodes.eraseIdx j).map f).prod =
      ∏ i ∈ (Finset.range nodes.length).erase j, f (nodes.getD i 0) := by
  have hnodes : nodes = (List.range nodes.length).map fun i => nodes.getD i 0 := by
    refine List.ext_getElem (by simp) fun i hi _ => ?_
    simp [hi]
  have hrange : (List.range nodes.length).eraseIdx j = (List.range nodes.length).erase j := by
    have herase := List.nodup_range.erase_getElem (i := j) (h := by simpa using hj)
    rw [List.getElem_range] at herase
    exact herase.symm
  have hfinset : ((List.range nodes.length).erase j).toFinset =
      (Finset.range nodes.length).erase j := by
    ext i
    simp [List.nodup_range.mem_erase_iff]
  have hnodup : ((List.range nodes.length).erase j).Nodup := List.nodup_range.erase j
  rw [← hfinset, List.prod_toFinset _ hnodup, ← hrange]
  conv_lhs => rw [hnodes]
  rw [List.eraseIdx_map, List.map_map]
  rfl

/-- The weight of a node is the reciprocal of the product of its differences to the others. -/
theorem weight_eq (nodes : List K) {j : ℕ} (hj : j < nodes.length) :
    weight nodes j =
      (∏ i ∈ (Finset.range nodes.length).erase j, (nodes.getD j 0 - nodes.getD i 0))⁻¹ := by
  rw [← prod_eraseIdx nodes (fun y => nodes.getD j 0 - y) hj, weight, one_div, List.prod_eq_foldl,
    List.foldl_map]

/-- Of distinct nodes, those at different indices are different. -/
theorem injOn_getD {nodes : List K} (hnodup : nodes.Nodup) :
    Set.InjOn (fun i => nodes.getD i 0) (Finset.range nodes.length : Set ℕ) := by
  intro i hi j hj hij
  rw [Finset.mem_coe, Finset.mem_range] at hi hj
  simp only [List.getD_eq_getElem _ _ hi, List.getD_eq_getElem _ _ hj] at hij
  exact (hnodup.getElem_inj_iff).1 hij

/-- The weights take samples of a polynomial to its divided difference. -/
theorem sum_weight_mul_eval {nodes : List K} (hnodup : nodes.Nodup) {p : K[X]}
    (hp : p.degree < nodes.length) :
    ∑ k ∈ Finset.range nodes.length, weight nodes k * p.eval (nodes.getD k 0) =
      p.coeff (nodes.length - 1) := by
  have hsum := Lagrange.coeff_eq_sum (injOn_getD hnodup) (P := p) (by rwa [Finset.card_range])
  rw [Finset.card_range] at hsum
  rw [hsum]
  apply Finset.sum_congr rfl
  intro k hk
  rw [weight_eq nodes (Finset.mem_range.1 hk), div_eq_mul_inv, mul_comm]

theorem mem_take_of_lt {nodes : List K} {k j : ℕ} (hk : k < j) (hlength : k < nodes.length) :
    nodes.getD k 0 ∈ nodes.take j := by
  rw [List.getD_eq_getElem _ _ hlength, List.mem_take_iff_getElem]
  exact ⟨k, by omega, rfl⟩

/-- The divided differences of a Newton polynomial over the first nodes. -/
theorem sum_weight_mul_eval_newton {nodes : List K} (hnodup : nodes.Nodup) {i j : ℕ}
    (hi : i < nodes.length) (hj : j < nodes.length) :
    ∑ k ∈ Finset.range (i + 1),
        weight (nodes.take (i + 1)) k * (newton (nodes.take j)).eval (nodes.getD k 0) =
      if i = j then 1 else 0 := by
  have hlength : (nodes.take (i + 1)).length = i + 1 := by
    rw [List.length_take]
    omega
  have hdegree : (newton (nodes.take j)).natDegree = j := by
    rw [natDegree_newton, List.length_take]
    omega
  rcases Nat.lt_or_ge i j with hij | hij
  · -- the polynomial vanishes at all nodes of the divided difference
    rw [if_neg hij.ne]
    apply Finset.sum_eq_zero
    intro k hk
    rw [Finset.mem_range] at hk
    rw [eval_newton_of_mem (mem_take_of_lt (by omega) (by omega)), mul_zero]
  · -- its degree is at most one less than there are such nodes
    have hsum := sum_weight_mul_eval (hnodup.sublist (List.take_sublist (i + 1) nodes))
      (p := newton (nodes.take j)) (by
        rw [degree_eq_natDegree (monic_newton _).ne_zero, hdegree, hlength]
        exact_mod_cast Nat.lt_succ_of_le hij)
    rw [hlength, Nat.add_sub_cancel] at hsum
    rw [Finset.sum_congr rfl fun k hk => by rw [← getD_take (Finset.mem_range.1 hk)], hsum]
    split
    · rename_i heq
      have hlead := (monic_newton (nodes.take j)).coeff_natDegree
      rw [hdegree] at hlead
      rw [heq, hlead]
    · exact coeff_eq_zero_of_natDegree_lt (by omega)

end SparsePoly.Vandermonde
