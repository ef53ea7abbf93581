import SparsePoly.Proofs.Exact.Ring
import SparsePoly.Proofs.Storage.Factors
import SparsePoly.Proofs.Vandermonde.Newton

/-!
# The Newton basis

Over a field, the columns of the upper factor hold the coefficients of the Newton polynomials, which are
the products of `x - a` over the first nodes `a` (`entry_upperInverse_eq_coefficient`). Here they are
multiplied by the product of `Poly`, whose exponents wrap around. That matters for columns that have
`2 ^ 32` nodes or more before them: there the entries whose exponents agree modulo `2 ^ 32` add up.

The coefficients that are computed for a column are those of a polynomial over the natural exponents
(`getD_newtonPoly`). To let the exponents wrap around is to evaluate that polynomial at the basis vector
of the exponent `1` in the algebra over the group of exponents (`toAlgebra_rootProduct`).
-/

open Polynomial (aeval X C)

namespace SparsePoly.Poly

open AddMonoidAlgebra (single)

variable {K : Type*} [Field K] [DecidableEq K]

/-- The polynomial `x - a`. -/
def rootFactor (a : K) : Poly K := monomial ⟨1, 1⟩ - monomial ⟨0, a⟩

/-- The product of `x - a` over some `a`, from the first one on. -/
def rootProduct (as : List K) : Poly K := as.foldl (fun p a => p * rootFactor a) 1

/-! ## Wrapped exponents -/

/-- A factor `x - a` stands for `X - a` at the exponent `1`. -/
theorem toAlgebra_rootFactor (a : K) :
    (rootFactor a).toAlgebra = aeval (single (1 : UInt32) (1 : K)) (X - C a) := by
  rw [rootFactor, toAlgebra_sub, toAlgebra_monomial, toAlgebra_monomial, map_sub, Polynomial.aeval_X,
    Polynomial.aeval_C]
  rfl

/-- A product with wrapped exponents stands for the Newton polynomial at the exponent `1`. -/
theorem toAlgebra_rootProduct (as : List K) :
    (rootProduct as).toAlgebra =
      aeval (single (1 : UInt32) (1 : K)) (Vandermonde.newton as) := by
  -- on the nodes from the last one on, as the product takes them from the first one on
  induction as using List.reverseRecOn with
  | nil => exact toAlgebra_one.trans (map_one _).symm
  | append_singleton as a ih =>
    rw [Vandermonde.newton_append, map_mul, ← ih, ← toAlgebra_rootFactor, ← toAlgebra_mul,
      rootProduct, List.foldl_append]
    rfl

/-- Adding up the exponent one gives the number of summands, modulo `2 ^ 32`. -/
theorem nsmul_one_eq_ofNat (n : ℕ) : n • (1 : UInt32) = UInt32.ofNat n := by
  induction n with
  | zero => rfl
  | succ n ih => rw [succ_nsmul, ih, UInt32.ofNat_add]; rfl

omit [DecidableEq K] in
/-- Letting exponents wrap around adds up the coefficients whose exponents agree. -/
theorem coeff_aeval_single {P : Polynomial K} {n : ℕ} (hn : P.natDegree < n) (e : UInt32) :
    (aeval (single (1 : UInt32) (1 : K)) P).coeff e =
      ∑ i ∈ Finset.range n with UInt32.ofNat i = e, P.coeff i := by
  rw [Polynomial.aeval_eq_sum_range' hn, AddMonoidAlgebra.coeff_sum, Finsupp.finsetSum_apply,
    Finset.sum_filter]
  apply Finset.sum_congr rfl
  intro i _
  rw [AddMonoidAlgebra.single_pow, nsmul_one_eq_ofNat, one_pow, AddMonoidAlgebra.smul_single,
    AddMonoidAlgebra.coeff_single, Finsupp.single_apply, smul_eq_mul, mul_one]

end SparsePoly.Poly

namespace SparsePoly.Vandermonde

variable {K : Type*} [Field K] [DecidableEq K] (v : Vandermonde K)

/-- The coefficients of a product over the first nodes are sums of entries of a column. -/
theorem coefficient_rootProduct {j : ℕ} (hj : j < v.size) (e : UInt32) :
    (Poly.rootProduct (v.nodes.take j)).coefficient e =
      ∑ i ∈ Finset.range v.size with UInt32.ofNat i = e, v.upperInverse.entry i j := by
  have hdegree : (newton (v.nodes.take j)).natDegree < v.size := by
    rwa [natDegree_newton, List.length_take_of_le hj.le]
  rw [← Poly.coeff_toAlgebra, Poly.toAlgebra_rootProduct, Poly.coeff_aeval_single hdegree]
  apply Finset.sum_congr rfl
  intro i hi
  rw [entry_upperInverse v (Finset.mem_range.1 (Finset.mem_filter.1 hi).1) hj, getD_newtonPoly]

/-- As long as no exponent wraps around, only one entry has the exponent. -/
theorem entry_upperInverse_eq {j : ℕ} (hj : j < v.size) (hj32 : j < UInt32.size) {e : UInt32}
    (he : e.toNat < v.size) :
    v.upperInverse.entry e.toNat j = (Poly.rootProduct (v.nodes.take j)).coefficient e := by
  rw [v.coefficient_rootProduct hj, Finset.sum_eq_single_of_mem e.toNat]
  · rw [Finset.mem_filter, Finset.mem_range]
    exact ⟨he, UInt32.ofNat_toNat⟩
  · intro i hi hie
    rw [Finset.mem_filter, Finset.mem_range] at hi
    -- another index with this exponent is beyond all exponents, and so below the diagonal
    apply v.entry_upperInverse_of_lt hi.1
    by_contra hij
    refine hie ?_
    rw [← hi.2, UInt32.toNat_ofNat_of_lt' (by omega)]

/-- Over a field, the entry of the upper factor in row `i` and column `j` is the coefficient of `x ^ i` in
the product of `x - a` over the first `j` nodes `a`, whether the nodes are distinct or not. If there are so
many nodes that exponents wrap around, a coefficient is the sum of the entries of its exponent. The
factor, which is the one that is filled in place, is upper triangular with ones on its diagonal. -/
theorem entry_upperInverse_eq_coefficient :
    (∀ j < v.size, j < UInt32.size → ∀ e : UInt32, e.toNat < v.size →
      v.upperInverse.entry e.toNat j = (Poly.rootProduct (v.nodes.take j)).coefficient e) ∧
    (∀ j < v.size, ∀ e : UInt32, (Poly.rootProduct (v.nodes.take j)).coefficient e =
      ∑ i ∈ Finset.range v.size with UInt32.ofNat i = e, v.upperInverse.entry i j) ∧
    (∀ i < v.size, ∀ j < i, v.upperInverse.entry i j = 0) ∧
    (∀ j < v.size, v.upperInverse.entry j j = 1) ∧
    Storage.fillUpper v.nodes = v.upperInverse := by
  refine ⟨?_, ?_, ?_, ?_, Storage.fillUpper_eq v⟩
  · intro j hj hj32 e he
    exact v.entry_upperInverse_eq hj hj32 he
  · intro j hj e
    exact v.coefficient_rootProduct hj e
  · intro i hi j hji
    exact v.entry_upperInverse_of_lt hi hji
  · intro j hj
    exact v.entry_upperInverse_self hj

/-- The coefficient of `x` in `(x - 2) * (x - 3) * (x - 2)`. -/
theorem entry_upperInverse_eq_coefficient_repeated :
    (⟨[2, 3, 2, 7]⟩ : Vandermonde ℚ).upperInverse.entry 1 3 =
        (Poly.rootProduct [(2 : ℚ), 3, 2]).coefficient 1 ∧
      (Poly.rootProduct [(2 : ℚ), 3, 2]).coefficient 1 = 16 := by
  obtain ⟨hentry, -⟩ := entry_upperInverse_eq_coefficient (⟨[2, 3, 2, 7]⟩ : Vandermonde ℚ)
  refine ⟨hentry 3 (by decide) (by decide) 1 (by decide), ?_⟩
  decide +kernel

end SparsePoly.Vandermonde
