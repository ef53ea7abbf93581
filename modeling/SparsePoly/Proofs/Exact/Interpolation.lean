import SparsePoly.Interpolation
import SparsePoly.Proofs.Exact.Denotation
import SparsePoly.Proofs.Vandermonde.Inverse

/-!
# The interpolant

Over a field, the polynomial through points with distinct abscissas is the only one that has them as
values and is zero or of a degree below the number of points (`isInterpolant_iff_eq_ofPoints`).

It has the points as values because its coefficients solve the linear system of the Vandermonde
matrix (`isInterpolant_ofPoints`); that vanishing coefficients are dropped changes no value. There is
no other, because two polynomials of such degrees with the same values are the same
(`IsInterpolant.unique`).
-/

open Polynomial

namespace SparsePoly

/-- Points in a row of numbers. -/
theorem samplePairs_flatMap {α : Type*} (points : List (α × α)) (f : α → α) :
    samplePairs (points.flatMap fun point => [point.1, f point.1]) =
      points.map fun point => (point.1, f point.1) := by
  induction points with
  | nil => rfl
  | cons point points ih =>
    rw [List.flatMap_cons, List.map_cons, ← ih]
    rfl

namespace Poly

variable {K : Type*} [Field K] [DecidableEq K]

/-- The polynomial runs through the points, and is zero or of a degree below their number. -/
structure IsInterpolant (p : Poly K) (points : List (K × K)) : Prop where
  /-- The value at each abscissa is the ordinate. -/
  eval_eq : ∀ point ∈ points, p.eval point.1 = point.2
  /-- The degree, if there is one, is below the number of points. -/
  degree_lt : ∀ d ∈ p.degree?, d.toNat < points.length

/-- There is at most one interpolant. -/
theorem IsInterpolant.unique {points : List (K × K)} (hnodup : (points.map Prod.fst).Nodup)
    {p q : Poly K} (hp : p.IsInterpolant points) (hq : q.IsInterpolant points) : p = q := by
  apply toPolynomial_injective
  have hcard : (points.map Prod.fst).toFinset.card = points.length := by
    rw [List.toFinset_card_of_nodup hnodup, List.length_map]
  apply eq_of_degrees_lt_of_eval_finset_eq (points.map Prod.fst).toFinset
  · rw [hcard, degree_toPolynomial_lt_iff]
    exact hp.degree_lt
  · rw [hcard, degree_toPolynomial_lt_iff]
    exact hq.degree_lt
  · intro x hx
    obtain ⟨point, hpoint, rfl⟩ := List.mem_map.1 (List.mem_toFinset.1 hx)
    rw [eval_toPolynomial, eval_toPolynomial, hp.eval_eq point hpoint, hq.eval_eq point hpoint]

/-! ## Polynomials from all their coefficients -/

section Coefficients

omit [DecidableEq K]

/-- The terms of some coefficients stand for the sum of their monomials, as long as all indices are
exponents. -/
theorem toPolynomial_termsOfCoefficients {n : ℕ} (hn : n ≤ 2 ^ 32) {cs : List K}
    (hcs : cs.length = n) : TermList.toPolynomial (termsOfCoefficients cs) =
      ∑ j : Fin n, Polynomial.monomial j (Grid.column n cs j) := by
  rw [TermList.toPolynomial, ← List.sum_ofFn]
  congr 1
  refine List.ext_getElem (by simp [termsOfCoefficients, hcs]) fun i hi hi' => ?_
  rw [List.length_ofFn] at hi'
  have hexponent : (UInt32.ofNat i).toNat = i := UInt32.toNat_ofNat_of_lt' (hi'.trans_le hn)
  simp [termsOfCoefficients, Grid.column, hexponent, hcs]

/-- A sum of monomials has a degree below their number. -/
theorem degree_sum_monomial_lt {n : ℕ} (f : Fin n → K) :
    (∑ j : Fin n, Polynomial.monomial (j : ℕ) (f j)).degree < n := by
  rw [degree_lt_iff_coeff_zero]
  intro m hm
  rw [finsetSum_coeff]
  apply Finset.sum_eq_zero
  intro j _
  rw [coeff_monomial, if_neg (by omega)]

end Coefficients

/-! ## The polynomial through some points -/

section OfPoints

variable {points : List (K × K)}

/-- The coefficients of the polynomial through some points, whether they vanish or not. -/
theorem exists_toPolynomial_ofPoints (hlength : points.length ≤ 2 ^ 32)
    (hnodup : (points.map Prod.fst).Nodup) :
    ∃ c : Fin (Vandermonde.ofPoints points).size → K,
      (ofPoints points).toPolynomial =
        ∑ j : Fin (Vandermonde.ofPoints points).size, Polynomial.monomial (j : ℕ) (c j) ∧
      (Matrix.vandermonde (Vandermonde.ofPoints points).node).mulVec c =
        Grid.column _ (points.map Prod.snd) := by
  set v := Vandermonde.ofPoints points
  have hsize : v.size = points.length := Vandermonde.size_ofPoints points
  have hsamples : (points.map Prod.snd).length = v.size := by rw [hsize, List.length_map]
  refine ⟨Grid.column _ (v.solve (points.map Prod.snd) hsamples), ?_, ?_⟩
  · rw [ofPoints, toPolynomial_ofTerms]
    exact toPolynomial_termsOfCoefficients (by omega) (v.length_solve _ hsamples)
  · have hsolve := v.mulColumn_solve hnodup hsamples
    rw [v.mulColumn_matrix (v.length_solve _ hsamples), v.toMatrix_matrix] at hsolve
    rw [← Grid.column_ofFn (Matrix.mulVec _ _), hsolve]

/-- The polynomial through some points is an interpolant. -/
theorem isInterpolant_ofPoints (hlength : points.length ≤ 2 ^ 32)
    (hnodup : (points.map Prod.fst).Nodup) : (ofPoints points).IsInterpolant points := by
  obtain ⟨c, hc, hsystem⟩ := exists_toPolynomial_ofPoints hlength hnodup
  have hsize := Vandermonde.size_ofPoints points
  constructor
  · intro point hpoint
    obtain ⟨i, hi, rfl⟩ := List.getElem_of_mem hpoint
    -- the row of the system at this point
    have hrow := congrFun hsystem ⟨i, hsize ▸ hi⟩
    have hnode : (Vandermonde.ofPoints points).node ⟨i, hsize ▸ hi⟩ = points[i].1 := by
      simp [Vandermonde.node, Vandermonde.ofPoints, hi]
    have hvalue : Grid.column (Vandermonde.ofPoints points).size (points.map Prod.snd)
        ⟨i, hsize ▸ hi⟩ = points[i].2 := by
      simp [Grid.column, hi]
    rw [hvalue, Matrix.mulVec, dotProduct] at hrow
    rw [← eval_toPolynomial, hc, eval_finsetSum, ← hrow]
    apply Finset.sum_congr rfl
    intro j _
    rw [eval_monomial, Matrix.vandermonde_apply, hnode, mul_comm]
  · rw [← degree_toPolynomial_lt_iff, hc, ← hsize]
    exact degree_sum_monomial_lt c

end OfPoints

/-! ## Uniqueness -/

/-- Through points with distinct abscissas there is one interpolant, which is the polynomial that is
built, from the points or from a row of numbers. So a polynomial of a degree below the number of
points is built again from its own values. -/
theorem isInterpolant_iff_eq_ofPoints {points : List (K × K)}
    (hnodup : (points.map Prod.fst).Nodup) (hlength : points.length ≤ 2 ^ 32) :
    (∀ p : Poly K, p.IsInterpolant points ↔ p = ofPoints points) ∧
      (∀ samples, samplePairs samples = points →
        ∀ p : Poly K, p.IsInterpolant points ↔ p = ofSamples samples) ∧
      ∀ q : Poly K, (∀ d ∈ q.degree?, d.toNat < points.length) →
        ofPoints (points.map fun point => (point.1, q.eval point.1)) = q ∧
        ofSamples (points.flatMap fun point => [point.1, q.eval point.1]) = q := by
  have hunique : ∀ p : Poly K, p.IsInterpolant points ↔ p = ofPoints points := by
    intro p
    constructor
    · intro hp
      exact hp.unique hnodup (isInterpolant_ofPoints hlength hnodup)
    · rintro rfl
      exact isInterpolant_ofPoints hlength hnodup
  refine ⟨hunique, ?_, ?_⟩
  · rintro samples rfl
    exact hunique
  · intro q hq
    have hsame : ofPoints (points.map fun point => (point.1, q.eval point.1)) = q := by
      have hfst : (points.map fun point => (point.1, q.eval point.1)).map Prod.fst =
          points.map Prod.fst := by
        rw [List.map_map]
        rfl
      rw [← hfst] at hnodup
      -- the polynomial itself is an interpolant of its values
      refine (isInterpolant_ofPoints (by rwa [List.length_map]) hnodup).unique hnodup ⟨?_, ?_⟩
      · intro point hpoint
        obtain ⟨sample, -, rfl⟩ := List.mem_map.1 hpoint
        rfl
      · rwa [List.length_map]
    rw [ofSamples, samplePairs_flatMap]
    exact ⟨hsame, hsame⟩

/-- Three points of `2 * x + 1` have no other interpolant, and give it back. -/
theorem isInterpolant_iff_eq_ofPoints_line :
    (([(0, 1), (1, 3), (2, 5)] : List (ℚ × ℚ)).map Prod.fst).Nodup ∧
    (∀ p : Poly ℚ, p.IsInterpolant [(0, 1), (1, 3), (2, 5)] ↔
      p = ofPoints [(0, 1), (1, 3), (2, 5)]) ∧
    ofSamples [0, (ofTerms [⟨1, 2⟩, ⟨0, 1⟩] : Poly ℚ).eval 0,
        1, (ofTerms [⟨1, 2⟩, ⟨0, 1⟩] : Poly ℚ).eval 1,
        2, (ofTerms [⟨1, 2⟩, ⟨0, 1⟩] : Poly ℚ).eval 2] = (ofTerms [⟨1, 2⟩, ⟨0, 1⟩] : Poly ℚ) := by
  have hnodup : (([(0, 1), (1, 3), (2, 5)] : List (ℚ × ℚ)).map Prod.fst).Nodup := by
    decide +kernel
  have htop : (ofTerms [⟨1, 2⟩, ⟨0, 1⟩] : Poly ℚ).degree? = some 1 := by
    decide +kernel
  have hdegree : ∀ d ∈ (ofTerms [⟨1, 2⟩, ⟨0, 1⟩] : Poly ℚ).degree?, d.toNat < 3 := by
    intro d hd
    rw [htop] at hd
    cases hd
    decide
  obtain ⟨hunique, -, hsame⟩ := isInterpolant_iff_eq_ofPoints hnodup (by simp)
  exact ⟨hnodup, hunique, (hsame _ hdegree).2⟩

end Poly

end SparsePoly
