import Mathlib.Data.List.GetD
import Mathlib.Data.List.Induction
import SparsePoly.Interpolation
import SparsePoly.Poly.Coefficient
import SparsePoly.Proofs.Binary64.Propagation

/-!
# Coincident abscissas

Nothing rejects points of which two have the same abscissa. The polynomial shows it: its leading
coefficient, which is infinite or NaN, stands at the highest exponent that there can be
(`leadingTerm?_of_coincident`).

* The coefficients are put together without a collision of exponents, so each of them is there unless
  it equals zero (`coefficient?_ofTerms_termsOfCoefficients`).
* The last of them is the sum of the ordinates with the weights of their nodes (`entry_inverse_last`).
  The weight of either coincident node is the reciprocal of a product in which the difference of the
  two is a factor. It is not finite, and neither is anything that it is multiplied with or added to.

No ordinate can hide this, not even `0`, and nor can the other abscissas, which may themselves overflow
the product.
-/

universe u

namespace SparsePoly

/-! ## Polynomials from all their coefficients -/

section Coefficients

variable {α : Type u} [Zero α] [BEq α] [Add α]

/-- The last of some terms is added to the polynomial of the others. -/
theorem Poly.ofTerms_append_singleton (ts : List (Term α)) (t : Term α) :
    Poly.ofTerms (ts ++ [t]) = (Poly.ofTerms ts).addTerm t := by
  unfold Poly.ofTerms Poly.extend
  rw [List.foldl_append]
  rfl

/-- A polynomial has the coefficients that it is built from, except for those that equal zero. -/
theorem Poly.coefficient?_ofTerms_termsOfCoefficients {cs : List α} (hcs : cs.length ≤ 2 ^ 32)
    (e : UInt32) :
    (Poly.ofTerms (Poly.termsOfCoefficients cs)).coefficient? e = cs[e.toNat]?.bind nonzero? := by
  -- the induction follows the coefficients as they are added, from the constant on
  induction cs using List.reverseRecOn with
  | nil => rfl
  | append_singleton cs c ih =>
    rw [List.length_append, List.length_singleton] at hcs
    have hexponent : (UInt32.ofNat cs.length).toNat = cs.length :=
      UInt32.toNat_ofNat_of_lt' (by rw [UInt32.size]; omega)
    have hterms : Poly.termsOfCoefficients (cs ++ [c]) =
        Poly.termsOfCoefficients cs ++ [⟨UInt32.ofNat cs.length, c⟩] := by
      simp [Poly.termsOfCoefficients, List.zipIdx_append]
    rw [hterms, Poly.ofTerms_append_singleton, Poly.coefficient?_addTerm, ih (by omega)]
    by_cases he : UInt32.ofNat cs.length = e
    · -- no coefficient of this exponent has been added before
      have hlast : e.toNat = cs.length := by rw [← he, hexponent]
      simp [hlast, he, accumulate, nonzero?]
    · have hlast : e.toNat ≠ cs.length := fun hlast => he (by rw [← hlast, UInt32.ofNat_toNat])
      rw [if_neg he]
      congr 1
      rcases Nat.lt_or_gt_of_ne hlast with hlt | hgt
      · rw [List.getElem?_append_left hlt]
      · rw [List.getElem?_eq_none (Nat.le_of_lt hgt), List.getElem?_eq_none]
        rw [List.length_append, List.length_singleton]
        exact hgt

/-- Each of those coefficients is there unless it equals zero. -/
theorem Poly.coefficient?_ofTerms_of_lt {cs : List α} (hcs : cs.length ≤ 2 ^ 32) {i : ℕ}
    (hi : i < cs.length) :
    (Poly.ofTerms (Poly.termsOfCoefficients cs)).coefficient? (UInt32.ofNat i) =
      if cs[i] == 0 then none else some cs[i] := by
  have hexponent : (UInt32.ofNat i).toNat = i :=
    UInt32.toNat_ofNat_of_lt' (by rw [UInt32.size]; omega)
  rw [Poly.coefficient?_ofTerms_termsOfCoefficients hcs, hexponent, List.getElem?_eq_getElem hi]
  rfl

/-- No exponent goes beyond them. -/
theorem Poly.exponent_lt_of_mem_ofTerms {cs : List α} (hcs : cs.length ≤ 2 ^ 32) {t : Term α}
    (ht : t ∈ (Poly.ofTerms (Poly.termsOfCoefficients cs)).terms) :
    t.exponent.toNat < cs.length := by
  rw [Poly.mem_terms_iff, Poly.coefficient?_ofTerms_termsOfCoefficients hcs] at ht
  rw [← Nat.not_le]
  intro hle
  rw [List.getElem?_eq_none hle] at ht
  cases ht

/-- The last coefficient leads unless it equals zero. -/
theorem Poly.leadingTerm?_ofTerms_termsOfCoefficients {cs : List α} {n : ℕ} {c : α}
    (hcs : cs.length ≤ 2 ^ 32) (hlength : cs.length = n + 1) (hlast : cs[n]? = some c)
    (hc : (c == 0) = false) :
    (Poly.ofTerms (Poly.termsOfCoefficients cs)).leadingTerm? = some ⟨UInt32.ofNat n, c⟩ := by
  have hexponent : (UInt32.ofNat n).toNat = n :=
    UInt32.toNat_ofNat_of_lt' (by rw [UInt32.size]; omega)
  apply Poly.leadingTerm?_eq_some
  · rw [Poly.mem_terms_iff, Poly.coefficient?_ofTerms_termsOfCoefficients hcs, hexponent, hlast]
    simp [nonzero?, hc]
  · intro u hu
    have hlt := Poly.exponent_lt_of_mem_ofTerms hcs hu
    rw [UInt32.le_iff_toNat_le, hexponent]
    omega

end Coefficients

/-! ## Weights of coincident nodes -/

namespace Vandermonde

open Binary64

/-- The weight of a node that coincides with another one is not finite, whatever the other nodes are. -/
theorem not_isFinite_weight {nodes : List Float} {i j : ℕ} (hi : i < nodes.length)
    (hj : j < nodes.length) (hij : i ≠ j) (heq : (nodes[i] == nodes[j]) = true) :
    (weight nodes i).isFinite = false := by
  have hmem : nodes[j] ∈ nodes.eraseIdx i :=
    List.mem_eraseIdx_iff_getElem.2 ⟨j, hj, hij.symm, rfl⟩
  apply not_isFinite_one_div
  apply zeroOrNaN_foldl_mul
  -- the other node is one of those that the product runs over
  refine Or.inr ⟨nodes[j], hmem, ?_⟩
  rw [List.getD_eq_getElem _ _ hi]
  exact zeroOrNaN_sub heq

/-- The leading coefficient of the solution of a system with coincident nodes is not finite. -/
theorem not_isFinite_solve {v : Vandermonde Float} (hv : ¬ v.Distinct) {samples : List Float}
    (h : samples.length = v.size) :
    ∃ c, (v.solve samples h)[v.size - 1]? = some c ∧ c.isFinite = false := by
  obtain ⟨i, j, hi, hj, hij, heq⟩ :
      ∃ (i j : ℕ) (hi : i < v.nodes.length) (hj : j < v.nodes.length),
        i < j ∧ (v.nodes[i] == v.nodes[j]) = true := by
    simpa [Distinct, List.pairwise_iff_getElem] using hv
  have hlast : v.size - 1 < (v.solve samples h).length := by
    rw [length_solve, size]
    omega
  refine ⟨_, List.getElem?_eq_getElem hlast, ?_⟩
  rw [getElem_solve]
  -- the summand of the node of index `i`
  have hentry : (v.inverse.entry (v.size - 1) i).isFinite = false := by
    rw [v.entry_inverse_last hi]
    have hweight := not_isFinite_weight hi hj (Nat.ne_of_lt hij) heq
    exact not_isFinite_add (Or.inr (not_isFinite_mul (Or.inr hweight)))
  have hsample : i < samples.length := h ▸ hi
  have hmem : v.inverse.entry (v.size - 1) i * samples[i] ∈
      List.zipWith (· * ·) ((List.range v.size).map fun j => v.inverse.entry (v.size - 1) j)
        samples := by
    refine List.mem_iff_getElem.2 ⟨i, ?_, ?_⟩
    · rw [List.length_zipWith, List.length_map, List.length_range]
      exact Nat.lt_min.2 ⟨hi, hsample⟩
    · rw [List.getElem_zipWith, List.getElem_map, List.getElem_range]
  exact not_isFinite_sum hmem (not_isFinite_mul (Or.inl hentry))

end Vandermonde

/-! ## The polynomial through points with coincident abscissas -/

namespace Poly

open Binary64

/-- If two abscissas compare equal, the polynomial through the points, whether they are given as such
or as a row of numbers, has the degree one below their number, and its leading coefficient is infinite
or NaN. So its coefficients are not all finite. -/
theorem leadingTerm?_of_coincident {points : List (Float × Float)} (hlength : points.length ≤ 2 ^ 32)
    (hpoints : ¬ (Vandermonde.ofPoints points).Distinct) {p : Poly Float}
    (hp : p = ofPoints points ∨ ∃ samples, samplePairs samples = points ∧ p = ofSamples samples) :
    (∃ top, p.leadingTerm? = some top ∧ top.exponent.toNat + 1 = points.length ∧
      (top.coefficient.isInf = true ∨ top.coefficient.isNaN = true)) ∧
    ¬ ∀ t ∈ p.terms, t.coefficient.isFinite = true := by
  obtain rfl : p = ofPoints points := by
    rcases hp with hp | ⟨samples, rfl, hp⟩
    · exact hp
    · exact hp
  set v := Vandermonde.ofPoints points
  have hsize : v.size = points.length := Vandermonde.size_ofPoints points
  have hsamples : (points.map Prod.snd).length = v.size := by rw [hsize, List.length_map]
  obtain ⟨c, hc, hfinite⟩ := Vandermonde.not_isFinite_solve hpoints hsamples
  have hpos : 0 < v.size := by
    obtain ⟨hlast, -⟩ := List.getElem?_eq_some_iff.1 hc
    rw [v.length_solve _ hsamples] at hlast
    omega
  have hlead : (ofPoints points).leadingTerm? = some ⟨UInt32.ofNat (v.size - 1), c⟩ :=
    leadingTerm?_ofTerms_termsOfCoefficients (by rw [v.length_solve _ hsamples]; omega)
      (by rw [v.length_solve _ hsamples]; omega) hc (beq_zero_of_not_isFinite hfinite)
  refine ⟨⟨_, hlead, ?_, isInf_or_isNaN_of_not_isFinite hfinite⟩, fun hall => ?_⟩
  · have hexponent : (UInt32.ofNat (v.size - 1)).toNat = v.size - 1 :=
      UInt32.toNat_ofNat_of_lt' (by rw [UInt32.size]; omega)
    rw [hexponent]
    omega
  · rw [hall _ (leadingTerm?_mem hlead)] at hfinite
    cases hfinite

/-- Zeros of both signs coincide, next to abscissas whose difference overflows, and all ordinates are
zero. -/
theorem leadingTerm?_of_coincident_zeros :
    ¬ (Vandermonde.ofPoints [(1e308, 0), (-1e308, 0), (0, 0), (-0.0, 0)]).Distinct ∧
      ∃ top, (ofSamples [1e308, 0, -1e308, 0, 0, 0, -0.0, 0]).leadingTerm? = some top ∧
        top.exponent.toNat + 1 = 4 ∧
        (top.coefficient.isInf = true ∨ top.coefficient.isNaN = true) := by
  have hpoints :
      ¬ (Vandermonde.ofPoints [(1e308, 0), (-1e308, 0), (0, 0), (-0.0, 0)] : Vandermonde Float).Distinct := by
    decide +kernel
  have hlength :
      ([(1e308, 0), (-1e308, 0), (0, 0), (-0.0, 0)] : List (Float × Float)).length ≤ 2 ^ 32 := by
    decide
  exact ⟨hpoints, (leadingTerm?_of_coincident hlength hpoints (Or.inr ⟨_, rfl, rfl⟩)).1⟩

end Poly

end SparsePoly
