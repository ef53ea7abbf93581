import SparsePoly.Proofs.Interpolation.Coincident

/-!
# Points and rows of samples

The points of an interpolation come as such, or as a row of numbers in which each abscissa is followed by
its ordinate. Either way they are split into a column of abscissas and one of ordinates before a linear
system is solved, which would not do if the columns had different lengths (`Poly.ofColumns?`).

They never have (`ofColumns?_unzip`). For any row of numbers, of any length and with whatever values, the
polynomial is that of the pairs of consecutive numbers, a last number without a partner changes nothing,
and the polynomial has the coefficients that solve the system, but for those that equal zero
(`ofSamples_eq_ofPoints`).
-/

universe u

namespace SparsePoly

variable {α : Type u} [Zero α]

/-! ## Pairs in a row -/

/-- The numbers at the places `0` and `1`, at the places `2` and `3`, and so on, as long as there are two
of them. -/
def consecutivePairs (samples : List α) : List (α × α) :=
  (List.range (samples.length / 2)).map fun i => (samples.getD (2 * i) 0, samples.getD (2 * i + 1) 0)

/-- There are half as many pairs as numbers, rounded down. -/
theorem length_consecutivePairs (samples : List α) :
    (consecutivePairs samples).length = samples.length / 2 := by
  rw [consecutivePairs, List.length_map, List.length_range]

/-- Taking two numbers off a row again and again gives the pairs at the even places. -/
theorem samplePairs_eq_consecutivePairs (samples : List α) :
    samplePairs samples = consecutivePairs samples := by
  fun_induction samplePairs samples with
  | case1 x y rest ih =>
    have hlength : (x :: y :: rest).length / 2 = rest.length / 2 + 1 := by
      rw [List.length_cons, List.length_cons]
      omega
    rw [consecutivePairs, hlength, List.range_succ_eq_map, List.map_cons, List.map_map, ih]
    rfl
  | case2 samples hshort =>
    match samples with
    | [] | [x] => simp [consecutivePairs]
    | x :: y :: rest => exact absurd rfl (hshort x y rest)

omit [Zero α] in
/-- A last number without a partner is in no pair. -/
theorem samplePairs_dropLast {samples : List α} (hodd : samples.length % 2 = 1) :
    samplePairs samples.dropLast = samplePairs samples := by
  fun_induction samplePairs samples with
  | case1 x y rest ih =>
    have hrest : rest.length % 2 = 1 := by
      rw [List.length_cons, List.length_cons] at hodd
      omega
    have hne : rest ≠ [] := by
      rintro rfl
      cases hrest
    rw [List.dropLast_cons_of_ne_nil (List.cons_ne_nil y rest), List.dropLast_cons_of_ne_nil hne,
      samplePairs, ih hrest]
  | case2 samples hshort =>
    match samples with
    | [] | [x] => rfl
    | x :: y :: rest => exact absurd rfl (hshort x y rest)

/-! ## Columns -/

namespace Vandermonde

variable [One α] [Add α] [Sub α] [Mul α] [Neg α] [Div α]

/-- The system has no solution exactly if there are more or fewer samples than nodes. -/
theorem solve?_eq_none_iff (v : Vandermonde α) (samples : List α) :
    v.solve? samples = none ↔ samples.length ≠ v.size := by
  simp [solve?]

end Vandermonde

namespace Poly

variable [One α] [Add α] [Sub α] [Mul α] [Neg α] [Div α] [BEq α]

/-- The polynomial from a column of abscissas and one of ordinates, unless their lengths differ. -/
def ofColumns? (columns : List α × List α) : Option (Poly α) :=
  ((⟨columns.1⟩ : Vandermonde α).solve? columns.2).map fun cs => ofTerms (termsOfCoefficients cs)

/-- There is no polynomial exactly if the columns have different lengths. -/
theorem ofColumns?_eq_none_iff (columns : List α × List α) :
    ofColumns? columns = none ↔ columns.2.length ≠ columns.1.length := by
  rw [ofColumns?, Option.map_eq_none_iff, Vandermonde.solve?_eq_none_iff, Vandermonde.size]

/-- The columns of some points are of the same length. -/
theorem solve?_unzip (points : List (α × α)) :
    ∃ cs, (⟨points.unzip.1⟩ : Vandermonde α).solve? points.unzip.2 = some cs ∧
      cs.length = points.length ∧ ofPoints points = ofTerms (termsOfCoefficients cs) := by
  rw [List.unzip_eq_map]
  have hlength : (points.map Prod.snd).length = (Vandermonde.ofPoints points).size := by
    rw [Vandermonde.size_ofPoints, List.length_map]
  refine ⟨_, Vandermonde.solve?_eq_some (Vandermonde.ofPoints points) _ hlength, ?_, rfl⟩
  rw [Vandermonde.length_solve, Vandermonde.size_ofPoints]

/-- The columns of some points give the polynomial through them. -/
theorem ofColumns?_unzip (points : List (α × α)) :
    ofColumns? points.unzip = some (ofPoints points) := by
  obtain ⟨cs, hcs, -, hpoly⟩ := solve?_unzip points
  rw [ofColumns?, hcs, hpoly]
  rfl

/-! ## The entry points -/

/-- Columns of different lengths have no polynomial. The one through the points in a row of numbers is
there whatever the numbers are, since the columns of abscissas and ordinates have the same length. It is
that of the pairs of consecutive numbers, and of the row without its last number if the row is of odd
length. Its coefficients are the solution of the system, without those that equal zero. -/
theorem ofSamples_eq_ofPoints (samples : List α) :
    (∀ columns : List α × List α, ofColumns? columns = none ↔ columns.2.length ≠ columns.1.length) ∧
    ofColumns? (consecutivePairs samples).unzip = some (ofSamples samples) ∧
    (∀ points, ofColumns? points.unzip = some (ofPoints points)) ∧
    ofSamples samples = ofPoints (consecutivePairs samples) ∧
    (samples.length % 2 = 1 → ofSamples samples = ofSamples samples.dropLast) ∧
    ∃ cs, (⟨(consecutivePairs samples).unzip.1⟩ : Vandermonde α).solve?
        (consecutivePairs samples).unzip.2 = some cs ∧
      cs.length = samples.length / 2 ∧
      (samples.length / 2 ≤ 2 ^ 32 →
        (∀ t ∈ (ofSamples samples).terms, t.exponent.toNat < samples.length / 2) ∧
        ∀ (i : ℕ) (hi : i < cs.length), (ofSamples samples).coefficient? (UInt32.ofNat i) =
          if cs[i] == 0 then none else some cs[i]) := by
  have hpairs : ofSamples samples = ofPoints (consecutivePairs samples) := by
    rw [ofSamples, samplePairs_eq_consecutivePairs]
  refine ⟨ofColumns?_eq_none_iff, ?_, ofColumns?_unzip, hpairs, ?_, ?_⟩
  · rw [hpairs, ofColumns?_unzip]
  · intro hodd
    rw [ofSamples, ofSamples, samplePairs_dropLast hodd]
  · obtain ⟨cs, hcs, hlength, hpoly⟩ := solve?_unzip (consecutivePairs samples)
    rw [length_consecutivePairs] at hlength
    refine ⟨cs, hcs, hlength, fun hle => ?_⟩
    rw [← hlength] at hle ⊢
    rw [hpairs, hpoly]
    exact ⟨fun t ht => exponent_lt_of_mem_ofTerms hle ht,
      fun i hi => coefficient?_ofTerms_of_lt hle hi⟩

/-- Two pairs with NaN and infinity, and a number without a partner. -/
theorem ofSamples_eq_ofPoints_odd :
    ([0 / 0, 1, 1 / 0, -0.0, 5] : List Float).length % 2 = 1 ∧
      (ofSamples [0 / 0, 1, 1 / 0, -0.0, 5] : Poly Float) = ofPoints [(0 / 0, 1), (1 / 0, -0.0)] ∧
      (ofSamples [0 / 0, 1, 1 / 0, -0.0, 5] : Poly Float) = ofSamples [0 / 0, 1, 1 / 0, -0.0] ∧
      ∀ t ∈ (ofSamples [0 / 0, 1, 1 / 0, -0.0, 5] : Poly Float).terms, t.exponent.toNat < 2 := by
  obtain ⟨-, -, -, hpairs, hodd, cs, -, -, hterms⟩ :=
    ofSamples_eq_ofPoints ([0 / 0, 1, 1 / 0, -0.0, 5] : List Float)
  have hlength : ([0 / 0, 1, 1 / 0, -0.0, 5] : List Float).length % 2 = 1 := by decide
  exact ⟨hlength, hpairs, hodd hlength, (hterms (by decide)).1⟩

end Poly

end SparsePoly
