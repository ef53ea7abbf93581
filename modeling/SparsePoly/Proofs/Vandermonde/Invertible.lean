import Mathlib.Data.List.Induction
import SparsePoly.Event
import SparsePoly.Proofs.Binary64.Difference

/-!
# The test for invertibility

In exact arithmetic the determinant of a Vandermonde matrix differs from zero if and only if no two
nodes coincide. The determinant that is computed is a product of floating-point differences, and for
finite nodes this module says what it tells (`isInvertible_iff`).

No difference misleads: it equals zero exactly if its nodes coincide (`distinct_iff`). The products on
the way may.

* Once a product is not finite, all later ones are not finite either, and the determinant does not equal
  zero. The matrix counts as invertible, even if two nodes coincide (`Overflows`).
* Once a product equals zero, all later finite ones do. It equals zero for nodes that coincide, but also
  when its factors are too small, and the matrix then counts as singular though its nodes are distinct
  (`Underflows`).

Without an overflow or an underflow the test is right.
-/

universe u

namespace SparsePoly.Vandermonde

/-! ## The differences and their product -/

section Differences

variable {α : Type u} [Mul α] [Sub α]

omit [Mul α] in
/-- The differences of any two nodes, in the order in which they are multiplied. -/
def differences : List α → List α
  | [] => []
  | x :: xs => xs.map (· - x) ++ differences xs

/-- The product of some factors from the first one on. -/
def product [One α] (ds : List α) : α := ds.foldl (· * ·) 1

omit [Sub α] in
theorem product_append [One α] (ds es : List α) :
    product (ds ++ es) = es.foldl (· * ·) (product ds) :=
  List.foldl_append

/-- The nested loops multiply the differences to each node in turn. -/
theorem mulDifferences_eq (d : α) (nodes : List α) :
    mulDifferences d nodes = (differences nodes).foldl (· * ·) d := by
  induction nodes generalizing d with
  | nil => rfl
  | cons x xs ih => rw [mulDifferences, ih, differences, List.foldl_append, List.foldl_map]

/-- The determinant is the product of all differences. -/
theorem determinant_eq_product [One α] (v : Vandermonde α) :
    v.determinant = product (differences v.nodes) :=
  mulDifferences_eq 1 v.nodes

omit [Mul α] in
/-- What holds of all differences holds of all pairs of nodes. -/
theorem forall_mem_differences {P : α → Prop} {nodes : List α} :
    (∀ d ∈ differences nodes, P d) ↔ nodes.Pairwise fun x y => P (y - x) := by
  induction nodes with
  | nil => simp [differences]
  | cons x xs ih =>
    rw [differences, List.forall_mem_append, List.forall_mem_map, List.pairwise_cons, ih]

end Differences

open Binary64

variable {v : Vandermonde Float}

/-- For finite nodes, the differences tell whether two nodes coincide. -/
theorem distinct_iff (hv : ∀ x ∈ v.nodes, x.isFinite = true) :
    v.Distinct ↔ ∀ d ∈ differences v.nodes, (d == 0) = false := by
  rw [forall_mem_differences, Distinct]
  refine List.Pairwise.iff_of_mem fun {x y} hx hy => ?_
  rw [sub_beq_zero (hv y hy) (hv x hx), beq_comm]

/-! ## Overflow and underflow -/

/-- A product on the way to the determinant is infinite or NaN. -/
def Overflows (v : Vandermonde Float) : Prop :=
  ∃ ds, ds <+: differences v.nodes ∧ (product ds).isFinite = false

/-- A product on the way to the determinant equals zero, and neither of its two factors does. -/
def Underflows (v : Vandermonde Float) : Prop :=
  ∃ ds d, ds ++ [d] <+: differences v.nodes ∧ (product ds == 0) = false ∧ (d == 0) = false ∧
    (product ds * d == 0) = true

/-- A product that equals zero got there in one step. -/
theorem exists_step_of_product_beq_zero {ds : List Float} (h : (product ds == 0) = true) :
    ∃ es d, es ++ [d] <+: ds ∧ (product es == 0) = false ∧ (product es * d == 0) = true := by
  -- from the last factor back to the first one that makes the product equal zero
  induction ds using List.reverseRecOn with
  | nil => exact absurd h (by decide)
  | append_singleton ds d ih =>
    cases hds : (product ds == 0) with
    | true =>
      obtain ⟨es, d', hprefix, hne, hzero⟩ := ih hds
      exact ⟨es, d', hprefix.trans (List.prefix_append ds [d]), hne, hzero⟩
    | false =>
      rw [product_append] at h
      exact ⟨ds, d, List.prefix_rfl, hds, h⟩

/-- After an overflow the determinant is not finite. -/
theorem Overflows.not_isFinite_determinant (h : v.Overflows) : v.determinant.isFinite = false := by
  obtain ⟨ds, ⟨es, hes⟩, hds⟩ := h
  rw [determinant_eq_product, ← hes, product_append]
  exact foldl_of_absorbing (P := fun x : Float => x.isFinite = false) not_isFinite_mul
    (Or.inl hds)

/-- After an underflow the determinant is zero or NaN. -/
theorem Underflows.zeroOrNaN_determinant (h : v.Underflows) : ZeroOrNaN v.determinant := by
  obtain ⟨ds, d, ⟨es, hes⟩, -, -, hzero⟩ := h
  rw [determinant_eq_product, ← hes, product_append]
  apply zeroOrNaN_foldl_mul (f := fun d => d)
  left
  rw [product_append]
  exact Or.inl hzero

/-- The determinant is zero or NaN if two nodes coincide. -/
theorem zeroOrNaN_determinant_of_coincident (hv : ∀ x ∈ v.nodes, x.isFinite = true)
    (h : ¬ v.Distinct) : ZeroOrNaN v.determinant := by
  rw [distinct_iff hv] at h
  push Not at h
  obtain ⟨d, hd, hzero⟩ := h
  rw [determinant_eq_product]
  apply zeroOrNaN_foldl_mul (f := fun d => d)
  exact Or.inr ⟨d, hd, Or.inl (by simpa using hzero)⟩

/-- A determinant that equals zero comes from coincident nodes or from an underflow. -/
theorem underflows_of_determinant (hv : ∀ x ∈ v.nodes, x.isFinite = true) (hdistinct : v.Distinct)
    (h : (v.determinant == 0) = true) : v.Underflows := by
  rw [determinant_eq_product] at h
  obtain ⟨ds, d, hprefix, hne, hzero⟩ := exists_step_of_product_beq_zero h
  have hd : d ∈ differences v.nodes := hprefix.subset (List.mem_append_right _ (List.mem_singleton.2 rfl))
  exact ⟨ds, d, hprefix, hne, (distinct_iff hv).1 hdistinct d hd, hzero⟩

/-! ## The test -/

theorem isInvertible_eq_true_iff : v.isInvertible = true ↔ (v.determinant == 0) = false := by
  rw [isInvertible, bne, Bool.not_eq_true']

/-- A matrix over finite nodes counts as invertible after an overflow, and otherwise if its nodes are
distinct and there is no underflow. -/
theorem isInvertible_iff (hv : ∀ x ∈ v.nodes, x.isFinite = true) :
    v.isInvertible = true ↔ v.Overflows ∨ v.Distinct ∧ ¬ v.Underflows := by
  rw [isInvertible_eq_true_iff]
  by_cases hover : v.Overflows
  · exact iff_of_true (beq_zero_of_not_isFinite hover.not_isFinite_determinant) (Or.inl hover)
  · -- without an overflow, a determinant that is zero or NaN equals zero
    have hfinite : v.determinant.isFinite = true := by
      by_contra hnot
      rw [Bool.not_eq_true, determinant_eq_product] at hnot
      exact hover ⟨_, List.prefix_rfl, hnot⟩
    constructor
    · intro hne
      refine Or.inr ⟨?_, ?_⟩
      · by_contra hcoincident
        have hzero := (zeroOrNaN_determinant_of_coincident hv hcoincident).beq_zero hfinite
        rw [hne] at hzero
        cases hzero
      · intro hunder
        have hzero := hunder.zeroOrNaN_determinant.beq_zero hfinite
        rw [hne] at hzero
        cases hzero
    · rintro (h | ⟨hdistinct, hunder⟩)
      · exact absurd h hover
      · rw [← Bool.not_eq_true]
        exact fun hzero => hunder (underflows_of_determinant hv hdistinct hzero)

/-- The fit of a polynomial warns of coincident abscissas when the matrix does not count as
invertible. -/
theorem coincidentNodes_mem_ofPoints {points : List (Float × Float)} :
    Event.coincidentNodes ∈ Event.ofPoints points ↔ ¬ (ofPoints points).isInvertible = true := by
  simp [Event.ofPoints, Event.ofMatrix]

/-- A row of numbers gives the warning that its points give. -/
theorem coincidentNodes_mem_ofSamples {samples : List Float} :
    Event.coincidentNodes ∈ Event.ofSamples samples ↔
      Event.coincidentNodes ∈ Event.ofPoints (samplePairs samples) := by
  unfold Event.ofSamples
  split <;> simp

/-- What the test tells for finite nodes: they are distinct, unless a product on the way overflows or
underflows. The warning of the fit over these nodes, from points or from a row of numbers, tells the
opposite. -/
theorem isInvertible_iff_of_isFinite (hv : ∀ x ∈ v.nodes, x.isFinite = true) :
    (v.isInvertible = true ↔ v.Overflows ∨ v.Distinct ∧ ¬ v.Underflows) ∧
    ∀ points, ofPoints points = v →
      (Event.coincidentNodes ∈ Event.ofPoints points ↔
        ¬ v.Overflows ∧ (¬ v.Distinct ∨ v.Underflows)) ∧
      ∀ samples, samplePairs samples = points →
        (Event.coincidentNodes ∈ Event.ofSamples samples ↔
          ¬ v.Overflows ∧ (¬ v.Distinct ∨ v.Underflows)) := by
  have htest := isInvertible_iff hv
  refine ⟨htest, ?_⟩
  rintro points rfl
  have hwarn : Event.coincidentNodes ∈ Event.ofPoints points ↔
      ¬ (ofPoints points).Overflows ∧
        (¬ (ofPoints points).Distinct ∨ (ofPoints points).Underflows) := by
    rw [coincidentNodes_mem_ofPoints, htest, not_or, not_and_or, not_not]
  refine ⟨hwarn, ?_⟩
  rintro samples rfl
  rw [coincidentNodes_mem_ofSamples]
  exact hwarn

/-- Distinct nodes that are close to each other make the product of their differences underflow. -/
theorem underflows_of_close_nodes :
    (⟨[1e-110, 2e-110, 3e-110]⟩ : Vandermonde Float).Distinct ∧
      (⟨[1e-110, 2e-110, 3e-110]⟩ : Vandermonde Float).Underflows := by
  have hfinite : ∀ x ∈ (⟨[1e-110, 2e-110, 3e-110]⟩ : Vandermonde Float).nodes,
      x.isFinite = true := by
    decide +kernel
  have hdistinct : (⟨[1e-110, 2e-110, 3e-110]⟩ : Vandermonde Float).Distinct := by
    decide +kernel
  have hsingular : (⟨[1e-110, 2e-110, 3e-110]⟩ : Vandermonde Float).isInvertible = false := by
    decide +kernel
  refine ⟨hdistinct, ?_⟩
  by_contra hunder
  have htrue := (isInvertible_iff_of_isFinite hfinite).1.2 (Or.inr ⟨hdistinct, hunder⟩)
  rw [hsingular] at htrue
  cases htrue

/-- The test fails both ways: close nodes that are distinct count as coincident, and nodes that
coincide count as distinct after an overflow. -/
theorem isInvertible_ne_distinct :
    ((∀ x ∈ ([1e-110, 2e-110, 3e-110] : List Float), x.isFinite = true) ∧
      (⟨[1e-110, 2e-110, 3e-110]⟩ : Vandermonde Float).Distinct ∧
      (⟨[1e-110, 2e-110, 3e-110]⟩ : Vandermonde Float).isInvertible = false) ∧
    ((∀ x ∈ ([1e308, -1e308, 0, 0] : List Float), x.isFinite = true) ∧
      ¬ (⟨[1e308, -1e308, 0, 0]⟩ : Vandermonde Float).Distinct ∧
      (⟨[1e308, -1e308, 0, 0]⟩ : Vandermonde Float).isInvertible = true) := by
  decide +kernel

end SparsePoly.Vandermonde
