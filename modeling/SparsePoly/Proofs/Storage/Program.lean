import SparsePoly.Interpolation
import SparsePoly.Proofs.Storage.Loops
import SparsePoly.Reading
import SparsePoly.Scalar.Binary64
import Mathlib.Data.List.GetD

/-!
# Programs over polynomials

A program is a sequence of instructions, each of which stores what it computes in new registers:
every way of making a polynomial with floating-point coefficients is an instruction. An instruction
that ends with a fault stores nothing, and a register that does not exist reads as zero.

There are two machines. One runs the operations on `Poly`, whose type holds the canonical form. The
other has plain rows of terms in its registers, on which it runs the loops of flat storage, and
knows of no invariant; it stops for good if a division takes more passes than it has or if an
interpolation has not as many samples as nodes.

## Main statements

* `Instruction.rows_map_terms`: a step of the second machine follows the step of the first one.
* `rowsOf_eq_map_terms`: so does a run.
* `canonical_rowsOf`: the second machine never stops, and all its rows are canonical.
-/

namespace SparsePoly

/-- A public operation with its arguments. Polynomials are given by the indices of registers. -/
inductive Instruction where
  /-- The polynomial without terms. -/
  | zero
  /-- The constant polynomial `1`. -/
  | one
  /-- The polynomial of a single term. -/
  | monomial (t : Term Float)
  /-- The sum of some terms from left to right. -/
  | ofTerms (ts : List (Term Float))
  /-- The polynomial that a text stands for. -/
  | parse (text : String)
  /-- The polynomial through the points in a row of numbers. -/
  | ofSamples (samples : List Float)
  /-- The polynomial through some points. -/
  | ofPoints (points : List (Float × Float))
  /-- A polynomial with one more term. -/
  | addTerm (i : ℕ) (t : Term Float)
  /-- A polynomial with more terms, one after the other. -/
  | extend (i : ℕ) (ts : List (Term Float))
  /-- A sum. -/
  | add (i j : ℕ)
  /-- A difference. -/
  | sub (i j : ℕ)
  /-- A product whose exponents wrap around. -/
  | mul (i j : ℕ)
  /-- A product whose exponents must not wrap around. -/
  | mul? (i j : ℕ)
  /-- A quotient and, in the next register, its remainder. -/
  | divide (i j : ℕ)
  /-- A polynomial with all coefficients negated. -/
  | neg (i : ℕ)
  /-- A derivative. -/
  | derivative (i : ℕ)

namespace Instruction

/-- The polynomials that an instruction computes from those in the registers. -/
def polys (σ : List (Poly Float)) : Instruction → List (Poly Float)
  | zero => [0]
  | one => [1]
  | monomial t => [.monomial t]
  | ofTerms ts => [.ofTerms ts]
  | parse text => (Poly.parse text).toOption.toList
  | ofSamples samples => [.ofSamples samples]
  | ofPoints points => [.ofPoints points]
  | addTerm i t => [(σ.getD i 0).addTerm t]
  | extend i ts => [(σ.getD i 0).extend ts]
  | add i j => [σ.getD i 0 + σ.getD j 0]
  | sub i j => [σ.getD i 0 - σ.getD j 0]
  | mul i j => [σ.getD i 0 * σ.getD j 0]
  | mul? i j => ((σ.getD i 0).mul? (σ.getD j 0)).toOption.toList
  | divide i j =>
    match (σ.getD i 0).divide (σ.getD j 0) with
    | .ok v => [v.quotient, v.remainder]
    | .error _ => []
  | neg i => [-σ.getD i 0]
  | derivative i => [(σ.getD i 0).derivative]

/-- The terms of the polynomial through some points, if there are as many samples as nodes. -/
def rowOfPoints (points : List (Float × Float)) : Option (List (Term Float)) :=
  ((Vandermonde.ofPoints points).solve? (points.map Prod.snd)).map fun cs =>
    Storage.putAll [] (Poly.termsOfCoefficients cs)

/-- The rows of terms that an instruction computes from those in the registers, with a limit to the
passes of a division. -/
def rows (passes : ℕ) (σ : List (List (Term Float))) : Instruction → Option (List (List (Term Float)))
  | zero => some [[]]
  | one => some [Storage.put ⟨0, 1⟩ []]
  | monomial t => some [Storage.put t []]
  | ofTerms ts => some [Storage.putAll [] ts]
  | parse text =>
    match (Reading.ofText text).fault? with
    | some _ => some []
    | none => some [Storage.putAll [] ((Reading.ofText text).terms.map Prod.fst)]
  | ofSamples samples => (rowOfPoints (samplePairs samples)).map ([·])
  | ofPoints points => (rowOfPoints points).map ([·])
  | addTerm i t => some [Storage.put t (σ.getD i [])]
  | extend i ts => some [Storage.putAll (σ.getD i []) ts]
  | add i j => some [TermList.merge (σ.getD i []) (σ.getD j [])]
  | sub i j => some [TermList.merge (σ.getD i []) ((σ.getD j []).map (-·))]
  | mul i j => some [Storage.product (σ.getD i []) (σ.getD j [])]
  | mul? i j => some (Storage.product? (σ.getD i []) (σ.getD j [])).toOption.toList
  | divide i j =>
    (Storage.divide passes (σ.getD i []) (σ.getD j [])).map fun
      | .ok (q, r) => [q, r]
      | .error _ => []
  | neg i => some [(σ.getD i []).map (-·)]
  | derivative i => some [Storage.putAll [] ((σ.getD i []).filterMap Term.derivative?)]

end Instruction

/-- The registers of polynomials after a program. -/
def polysOf (program : List Instruction) : List (Poly Float) :=
  program.foldl (fun σ i => σ ++ i.polys σ) []

/-- The registers of rows after a program, unless an instruction on the way has no result. -/
def rowsOf (passes : ℕ) (program : List Instruction) : Option (List (List (Term Float))) :=
  program.foldlM (fun σ i => (i.rows passes σ).map (σ ++ ·)) []

/-! ## Both machines keep in step -/

/-- A register that does not exist reads as zero in both machines. -/
theorem getD_map_terms (σ : List (Poly Float)) (i : ℕ) :
    (σ.map Poly.terms).getD i [] = (σ.getD i 0).terms :=
  List.getD_map _ 0 Poly.terms

/-- The fit has as many samples as nodes, so it has a result. -/
theorem rowOfPoints_eq (points : List (Float × Float)) :
    Instruction.rowOfPoints points = some (Poly.ofPoints points).terms := by
  rw [Instruction.rowOfPoints, Vandermonde.solve?_eq_some, Option.map_some,
    Storage.putAll_nil_terms]
  rfl

/-- An instruction computes the rows of the polynomials that it computes. -/
theorem Instruction.rows_map_terms {passes : ℕ} (hpasses : UInt32.size ≤ passes)
    (σ : List (Poly Float)) (i : Instruction) :
    i.rows passes (σ.map Poly.terms) = some ((i.polys σ).map Poly.terms) := by
  -- on rows of polynomials, each loop has the row of the operation that it stands for
  cases i with
  | zero => rfl
  | one => exact congrArg (some [·]) (Storage.put_terms 0 _)
  | monomial t => exact congrArg (some [·]) (Storage.put_terms 0 t)
  | ofTerms ts => exact congrArg (some [·]) (Storage.putAll_nil_terms ts)
  | parse text =>
    simp only [rows, polys, Poly.parse, Reading.toPoly]
    cases (Reading.ofText text).fault? with
    | some fault => rfl
    | none => exact congrArg (some [·]) (Storage.putAll_nil_terms _)
  | ofSamples samples =>
    simp only [rows, rowOfPoints_eq]
    rfl
  | ofPoints points =>
    simp only [rows, rowOfPoints_eq]
    rfl
  | addTerm i t => simp only [rows, polys, getD_map_terms, Storage.put_terms, List.map]
  | extend i ts => simp only [rows, polys, getD_map_terms, Storage.putAll_terms, List.map]
  | add i j => simp only [rows, polys, getD_map_terms, Poly.terms_add, List.map]
  | sub i j => simp only [rows, polys, getD_map_terms, Poly.terms_sub, List.map]
  | mul i j => simp only [rows, polys, getD_map_terms, Storage.product_terms, List.map]
  | mul? i j =>
    simp only [rows, polys, getD_map_terms, Storage.product?_terms]
    cases (σ.getD i 0).mul? (σ.getD j 0) <;> rfl
  | divide i j =>
    simp only [rows, polys, getD_map_terms,
      Storage.divide_terms (σ.getD i 0) (σ.getD j 0) hpasses]
    cases (σ.getD i 0).divide (σ.getD j 0) <;> rfl
  | neg i => simp only [rows, polys, getD_map_terms, Poly.terms_neg, List.map]
  | derivative i =>
    simp only [rows, polys, getD_map_terms, Storage.putAll_nil_terms, List.map, Poly.derivative]

/-- The rows after a program are those of the polynomials after it. -/
theorem rowsOf_eq_map_terms {passes : ℕ} (hpasses : UInt32.size ≤ passes)
    (program : List Instruction) : rowsOf passes program = some ((polysOf program).map Poly.terms) := by
  -- the registers in front are those of any earlier program, since a step only adds registers
  suffices h : ∀ σ : List (Poly Float),
      program.foldlM (fun σ i => (i.rows passes σ).map (σ ++ ·)) (σ.map Poly.terms) =
        some ((program.foldl (fun σ i => σ ++ i.polys σ) σ).map Poly.terms) from h []
  induction program with
  | nil => intro σ; rfl
  | cons i program ih =>
    intro σ
    rw [List.foldlM_cons, Instruction.rows_map_terms hpasses, List.foldl_cons, ← ih, List.map_append]
    rfl

/-- Whatever the instructions and their coefficients are, every program on plain rows comes to its
end, where no division takes more than `2 ^ 32` passes, with the rows of the polynomials that it
computes. In all of them the exponents ascend strictly and no coefficient compares equal to zero. -/
theorem canonical_rowsOf (program : List Instruction) :
    ∃ σ, (∀ spare, rowsOf (UInt32.size + spare) program = some σ) ∧
      σ = (polysOf program).map Poly.terms ∧
      ∀ ts ∈ σ, (ts.Pairwise fun t u => t.exponent < u.exponent) ∧
        ∀ t ∈ ts, (t.coefficient == 0) = false := by
  refine ⟨_, fun spare => rowsOf_eq_map_terms (Nat.le_add_right _ spare) program, rfl, ?_⟩
  intro ts hts
  obtain ⟨p, -, rfl⟩ := List.mem_map.1 hts
  exact ⟨p.canonical.ascending, p.canonical.nonzero⟩

end SparsePoly
