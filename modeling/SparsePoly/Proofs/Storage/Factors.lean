import SparsePoly.Vandermonde.Inverse
import Mathlib.Data.List.GetD
import Mathlib.Data.Nat.Notation

/-!
# Factors filled in place

The two triangular factors of the inverse of a Vandermonde matrix may be filled in place, in a grid that
is zero at first. An entry of the upper factor is then computed from the entry to its left and the one
above that, so the order in which the cells are written matters: the diagonal and the first row come
first, and then row by row what is between (`fillUpper`). The entries of the lower factor do not hang on
each other (`fillLower`).

Both loops end with the factors that are computed column by column and entry by entry (`fillUpper_eq`,
`fillLower_eq`). They do the same operations in the same order, so no law of arithmetic is used but one:
`1 / 1` is written as `1`. The invariant is a set of cells that hold what they are to hold in the end
(`Holds`). Those on the far side of the diagonal, which are never written, belong to it from the start.
-/

universe u

namespace SparsePoly.Storage

/-! ## Loops -/

section Loop

variable {σ : Type*}

/-- Takes a step for each index from `lo` to below `hi`. -/
def loop (lo hi : ℕ) (step : σ → ℕ → σ) (s : σ) : σ := (List.range' lo (hi - lo)).foldl step s

/-- What holds before a loop and is kept by each of its steps holds behind it. -/
theorem loop_induction {lo hi : ℕ} {step : σ → ℕ → σ} {s : σ} (P : ℕ → σ → Prop) (hle : lo ≤ hi)
    (start : P lo s) (keep : ∀ i s, lo ≤ i → i < hi → P i s → P (i + 1) (step s i)) :
    P hi (loop lo hi step s) := by
  obtain ⟨k, rfl⟩ := Nat.exists_eq_add_of_le hle
  rw [loop, Nat.add_sub_cancel_left]
  induction k with
  | zero => exact start
  | succ k ih =>
    rw [List.range'_1_concat, List.foldl_append]
    apply keep _ _ (Nat.le_add_right lo k) (Nat.lt_succ_self _)
    exact ih (Nat.le_add_right lo k) fun i s hi hk => keep i s hi (Nat.lt_succ_of_lt hk)

end Loop

/-! ## Cells -/

section Cells

variable {α : Type u}

/-- Writes an entry of a grid, if it is within the bounds. -/
def write (g : Grid α) (i j : ℕ) (a : α) : Grid α where
  rows := g.rows.modify i fun row => row.setIfInBounds j a

/-- Writing a cell changes the entry of that cell. -/
theorem write_tabulate {n : ℕ} (f : ℕ → ℕ → α) (i j : ℕ) (a : α) :
    write (.tabulate n f) i j a = .tabulate n fun k l => if k = i ∧ l = j then a else f k l := by
  unfold write Grid.tabulate
  congr 1
  refine Array.ext (by simp) fun k hk hk' => ?_
  rw [Array.getElem_modify, Array.getElem_ofFn, Array.getElem_ofFn]
  by_cases hki : i = k
  · rw [if_pos hki]
    refine Array.ext (by simp) fun l hl hl' => ?_
    rw [Array.getElem_setIfInBounds (by simpa using hl)]
    simp [hki, eq_comm]
  · simp [hki, Ne.symm hki]

variable [Zero α]

/-- The grid of `n` rows and `n` columns of zeros. -/
def zeros (n : ℕ) : Grid α := .tabulate n fun _ _ => 0

/-- A grid of `n` rows and `n` columns has the entries of `f` at the cells of `S`. -/
structure Holds (n : ℕ) (f : ℕ → ℕ → α) (S : ℕ → ℕ → Prop) (g : Grid α) : Prop where
  /-- The grid is square. -/
  square : ∃ h, g = .tabulate n h
  /-- The cells have their entries. -/
  entry_eq : ∀ i j, i < n → j < n → S i j → g.entry i j = f i j

variable {n : ℕ} {f : ℕ → ℕ → α} {S T : ℕ → ℕ → Prop} {g : Grid α}

/-- Fewer cells hold their entries as well. -/
theorem Holds.mono (hg : Holds n f S g) (hT : ∀ i j, i < n → j < n → T i j → S i j) : Holds n f T g :=
  ⟨hg.square, fun i j hi hj hij => hg.entry_eq i j hi hj (hT i j hi hj hij)⟩

/-- Writing an entry of `f` adds its cell. -/
theorem Holds.write (hg : Holds n f S g) {i j : ℕ} {a : α} (ha : a = f i j) :
    Holds n f (fun k l => S k l ∨ k = i ∧ l = j) (write g i j a) := by
  obtain ⟨⟨h, rfl⟩, hentry⟩ := hg
  rw [write_tabulate]
  refine ⟨⟨_, rfl⟩, fun k l hk hl hkl => ?_⟩
  rw [Grid.entry_tabulate hk hl]
  by_cases hcell : k = i ∧ l = j
  · rw [if_pos hcell, ha, hcell.1, hcell.2]
  · have hold := hentry k l hk hl (hkl.resolve_right hcell)
    rwa [if_neg hcell, ← Grid.entry_tabulate (f := h) hk hl]

/-- A grid that has all its entries is known. -/
theorem Holds.eq_tabulate (hg : Holds n f S g) (hS : ∀ i j, i < n → j < n → S i j) :
    g = .tabulate n f := by
  obtain ⟨⟨h, rfl⟩, hentry⟩ := hg
  apply Grid.tabulate_congr
  intro i j hi hj
  rw [← hentry i j hi hj (hS i j hi hj), Grid.entry_tabulate hi hj]

end Cells

/-! ## The upper factor -/

theorem take_succ_eq_append_getD {α : Type u} [Zero α] {nodes : List α} {k : ℕ}
    (hk : k < nodes.length) : nodes.take (k + 1) = nodes.take k ++ [nodes.getD k 0] := by
  rw [List.take_add_one, List.getElem?_eq_getElem hk, Option.toList_some,
    List.getD_eq_getElem _ _ hk]

section Upper

variable {α : Type u} [Zero α] [One α] [Sub α] [Mul α] [Neg α]

/-- Writes the cell of the diagonal in column `j`, and the one of the first row. -/
def seedUpper (nodes : List α) (g : Grid α) (j : ℕ) : Grid α :=
  let g := write g j j 1
  write g 0 j (-g.entry 0 (j - 1) * nodes.getD (j - 1) 0)

/-- Writes a cell to the right of the diagonal below the first row. -/
def stepUpper (nodes : List α) (i : ℕ) (g : Grid α) (j : ℕ) : Grid α :=
  write g i j (g.entry (i - 1) (j - 1) - g.entry i (j - 1) * nodes.getD (j - 1) 0)

/-- The upper factor, filled in place: the diagonal and the first row, then row by row the cells to the
right of the diagonal. -/
def fillUpper (nodes : List α) : Grid α :=
  let n := nodes.length
  if n = 0 then zeros n
  else
    let seeded := loop 1 n (seedUpper nodes) (write (zeros n) 0 0 1)
    loop 1 n (fun g i => loop (i + 1) n (stepUpper nodes i) g) seeded

/-- What the cells of the upper factor are to hold. -/
def upperCell (nodes : List α) (i j : ℕ) : α := (Vandermonde.newtonPoly (nodes.take j)).getD i 0

omit [Zero α] in
theorem length_newtonPoly_take {nodes : List α} {j : ℕ} (hj : j ≤ nodes.length) :
    (Vandermonde.newtonPoly (nodes.take j)).length = j + 1 := by
  rw [Vandermonde.length_newtonPoly, List.length_take_of_le hj]

theorem newtonPoly_take_succ {nodes : List α} {j : ℕ} (hj : j < nodes.length) :
    Vandermonde.newtonPoly (nodes.take (j + 1)) =
      Vandermonde.mulRoot (nodes.getD j 0) (Vandermonde.newtonPoly (nodes.take j)) := by
  rw [take_succ_eq_append_getD hj, Vandermonde.newtonPoly_append]

/-- The diagonal holds leading coefficients, which are one. -/
theorem upperCell_self {nodes : List α} {j : ℕ} (hj : j ≤ nodes.length) :
    upperCell nodes j j = 1 := by
  have hlead := Vandermonde.getD_length_newtonPoly (nodes.take j)
  rwa [List.length_take_of_le hj] at hlead

/-- Below the diagonal there are no coefficients. -/
theorem upperCell_of_lt {nodes : List α} {i j : ℕ} (hj : j ≤ nodes.length) (hji : j < i) :
    upperCell nodes i j = 0 := by
  apply Vandermonde.getD_newtonPoly_of_length_lt
  rwa [List.length_take_of_le hj]

/-- A cell of the first row comes from the one to its left. -/
theorem upperCell_zero_succ {nodes : List α} {j : ℕ} (hj : j < nodes.length) :
    upperCell nodes 0 (j + 1) = -upperCell nodes 0 j * nodes.getD j 0 := by
  rw [upperCell, newtonPoly_take_succ hj, Vandermonde.getD_zero_mulRoot]
  · rfl
  · rw [length_newtonPoly_take (Nat.le_of_lt hj)]
    exact Nat.succ_pos j

/-- A cell right of the diagonal comes from the one to its left and the one above that. -/
theorem upperCell_succ_succ {nodes : List α} {i j : ℕ} (hj : j < nodes.length) (hij : i < j) :
    upperCell nodes (i + 1) (j + 1) =
      upperCell nodes i j - upperCell nodes (i + 1) j * nodes.getD j 0 := by
  rw [upperCell, newtonPoly_take_succ hj, Vandermonde.getD_succ_mulRoot]
  · rfl
  · rw [length_newtonPoly_take (Nat.le_of_lt hj)]
    exact Nat.succ_lt_succ hij

/-- The grid of zeros holds what is below the diagonal. -/
theorem holds_zeros (nodes : List α) :
    Holds nodes.length (upperCell nodes) (fun i j => j < i) (zeros nodes.length) := by
  refine ⟨⟨_, rfl⟩, fun i j hi hj hij => ?_⟩
  rw [zeros, Grid.entry_tabulate hi hj, upperCell_of_lt (Nat.le_of_lt hj) hij]

/-- A step of the first loop writes a cell of the diagonal and one of the first row. -/
theorem Holds.seed {nodes : List α} {j : ℕ} {g : Grid α} (h1 : 1 ≤ j) (hj : j < nodes.length)
    (hg : Holds nodes.length (upperCell nodes) (fun k l => l < k ∨ (k = 0 ∨ k = l) ∧ l < j) g) :
    Holds nodes.length (upperCell nodes) (fun k l => l < k ∨ (k = 0 ∨ k = l) ∧ l < j + 1)
      (seedUpper nodes g j) := by
  have hdiagonal := hg.write (upperCell_self (Nat.le_of_lt hj)).symm
  have hvalue : -(Storage.write g j j 1).entry 0 (j - 1) * nodes.getD (j - 1) 0 =
      upperCell nodes 0 j := by
    -- the cell to the left has been written in the step before
    obtain ⟨j, rfl⟩ := Nat.exists_eq_add_of_le' h1
    rw [Nat.add_sub_cancel, upperCell_zero_succ (by omega),
      hdiagonal.entry_eq 0 j (by omega) (by omega) (by omega)]
  exact (hdiagonal.write hvalue).mono (by intros; omega)

/-- A step of the inner loop writes the next cell of a row. -/
theorem Holds.step {nodes : List α} {i j : ℕ} {g : Grid α} (h1 : 1 ≤ i) (hij : i < j)
    (hj : j < nodes.length)
    (hg : Holds nodes.length (upperCell nodes) (fun k l => k < i ∨ l ≤ k ∨ k = i ∧ l < j) g) :
    Holds nodes.length (upperCell nodes) (fun k l => k < i ∨ l ≤ k ∨ k = i ∧ l < j + 1)
      (stepUpper nodes i g j) := by
  have hvalue : g.entry (i - 1) (j - 1) - g.entry i (j - 1) * nodes.getD (j - 1) 0 =
      upperCell nodes i j := by
    -- one of the two cells is in the row above, and the other one is the last that was written
    obtain ⟨i, rfl⟩ := Nat.exists_eq_add_of_le' h1
    obtain ⟨j, rfl⟩ := Nat.exists_eq_add_of_le' (Nat.one_le_of_lt hij)
    rw [Nat.add_sub_cancel, Nat.add_sub_cancel, upperCell_succ_succ (by omega) (by omega),
      hg.entry_eq i j (by omega) (by omega) (by omega),
      hg.entry_eq (i + 1) j (by omega) (by omega) (by omega)]
  exact (hg.write hvalue).mono (by intros; omega)

/-- The inner loop writes what is left of a row. -/
theorem Holds.upperRow {nodes : List α} {i : ℕ} {g : Grid α} (h1 : 1 ≤ i) (hi : i < nodes.length)
    (hg : Holds nodes.length (upperCell nodes) (fun k l => k < i ∨ l ≤ k) g) :
    Holds nodes.length (upperCell nodes) (fun k l => k < i + 1 ∨ l ≤ k)
      (loop (i + 1) nodes.length (stepUpper nodes i) g) := by
  have hrow := loop_induction (fun j => Holds nodes.length (upperCell nodes)
      fun k l => k < i ∨ l ≤ k ∨ k = i ∧ l < j) hi (hg.mono (by intros; omega))
    fun j g hij hj hg => hg.step h1 hij hj
  exact hrow.mono (by intros; omega)

/-- The upper factor is the grid of its cells. -/
theorem upperInverse_eq_tabulate (v : Vandermonde α) :
    v.upperInverse = .tabulate v.nodes.length (upperCell v.nodes) := by
  unfold Vandermonde.upperInverse
  apply Grid.tabulate_congr
  intro i j _ hj
  simp [hj, upperCell]

/-- Filling the upper factor in place ends with the columns that hold the Newton polynomials. -/
theorem fillUpper_eq (v : Vandermonde α) : fillUpper v.nodes = v.upperInverse := by
  rw [upperInverse_eq_tabulate]
  generalize v.nodes = nodes
  rcases Nat.eq_zero_or_pos nodes.length with hzero | hpos
  · rw [fillUpper, if_pos hzero, zeros, hzero]
    rfl
  · rw [fillUpper, if_neg (Nat.ne_of_gt hpos)]
    have hcorner := (holds_zeros nodes).write (upperCell_self (Nat.zero_le _)).symm
    -- what is below the diagonal holds from the start, and the first loop adds the diagonal and the
    -- first row
    have hseeded := loop_induction (fun j => Holds nodes.length (upperCell nodes)
        fun k l => l < k ∨ (k = 0 ∨ k = l) ∧ l < j) hpos (hcorner.mono (by intros; omega))
      fun j g h1 hj hg => hg.seed h1 hj
    have hfilled := loop_induction (fun i => Holds nodes.length (upperCell nodes)
        fun k l => k < i ∨ l ≤ k) hpos (hseeded.mono (by intros; omega))
      fun i g h1 hi hg => hg.upperRow h1 hi
    exact hfilled.eq_tabulate (by intros; omega)

end Upper

/-! ## The lower factor -/

section Lower

variable {α : Type u} [Zero α] [One α] [Sub α] [Mul α] [Div α]

/-- The product of the differences of the node of index `j` to the others up to that of index `i`. -/
def mulOthers (nodes : List α) (i j : ℕ) : α :=
  loop 0 (i + 1) (fun d k => if k ≠ j then d * (nodes.getD j 0 - nodes.getD k 0) else d) 1

/-- The lower factor, filled in place row by row up to the diagonal. -/
def fillLower (nodes : List α) : Grid α :=
  let n := nodes.length
  if n = 0 then zeros n
  else
    loop 1 n (fun g i =>
      loop 0 (i + 1) (fun g j => write g i j (1 / mulOthers nodes i j)) g) (write (zeros n) 0 0 1)

/-- What the cells of the lower factor are to hold. -/
def lowerCell (nodes : List α) (i j : ℕ) : α :=
  if j ≤ i then Vandermonde.weight (nodes.take (i + 1)) j else 0

omit [One α] [Sub α] [Div α] in
/-- The next index has a factor, unless it is the one that is skipped. -/
theorem foldl_eraseIdx_take_succ {nodes : List α} {f : α → α} (d : α) {j k : ℕ}
    (hk : k < nodes.length) :
    ((nodes.take (k + 1)).eraseIdx j).foldl (fun d y => d * f y) d =
      if k ≠ j then ((nodes.take k).eraseIdx j).foldl (fun d y => d * f y) d * f (nodes.getD k 0)
      else ((nodes.take k).eraseIdx j).foldl (fun d y => d * f y) d := by
  have hlength : (nodes.take k).length = k := List.length_take_of_le (Nat.le_of_lt hk)
  rw [take_succ_eq_append_getD hk]
  rcases Nat.lt_trichotomy j k with hjk | rfl | hkj
  · rw [if_pos (Nat.ne_of_gt hjk), List.eraseIdx_append_of_lt_length (by omega), List.foldl_append]
    rfl
  · rw [if_neg (not_not_intro rfl), List.eraseIdx_append_of_length_le (by omega), hlength,
      Nat.sub_self, List.eraseIdx_of_length_le (l := nodes.take j) (by omega)]
    simp
  · -- the index to be skipped is yet to come
    rw [if_pos (Nat.ne_of_lt hkj), List.eraseIdx_of_length_le (by simp; omega),
      List.eraseIdx_of_length_le (by omega), List.foldl_append]
    rfl

omit [Div α] in
/-- The loop that skips an index multiplies the differences to all other nodes. -/
theorem mulOthers_eq {nodes : List α} {i : ℕ} (hi : i < nodes.length) (j : ℕ) :
    mulOthers nodes i j =
      ((nodes.take (i + 1)).eraseIdx j).foldl (fun d y => d * (nodes.getD j 0 - y)) 1 := by
  refine loop_induction
    (fun k d => d = ((nodes.take k).eraseIdx j).foldl (fun d y => d * (nodes.getD j 0 - y)) 1)
    (Nat.zero_le (i + 1)) rfl fun k d _ hk hd => ?_
  rw [hd, foldl_eraseIdx_take_succ 1 (by omega)]

/-- The reciprocal that is written is the weight of the node. -/
theorem one_div_mulOthers {nodes : List α} {i j : ℕ} (hi : i < nodes.length) (hj : j ≤ i) :
    1 / mulOthers nodes i j = lowerCell nodes i j := by
  rw [mulOthers_eq hi, lowerCell, if_pos hj, Vandermonde.weight,
    Vandermonde.getD_take (Nat.lt_succ_of_le hj)]

/-- The inner loop writes a row up to the diagonal. -/
theorem Holds.lowerRow {nodes : List α} {i : ℕ} {g : Grid α} (hi : i < nodes.length)
    (hg : Holds nodes.length (lowerCell nodes) (fun k l => k < l ∨ k < i) g) :
    Holds nodes.length (lowerCell nodes) (fun k l => k < l ∨ k < i + 1)
      (loop 0 (i + 1) (fun g j => Storage.write g i j (1 / mulOthers nodes i j)) g) := by
  have hrow := loop_induction (fun j => Holds nodes.length (lowerCell nodes)
      fun k l => k < l ∨ k < i ∨ k = i ∧ l < j) (Nat.zero_le (i + 1)) (hg.mono (by intros; omega))
    fun j g _ hj hg => (hg.write (one_div_mulOthers hi (Nat.le_of_lt_succ hj))).mono
      (by intros; omega)
  exact hrow.mono (by intros; omega)

theorem lowerInverse_eq_tabulate (v : Vandermonde α) :
    v.lowerInverse = .tabulate v.nodes.length (lowerCell v.nodes) := rfl

/-- Filling the lower factor in place ends with the weights of the nodes. -/
theorem fillLower_eq (hone : (1 : α) / 1 = 1) (v : Vandermonde α) :
    fillLower v.nodes = v.lowerInverse := by
  rw [lowerInverse_eq_tabulate]
  generalize v.nodes = nodes
  rcases Nat.eq_zero_or_pos nodes.length with hzero | hpos
  · rw [fillLower, if_pos hzero, zeros, hzero]
    rfl
  · rw [fillLower, if_neg (Nat.ne_of_gt hpos)]
    have hzeros : Holds nodes.length (lowerCell nodes) (fun k l => k < l) (zeros nodes.length) := by
      refine ⟨⟨_, rfl⟩, fun i j hi hj hij => ?_⟩
      rw [zeros, Grid.entry_tabulate hi hj, lowerCell, if_neg (Nat.not_le.2 hij)]
    have hcorner := hzeros.write (hone.symm.trans (one_div_mulOthers hpos (Nat.le_refl 0)))
    have hfilled := loop_induction (fun i => Holds nodes.length (lowerCell nodes)
        fun k l => k < l ∨ k < i) hpos (hcorner.mono (by intros; omega))
      fun i g _ hi hg => hg.lowerRow hi
    exact hfilled.eq_tabulate (by intros; omega)

end Lower

end SparsePoly.Storage
