/-!
# Square grids of numbers

A `Grid` is a square matrix that is computed once and then looked up. It is built from its entries by
`tabulate` and read by `entry`, which is `0` outside of the grid.

## Main statements

* `entry_tabulate`: within its bounds a grid has the entries that it was built from.
* `mulColumn_tabulate`: the product with a column sums each row from the first entry on.
-/

universe u

namespace SparsePoly

/-- A square matrix, row by row. -/
structure Grid (α : Type u) where
  /-- The rows, each of them from the first entry on. -/
  rows : Array (Array α)

namespace Grid

variable {α : Type u}

/-- The grid of `n` rows and `n` columns with the entries `f i j`. -/
def tabulate (n : Nat) (f : Nat → Nat → α) : Grid α where
  rows := Array.ofFn fun i : Fin n => Array.ofFn fun j : Fin n => f i j

/-- The entry in row `i` and column `j`, both counted from `0`. -/
def entry [Zero α] (g : Grid α) (i j : Nat) : α :=
  (g.rows[i]?.bind fun row => row[j]?).getD 0

/-- The rows as lists. -/
def toLists (g : Grid α) : List (List α) :=
  g.rows.toList.map Array.toList

/-- The sum of some numbers from the first one on. -/
def sum [Zero α] [Add α] (xs : List α) : α :=
  xs.foldl (· + ·) 0

/-- The product with a column of numbers. -/
def mulColumn [Zero α] [Add α] [Mul α] (g : Grid α) (column : List α) : List α :=
  g.toLists.map fun row => sum (List.zipWith (· * ·) row column)

/-- Within its bounds a grid has the entries that it was built from. -/
@[simp] theorem entry_tabulate [Zero α] {n : Nat} {f : Nat → Nat → α} {i j : Nat} (hi : i < n)
    (hj : j < n) : (tabulate n f).entry i j = f i j := by
  simp [entry, tabulate, hi, hj]

/-- Only entries within the bounds matter to a grid. -/
theorem tabulate_congr {n : Nat} {f g : Nat → Nat → α} (h : ∀ i j, i < n → j < n → f i j = g i j) :
    tabulate n f = tabulate n g := by
  unfold tabulate
  congr 2
  funext i
  congr 1
  funext j
  exact h i j i.isLt j.isLt

/-- The rows of a grid as lists, entry by entry. -/
theorem toLists_tabulate (n : Nat) (f : Nat → Nat → α) :
    (tabulate n f).toLists = (List.range n).map fun i => (List.range n).map (f i) := by
  refine List.ext_getElem (by simp [toLists, tabulate]) fun i hi _ => ?_
  refine List.ext_getElem (by simp [toLists, tabulate]) fun j hj _ => ?_
  simp [toLists, tabulate]

@[simp] theorem length_mulColumn_tabulate [Zero α] [Add α] [Mul α] (n : Nat) (f : Nat → Nat → α)
    (column : List α) : ((tabulate n f).mulColumn column).length = n := by
  simp [mulColumn, toLists, tabulate]

/-- The product with a column sums each row from the first entry on. -/
theorem mulColumn_tabulate [Zero α] [Add α] [Mul α] (n : Nat) (f : Nat → Nat → α)
    (column : List α) :
    (tabulate n f).mulColumn column =
      (List.range n).map fun i => sum (List.zipWith (· * ·) ((List.range n).map (f i)) column) := by
  simp [mulColumn, toLists_tabulate]

end Grid

end SparsePoly
