import SparsePoly.Vandermonde.Basic

/-!
# The inverse of a Vandermonde matrix

The inverse is computed in closed form from the inverses of the two triangular factors of the
matrix, without elimination:

* row `i` of the lower factor takes samples at the nodes to their divided difference over the first
  `i + 1` nodes;
* column `j` of the upper factor holds the coefficients of the Newton polynomial, the product of
  `x - y` over the first `j` nodes `y`.

Their product turns samples into the coefficients of the polynomial through them. Entries of both
factors hang on the first nodes alone, so nodes that are appended change none of them.

If two nodes coincide, some entries are quotients by zero: there is no other sign of it here.

## Main statements

* `entry_lowerInverse`, `entry_upperInverse`, `entry_inverse`: the entries within the bounds.
* `entry_lowerInverse_of_lt`, `entry_upperInverse_of_lt`: beyond their diagonals the factors are zero.
* `newtonPoly_append`: one more node multiplies the Newton polynomial by one more factor.
* `entry_inverse_last`: the last row of the inverse holds the weights of the nodes.
-/

universe u

namespace SparsePoly.Vandermonde

variable {α : Type u} [Zero α] [One α] [Add α] [Sub α] [Mul α] [Neg α] [Div α]

omit [One α] [Add α] [Sub α] [Mul α] [Neg α] [Div α] in
/-- A node among the first ones. -/
theorem getD_take {nodes : List α} {k n : Nat} (h : k < n) :
    (nodes.take n).getD k 0 = nodes.getD k 0 := by
  rw [List.getD_eq_getElem?_getD, List.getElem?_take_of_lt h, List.getD_eq_getElem?_getD]

section Lower

omit [Add α] [Neg α]

/-- The weight of the node of index `j` in the divided difference over some nodes: the reciprocal of
the product of its differences to the others. -/
def weight (nodes : List α) (j : Nat) : α :=
  1 / (nodes.eraseIdx j).foldl (fun d y => d * (nodes.getD j 0 - y)) 1

/-- The inverse of the lower triangular factor. -/
def lowerInverse (v : Vandermonde α) : Grid α :=
  .tabulate v.size fun i j => if j ≤ i then weight (v.nodes.take (i + 1)) j else 0

/-- Within the bounds the lower factor has the weights over the first nodes, up to its diagonal. -/
theorem entry_lowerInverse (v : Vandermonde α) {i j : Nat} (hi : i < v.size) (hj : j < v.size) :
    v.lowerInverse.entry i j = if j ≤ i then weight (v.nodes.take (i + 1)) j else 0 :=
  Grid.entry_tabulate hi hj

/-- Above its diagonal the lower factor is zero. -/
theorem entry_lowerInverse_of_lt (v : Vandermonde α) {i j : Nat} (hj : j < v.size) (hij : i < j) :
    v.lowerInverse.entry i j = 0 := by
  rw [v.entry_lowerInverse (Nat.lt_trans hij hj) hj, if_neg (Nat.not_le.2 hij)]

end Lower

section Upper

omit [Add α] [Div α]

/-- The coefficients of `p * (X - x)` from those of a polynomial `p` with the leading coefficient `1`,
both with the constant first. The new leading coefficient is not computed. -/
def mulRoot (x : α) : List α → List α
  | [] => []
  | c :: cs => -c * x :: (List.zipWith (fun a b => a - b * x) (c :: cs) cs ++ [1])

/-- The coefficients of the product of `X - x` over some nodes `x`, with the constant first. -/
def newtonPoly (nodes : List α) : List α :=
  nodes.foldl (fun cs x => mulRoot x cs) [1]

/-- The inverse of the upper triangular factor. -/
def upperInverse (v : Vandermonde α) : Grid α :=
  let columns := Array.ofFn fun j : Fin v.size => newtonPoly (v.nodes.take j)
  .tabulate v.size fun i j => (columns.getD j []).getD i 0

/-- Within the bounds a column of the upper factor holds a Newton polynomial over the first nodes.
-/
theorem entry_upperInverse (v : Vandermonde α) {i j : Nat} (hi : i < v.size) (hj : j < v.size) :
    v.upperInverse.entry i j = (newtonPoly (v.nodes.take j)).getD i 0 := by
  rw [upperInverse, Grid.entry_tabulate hi hj]
  simp [hj]

omit [Zero α] in
/-- One more node multiplies the Newton polynomial by one more factor. -/
theorem newtonPoly_append (nodes : List α) (x : α) :
    newtonPoly (nodes ++ [x]) = mulRoot x (newtonPoly nodes) := by
  rw [newtonPoly, List.foldl_append]
  rfl

omit [Zero α] in
/-- A factor raises the number of coefficients by one. -/
theorem length_mulRoot (x : α) {cs : List α} (h : cs ≠ []) :
    (mulRoot x cs).length = cs.length + 1 := by
  match cs with
  | [] => exact absurd rfl h
  | c :: cs => simp [mulRoot]

/-- The constant of the product. -/
theorem getD_zero_mulRoot (x : α) {cs : List α} (h : 0 < cs.length) :
    (mulRoot x cs).getD 0 0 = -cs.getD 0 0 * x := by
  match cs with
  | [] => exact absurd h (Nat.lt_irrefl 0)
  | c :: cs => rfl

/-- Each other coefficient of the product but the leading one comes from two neighbours. -/
theorem getD_succ_mulRoot (x : α) {cs : List α} {i : Nat} (h : i + 1 < cs.length) :
    (mulRoot x cs).getD (i + 1) 0 = cs.getD i 0 - cs.getD (i + 1) 0 * x := by
  match cs with
  | [] => exact absurd h (Nat.not_lt_zero _)
  | c :: cs =>
    have hi : i < cs.length := Nat.lt_of_succ_lt_succ h
    simp [mulRoot, List.getD_eq_getElem?_getD, hi, Nat.lt_succ_of_lt hi]

/-- The leading coefficient of the product. -/
theorem getD_length_mulRoot (x : α) {cs : List α} (h : 0 < cs.length) :
    (mulRoot x cs).getD cs.length 0 = 1 := by
  match cs with
  | [] => exact absurd h (Nat.lt_irrefl 0)
  | c :: cs => simp [mulRoot, List.getD_eq_getElem?_getD]

omit [Zero α] in
/-- A Newton polynomial has one more coefficient than it has nodes. -/
theorem length_newtonPoly (nodes : List α) : (newtonPoly nodes).length = nodes.length + 1 := by
  -- the loop starts from one coefficient, but the induction needs any number of them
  suffices h : ∀ cs : List α, cs ≠ [] →
      (nodes.foldl (fun cs x => mulRoot x cs) cs).length = nodes.length + cs.length from
    h [1] (List.cons_ne_nil 1 [])
  induction nodes with
  | nil => intro cs _; rw [List.foldl_nil, List.length_nil, Nat.zero_add]
  | cons x nodes ih =>
    intro cs hcs
    have hlength := length_mulRoot x hcs
    rw [List.foldl_cons, ih _ (List.ne_nil_of_length_pos (by omega)), hlength, List.length_cons]
    omega

/-- Beyond its leading coefficient a Newton polynomial has none. -/
theorem getD_newtonPoly_of_length_lt {nodes : List α} {i : Nat} (h : nodes.length < i) :
    (newtonPoly nodes).getD i 0 = 0 := by
  rw [List.getD_eq_getElem?_getD, List.getElem?_eq_none]
  · rfl
  · rw [length_newtonPoly]
    exact h

/-- The leading coefficient of a Newton polynomial is `1`. -/
theorem getD_length_newtonPoly (nodes : List α) : (newtonPoly nodes).getD nodes.length 0 = 1 := by
  rcases List.eq_nil_or_concat nodes with rfl | ⟨nodes, x, rfl⟩
  · rfl
  · have hlength := length_newtonPoly nodes
    rw [List.concat_eq_append, newtonPoly_append, List.length_append, List.length_singleton,
      ← hlength]
    exact getD_length_mulRoot x (by omega)

/-- Below its diagonal the upper factor is zero. -/
theorem entry_upperInverse_of_lt (v : Vandermonde α) {i j : Nat} (hi : i < v.size) (hji : j < i) :
    v.upperInverse.entry i j = 0 := by
  have hj : j < v.nodes.length := Nat.lt_trans hji hi
  rw [v.entry_upperInverse hi hj, getD_newtonPoly_of_length_lt]
  rwa [List.length_take_of_le (Nat.le_of_lt hj)]

/-- On its diagonal the upper factor is one. -/
theorem entry_upperInverse_self (v : Vandermonde α) {j : Nat} (hj : j < v.size) :
    v.upperInverse.entry j j = 1 := by
  have hlead := getD_length_newtonPoly (v.nodes.take j)
  rw [List.length_take_of_le (Nat.le_of_lt hj)] at hlead
  rw [v.entry_upperInverse hj hj, hlead]

end Upper

/-- The product of an upper and a lower triangular grid of `n` rows. Products that hold an entry
beyond a triangle are left out of the sums. -/
def triangularProduct (n : Nat) (upper lower : Grid α) : Grid α :=
  .tabulate n fun i j =>
    Grid.sum ((List.range' (max i j) (n - max i j)).map fun k => upper.entry i k * lower.entry k j)

/-- The inverse. -/
def inverse (v : Vandermonde α) : Grid α :=
  triangularProduct v.size v.upperInverse v.lowerInverse

/-- Within the bounds the inverse has the products of rows and columns of its factors. -/
theorem entry_inverse (v : Vandermonde α) {i j : Nat} (hi : i < v.size) (hj : j < v.size) :
    v.inverse.entry i j =
      Grid.sum ((List.range' (max i j) (v.size - max i j)).map fun k =>
        v.upperInverse.entry i k * v.lowerInverse.entry k j) :=
  Grid.entry_tabulate hi hj

/-- The last row of the inverse holds the weights of all nodes. -/
theorem entry_inverse_last (v : Vandermonde α) {j : Nat} (hj : j < v.size) :
    v.inverse.entry (v.size - 1) j = 0 + 1 * weight v.nodes j := by
  have hlast : v.size - 1 < v.size := by omega
  have hmax : max (v.size - 1) j = v.size - 1 := by omega
  have hone : v.size - (v.size - 1) = 1 := by omega
  rw [v.entry_inverse hlast hj, hmax, hone, List.range'_one, List.map_singleton,
    v.entry_upperInverse_self hlast, v.entry_lowerInverse hlast hj,
    if_pos (Nat.le_sub_one_of_lt hj), Nat.sub_add_cancel (by omega), size, List.take_length]
  rfl

/-- The coefficients, with the constant first, of the polynomial that has the given samples at the
nodes. -/
def solve (v : Vandermonde α) (samples : List α) (_ : samples.length = v.size) : List α :=
  v.inverse.mulColumn samples

/-- The coefficients of the polynomial that has the given samples at the nodes, unless there are more
or fewer samples than nodes. -/
def solve? (v : Vandermonde α) (samples : List α) : Option (List α) :=
  if h : samples.length = v.size then some (v.solve samples h) else none

@[simp] theorem length_solve (v : Vandermonde α) (samples : List α)
    (h : samples.length = v.size) : (v.solve samples h).length = v.size := by
  simp [solve, inverse, triangularProduct]

/-- A coefficient is the product of a row of the inverse with the samples. -/
theorem getElem_solve (v : Vandermonde α) (samples : List α) (h : samples.length = v.size) {i : Nat}
    (hi : i < (v.solve samples h).length) :
    (v.solve samples h)[i] =
      Grid.sum (List.zipWith (· * ·) ((List.range v.size).map fun j => v.inverse.entry i j) samples) := by
  have hsize : i < v.size := by simpa using hi
  simp only [solve, inverse, triangularProduct, Grid.mulColumn_tabulate, List.getElem_map,
    List.getElem_range]
  congr 2
  refine List.map_congr_left fun j hj => ?_
  rw [Grid.entry_tabulate hsize (List.mem_range.1 hj)]

/-- As many samples as nodes have a solution. -/
theorem solve?_eq_some (v : Vandermonde α) (samples : List α) (h : samples.length = v.size) :
    v.solve? samples = some (v.solve samples h) := by
  simp [solve?, h]

end SparsePoly.Vandermonde
