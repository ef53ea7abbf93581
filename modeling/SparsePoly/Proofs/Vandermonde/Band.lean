import SparsePoly.Proofs.Binary64.Sign
import SparsePoly.Proofs.Storage.Factors

/-!
# The products that are left out

The inverse of a Vandermonde matrix is the product of its two triangular factors. Its entries are sums of
which the products that hold an entry beyond a triangle are left out. With floating-point numbers that is
a shorter calculation, and it need not be the same one: zero times infinity is NaN, and a zero has a sign.

As long as all entries of the factors are finite, it is the same, bit for bit (`inverse_eq_product`). The
entries beyond the triangles are exact zeros, so the products with them are zeros of one sign or the
other (`zero_mul_beq_zero`). They all come before the others, and a sum that has only met such zeros is
still the positive zero that it began with (`zero_add_of_beq_zero`).
-/

open Float.Model Float.Model.UnpackedFloat

universe u

namespace SparsePoly

/-! ## Full products -/

namespace Grid

variable {α : Type u} [Zero α] [Add α]

/-- The product of two grids of `n` rows, in which nothing is left out of the sums. -/
def product [Mul α] (n : ℕ) (g h : Grid α) : Grid α :=
  .tabulate n fun i j => sum ((List.range n).map fun k => g.entry i k * h.entry k j)

/-- What adds nothing to zero adds nothing in front of a sum. -/
theorem sum_append_of_absorbed {zs : List α} (hzs : ∀ z ∈ zs, 0 + z = 0) (xs : List α) :
    sum (zs ++ xs) = sum xs := by
  induction zs with
  | nil => rfl
  | cons z zs ih =>
    rw [← ih fun z hz => hzs z (List.mem_cons_of_mem _ hz), List.cons_append, sum, List.foldl_cons,
      hzs z List.mem_cons_self]
    rfl

/-- A sum may leave out the first indices if they add nothing to zero. -/
theorem sum_map_range_eq {f : ℕ → α} {m n : ℕ} (hm : m ≤ n) (hf : ∀ k < m, 0 + f k = 0) :
    sum ((List.range n).map f) = sum ((List.range' m (n - m)).map f) := by
  have hsplit : List.range n = List.range m ++ List.range' m (n - m) := by
    have hrange := List.range'_append_1 (s := 0) (m := m) (n := n - m)
    rw [Nat.zero_add, Nat.add_sub_cancel' hm] at hrange
    rw [List.range_eq_range', List.range_eq_range', hrange]
  rw [hsplit, List.map_append]
  apply sum_append_of_absorbed
  intro z hz
  obtain ⟨k, hk, rfl⟩ := List.mem_map.1 hz
  exact hf k (List.mem_range.1 hk)

end Grid

/-! ## Zeros in sums and products -/

namespace Binary64

/-- Zero times a finite number is a zero. -/
theorem zero_mul_beq_zero {x : Float} (hx : x.isFinite = true) : (0 * x == 0) = true := by
  change x.toModel.unpack.isFinite = true at hx
  obtain ⟨s, hs⟩ : ∃ s, UnpackedFloat.mul .binary64 (.zero .positive) x.toModel.unpack = .zero s := by
    cases hu : x.toModel.unpack with
    | infinity s | notANumber => rw [hu] at hx; cases hx
    | zero s | finite s m e hm => exact ⟨_, rfl⟩
  change (Float.Model.pack (UnpackedFloat.mul .binary64 (.zero .positive)
    x.toModel.unpack)).unpack.beq (.zero .positive) = true
  rw [hs, unpack_pack_zero]
  rfl

/-- A finite number times zero is a zero. -/
theorem mul_zero_beq_zero {x : Float} (hx : x.isFinite = true) : (x * 0 == 0) = true := by
  rw [Binary64.mul_comm]
  exact zero_mul_beq_zero hx

/-- A zero of either sign adds nothing to the positive zero. -/
theorem zero_add_of_beq_zero {z : Float} (hz : (z == 0) = true) : 0 + z = 0 := by
  change z.toModel.unpack.beq (.zero .positive) = true at hz
  change Float.ofModel (Float.Model.pack (UnpackedFloat.add .binary64 (.zero .positive)
    z.toModel.unpack)) = 0
  rw [beq_zero] at hz
  cases hu : z.toModel.unpack with
  | zero s => cases s <;> rfl
  | infinity s | notANumber | finite s m e hm => rw [hu] at hz; cases hz

end Binary64

/-! ## The inverse -/

namespace Vandermonde

open Binary64

variable {v : Vandermonde Float}

/-- The products that are left out of an entry of the inverse add nothing. -/
theorem zero_add_product (hupper : ∀ i < v.size, ∀ j < v.size, (v.upperInverse.entry i j).isFinite = true)
    (hlower : ∀ i < v.size, ∀ j < v.size, (v.lowerInverse.entry i j).isFinite = true) {i j k : ℕ}
    (hi : i < v.size) (hj : j < v.size) (hk : k < max i j) :
    0 + v.upperInverse.entry i k * v.lowerInverse.entry k j = 0 := by
  apply zero_add_of_beq_zero
  -- one of the two factors is a zero beyond its triangle
  rcases Nat.lt_or_ge k i with hki | hik
  · rw [v.entry_upperInverse_of_lt hi hki]
    exact zero_mul_beq_zero (hlower k (hki.trans hi) j hj)
  · have hkj : k < j := (lt_max_iff.1 hk).resolve_left (Nat.not_lt.2 hik)
    rw [v.entry_lowerInverse_of_lt hj hkj]
    exact mul_zero_beq_zero (hupper i hi k (hkj.trans hj))

/-- If all entries of the factors are finite, leaving out the products beyond the triangles changes no
bit of the inverse: it is the full product of the factors, which are those that are filled in place. -/
theorem inverse_eq_product
    (hupper : ∀ i < v.size, ∀ j < v.size, (v.upperInverse.entry i j).isFinite = true)
    (hlower : ∀ i < v.size, ∀ j < v.size, (v.lowerInverse.entry i j).isFinite = true) :
    v.inverse = Grid.product v.size v.upperInverse v.lowerInverse ∧
      Storage.fillUpper v.nodes = v.upperInverse ∧ Storage.fillLower v.nodes = v.lowerInverse := by
  refine ⟨?_, Storage.fillUpper_eq v, Storage.fillLower_eq rfl v⟩
  rw [inverse, triangularProduct, Grid.product]
  apply Grid.tabulate_congr
  intro i j hi hj
  symm
  apply Grid.sum_map_range_eq (Nat.max_le.2 ⟨hi.le, hj.le⟩)
  intro k hk
  exact zero_add_product hupper hlower hi hj hk

/-- Zeros of both signs, next to entries that are as large as `1e100`. -/
theorem inverse_eq_product_zeros :
    (∀ i < 3, ∀ j < 3, ((⟨[1e-100, -0.0, 3]⟩ : Vandermonde Float).upperInverse.entry i j).isFinite = true) ∧
    (∀ i < 3, ∀ j < 3, ((⟨[1e-100, -0.0, 3]⟩ : Vandermonde Float).lowerInverse.entry i j).isFinite = true) ∧
    (⟨[1e-100, -0.0, 3]⟩ : Vandermonde Float).inverse =
      Grid.product 3 (⟨[1e-100, -0.0, 3]⟩ : Vandermonde Float).upperInverse
        (⟨[1e-100, -0.0, 3]⟩ : Vandermonde Float).lowerInverse := by
  have hupper : ∀ i < 3, ∀ j < 3,
      ((⟨[1e-100, -0.0, 3]⟩ : Vandermonde Float).upperInverse.entry i j).isFinite = true := by
    decide +kernel
  have hlower : ∀ i < 3, ∀ j < 3,
      ((⟨[1e-100, -0.0, 3]⟩ : Vandermonde Float).lowerInverse.entry i j).isFinite = true := by
    decide +kernel
  exact ⟨hupper, hlower, (inverse_eq_product (v := ⟨[1e-100, -0.0, 3]⟩) hupper hlower).1⟩

end Vandermonde

end SparsePoly
