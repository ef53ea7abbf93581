import SparsePoly.Poly.TermList
import Mathlib.Data.Nat.Notation

/-!
# Terms in flat storage

A polynomial may be held in one flat row of terms that is changed in place. The place of an exponent
is then found by bisection (`search`), and a term is summed, put in or taken out at an index (`put`,
`remove`).

On a row with ascending exponents this is the same as going through the row from its first term on:
`put_eq_add` and `remove_eq_erase`. The invariant of the bisection is that all terms before the
interval lie below the exponent and all terms behind it lie above.
-/

universe u

namespace SparsePoly.Storage

variable {α : Type u}

/-- Where a search ends: at the index of the term, or at the index at which it would belong. -/
inductive Place where
  /-- The term at this index has the exponent. -/
  | found (i : ℕ)
  /-- No term has the exponent, and one may be put in at this index. -/
  | missing (i : ℕ)

/-- Bisection for the exponent `e` among the indices from `lo` to below `hi`. -/
def searchFrom (e : UInt32) (ts : List (Term α)) (lo hi : ℕ) : Place :=
  if lo < hi then
    match ts[lo + (hi - lo) / 2]? with
    | none => .missing lo
    | some t =>
      if t.exponent < e then searchFrom e ts (lo + (hi - lo) / 2 + 1) hi
      else if e < t.exponent then searchFrom e ts lo (lo + (hi - lo) / 2)
      else .found (lo + (hi - lo) / 2)
  else .missing lo
termination_by hi - lo

/-- The place of the exponent `e` in a row of terms. -/
def search (e : UInt32) (ts : List (Term α)) : Place := searchFrom e ts 0 ts.length

/-- Adds a term to a row in place. A coefficient that equals zero adds nothing, and a sum that
equals zero takes its term out. -/
def put [Zero α] [BEq α] [Add α] (t : Term α) (ts : List (Term α)) : List (Term α) :=
  if t.coefficient == 0 then ts
  else
    match search t.exponent ts with
    | .missing i => ts.insertIdx i t
    | .found i =>
      match ts[i]? with
      | none => ts
      | some u =>
        let sum := u.coefficient + t.coefficient
        if sum == 0 then ts.eraseIdx i else ts.set i ⟨u.exponent, sum⟩

/-- Takes the term of exponent `e` out of a row. -/
def remove (e : UInt32) (ts : List (Term α)) : List (Term α) :=
  match search e ts with
  | .missing _ => ts
  | .found i => ts.eraseIdx i

/-! ## What bisection finds -/

/-- A place is right if the terms before and behind it lie below and above the exponent. -/
inductive IsPlace (e : UInt32) : List (Term α) → Place → Prop where
  /-- A term of the exponent stands at the index. -/
  | found {before after : List (Term α)} {t : Term α} (below : ∀ u ∈ before, u.exponent < e)
      (at_eq : t.exponent = e) (above : ∀ u ∈ after, e < u.exponent) :
      IsPlace e (before ++ t :: after) (.found before.length)
  /-- The exponent belongs between two terms, or at an end of the row. -/
  | missing {before after : List (Term α)} (below : ∀ u ∈ before, u.exponent < e)
      (above : ∀ u ∈ after, e < u.exponent) : IsPlace e (before ++ after) (.missing before.length)

/-- A row of ascending exponents around one of its terms. -/
theorem exponent_lt_of_split {ts : List (Term α)}
    (hts : ts.Pairwise fun t u => t.exponent < u.exponent) {i : ℕ} {t : Term α}
    (ht : ts[i]? = some t) :
    (∀ u ∈ ts.take i, u.exponent < t.exponent) ∧ ts = ts.take i ++ t :: ts.drop (i + 1) ∧
      ∀ u ∈ ts.drop (i + 1), t.exponent < u.exponent := by
  obtain ⟨hi, rfl⟩ := List.getElem?_eq_some_iff.1 ht
  have hsplit : ts = ts.take i ++ ts[i] :: ts.drop (i + 1) := by
    rw [List.getElem_cons_drop, List.take_append_drop]
  have hpair := hts
  rw [hsplit, List.pairwise_append, List.pairwise_cons] at hpair
  exact ⟨fun u hu => hpair.2.2 u hu _ List.mem_cons_self, hsplit, hpair.2.1.1⟩

/-- Bisection keeps the terms outside of its interval on their sides of the exponent. -/
theorem isPlace_searchFrom {e : UInt32} {ts : List (Term α)}
    (hts : ts.Pairwise fun t u => t.exponent < u.exponent) {lo hi : ℕ} (hle : lo ≤ hi)
    (hhi : hi ≤ ts.length) (below : ∀ u ∈ ts.take lo, u.exponent < e)
    (above : ∀ u ∈ ts.drop hi, e < u.exponent) : IsPlace e ts (searchFrom e ts lo hi) := by
  fun_induction searchFrom e ts lo hi with
  | case1 lo hi hlt hnone =>
    have := List.getElem?_eq_none_iff.1 hnone
    omega
  | case2 lo hi hlt t ht hte ih =>
    -- the term in the middle lies below, and so do all before it
    obtain ⟨hbefore, -, -⟩ := exponent_lt_of_split hts ht
    obtain ⟨hmid, -⟩ := List.getElem?_eq_some_iff.1 ht
    refine ih (by omega) hhi ?_ above
    intro u hu
    rw [List.take_add_one, ht, List.mem_append] at hu
    rcases hu with hu | hu
    · exact UInt32.lt_trans (hbefore u hu) hte
    · obtain rfl : u = t := by simpa using hu
      exact hte
  | case3 lo hi hlt t ht hte het ih =>
    -- the term in the middle lies above, and so do all behind it
    obtain ⟨-, -, hafter⟩ := exponent_lt_of_split hts ht
    obtain ⟨hmid, rfl⟩ := List.getElem?_eq_some_iff.1 ht
    apply ih (by omega) (by omega) below
    intro u hu
    rw [← List.getElem_cons_drop hmid] at hu
    rcases List.mem_cons.1 hu with rfl | hu
    · exact het
    · exact UInt32.lt_trans het (hafter u hu)
  | case4 lo hi hlt t ht hte het =>
    obtain ⟨hbefore, hsplit, hafter⟩ := exponent_lt_of_split hts ht
    obtain ⟨hmid, -⟩ := List.getElem?_eq_some_iff.1 ht
    have heq : t.exponent = e := TermList.exponent_eq_of_not_lt hte het
    have hplace := IsPlace.found (heq ▸ hbefore) heq (heq ▸ hafter)
    rw [← hsplit, List.length_take_of_le (by omega)] at hplace
    exact hplace
  | case5 lo hi hlt =>
    -- nothing is left between the terms below and those above
    have heq : lo = hi := by omega
    have hplace := IsPlace.missing below (heq ▸ above)
    rw [List.take_append_drop, List.length_take_of_le (by omega)] at hplace
    exact hplace

/-- Bisection in a row of ascending exponents ends at the place of the exponent. -/
theorem isPlace_search {ts : List (Term α)}
    (hts : ts.Pairwise fun t u => t.exponent < u.exponent) (e : UInt32) :
    IsPlace e ts (search e ts) :=
  isPlace_searchFrom hts (Nat.zero_le _) (Nat.le_refl _) (by simp) (by simp)

/-! ## In place, or from the first term on -/

section Put

variable [Zero α] [BEq α] [Add α]

/-- A scan passes over the terms below the new one. -/
theorem insert_append {t : Term α} {before : List (Term α)}
    (below : ∀ u ∈ before, u.exponent < t.exponent) (after : List (Term α)) :
    TermList.insert t (before ++ after) = before ++ TermList.insert t after := by
  induction before with
  | nil => rfl
  | cons u us ih =>
    rw [List.cons_append, TermList.insert, if_pos (below u List.mem_cons_self),
      ih fun v hv => below v (List.mem_cons_of_mem _ hv), List.cons_append]

/-- A scan stops before the first term above the new one. -/
theorem insert_of_above {t : Term α} {after : List (Term α)}
    (above : ∀ u ∈ after, t.exponent < u.exponent) : TermList.insert t after = t :: after := by
  cases after with
  | nil => rfl
  | cons u us =>
    have hlt := above u List.mem_cons_self
    rw [TermList.insert, if_neg (UInt32.not_lt.2 (UInt32.le_of_lt hlt)), if_pos hlt]

omit [Zero α] [BEq α] [Add α] in
theorem insertIdx_length (before after : List (Term α)) (t : Term α) :
    (before ++ after).insertIdx before.length t = before ++ t :: after := by
  induction before with
  | nil => rfl
  | cons u us ih => rw [List.cons_append, List.length_cons, List.insertIdx_succ_cons, ih]; rfl

/-- Adding a term in place is adding it by a scan. -/
theorem put_eq_add {ts : List (Term α)} (hts : ts.Pairwise fun t u => t.exponent < u.exponent)
    (t : Term α) : put t ts = TermList.add t ts := by
  unfold put TermList.add
  split
  · rfl
  · have hplace := isPlace_search hts t.exponent
    generalize search t.exponent ts = place at hplace
    cases hplace with
    | missing below above =>
      rename_i before after
      rw [insert_append below, insert_of_above above]
      exact insertIdx_length before after t
    | found below heq above =>
      -- the scan comes to the same term, and sums the same two coefficients
      rename_i before after u
      have hirrefl : ¬ u.exponent < t.exponent := heq ▸ UInt32.lt_irrefl _
      have hirrefl' : ¬ t.exponent < u.exponent := heq ▸ UInt32.lt_irrefl _
      rw [insert_append below, TermList.insert, if_neg hirrefl, if_neg hirrefl',
        TermList.consNonzero]
      simp only [List.getElem?_append_right (Nat.le_refl _), Nat.sub_self, List.getElem?_cons_zero]
      split
      · rw [List.eraseIdx_append_of_length_le (Nat.le_refl _), Nat.sub_self, List.eraseIdx_cons_zero]
      · rw [List.set_append_right _ _ (Nat.le_refl _), Nat.sub_self, List.set_cons_zero]

end Put

/-- Taking a term out in place is dropping it by a scan. -/
theorem remove_eq_erase {ts : List (Term α)}
    (hts : ts.Pairwise fun t u => t.exponent < u.exponent) (e : UInt32) :
    remove e ts = TermList.erase e ts := by
  -- the scan leaves the terms on either side of the place
  have keep : ∀ us : List (Term α), (∀ u ∈ us, u.exponent ≠ e) → TermList.erase e us = us := by
    intro us hus
    exact List.filter_eq_self.2 fun u hu => by simpa using hus u hu
  unfold remove
  have hplace := isPlace_search hts e
  generalize search e ts = place at hplace
  cases hplace with
  | missing below above =>
    rename_i before after
    symm
    apply keep
    intro u hu
    rcases List.mem_append.1 hu with hu | hu
    · exact UInt32.ne_of_lt (below u hu)
    · exact (UInt32.ne_of_lt (above u hu)).symm
  | found below heq above =>
    rename_i before after u
    have hbefore := keep before fun v hv => UInt32.ne_of_lt (below v hv)
    have hafter := keep after fun v hv => (UInt32.ne_of_lt (above v hv)).symm
    simp only [TermList.erase] at hbefore hafter ⊢
    rw [List.eraseIdx_append_of_length_le (Nat.le_refl _), Nat.sub_self, List.eraseIdx_cons_zero,
      List.filter_append, List.filter_cons, hbefore, hafter, if_neg (by simp [heq])]

end SparsePoly.Storage
