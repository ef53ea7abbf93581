import SparsePoly.Term

/-!
# Canonical term lists

A list of terms is canonical when its exponents ascend strictly and no coefficient equals zero.
Here are the operations on such lists that polynomials are built from, and what each of them keeps:

* `add` puts one term into a list, summing with the term of the same exponent if there is one;
* `merge` joins two lists in one pass;
* `erase` drops the term of one exponent;
* `coefficient?` looks a coefficient up.

A sum that equals zero takes its term out of the list. "Equals zero" is `==` throughout, so that
floating-point zeros of both signs are dropped, and NaN is kept.

## Main statements

* `Canonical.add`, `Canonical.merge`, `Canonical.erase`, `Canonical.neg`: the operations keep lists
  canonical.
* `exponent_of_mem_add`, `exponent_of_mem_merge`: no operation brings in a new exponent.
-/

universe u

namespace SparsePoly

variable {α : Type u}

/-- Strictly ascending exponents and no coefficient that equals zero. -/
structure Canonical [Zero α] [BEq α] (ts : List (Term α)) : Prop where
  /-- Each exponent is below every later one. -/
  ascending : ts.Pairwise fun t u => t.exponent < u.exponent
  /-- No coefficient equals zero. -/
  nonzero : ∀ t ∈ ts, (t.coefficient == 0) = false

namespace TermList

section Operations

variable [Zero α] [BEq α]

/-- The term `c * x ^ e` at the front of `ts`, unless `c` equals zero. -/
def consNonzero (e : UInt32) (c : α) (ts : List (Term α)) : List (Term α) :=
  if c == 0 then ts else ⟨e, c⟩ :: ts

/-- Puts a term with a nonzero coefficient in its place. The coefficient already there is the left
summand. -/
def insert [Add α] (t : Term α) : List (Term α) → List (Term α)
  | [] => [t]
  | u :: us =>
    if u.exponent < t.exponent then u :: insert t us
    else if t.exponent < u.exponent then t :: u :: us
    else consNonzero u.exponent (u.coefficient + t.coefficient) us

/-- Adds a term to a list. A term whose coefficient equals zero adds nothing. -/
def add [Add α] (t : Term α) (ts : List (Term α)) : List (Term α) :=
  if t.coefficient == 0 then ts else insert t ts

/-- Joins two lists by ascending exponent. Terms of equal exponents are summed. -/
def merge [Add α] : List (Term α) → List (Term α) → List (Term α)
  | [], us => us
  | ts, [] => ts
  | t :: ts, u :: us =>
    if t.exponent < u.exponent then t :: merge ts (u :: us)
    else if u.exponent < t.exponent then u :: merge (t :: ts) us
    else consNonzero t.exponent (t.coefficient + u.coefficient) (merge ts us)
termination_by ts us => ts.length + us.length

end Operations

/-- Drops the term of exponent `e`. -/
def erase (e : UInt32) (ts : List (Term α)) : List (Term α) :=
  ts.filter (·.exponent != e)

/-- The coefficient of the first term of exponent `e`. -/
def coefficient? (e : UInt32) : List (Term α) → Option α
  | [] => none
  | t :: ts => if t.exponent = e then some t.coefficient else coefficient? e ts

/-! ## Exponents -/

/-- Exponents of which neither is below the other are equal. -/
theorem exponent_eq_of_not_lt {a b : UInt32} (h₁ : ¬ a < b) (h₂ : ¬ b < a) : a = b :=
  UInt32.le_antisymm (UInt32.not_lt.1 h₂) (UInt32.not_lt.1 h₁)

section Exponents

variable [Zero α] [BEq α]

/-- A term that is put in front is the only one that is new, if it is there at all. -/
theorem mem_consNonzero {e : UInt32} {c : α} {ts : List (Term α)} {x : Term α}
    (h : x ∈ consNonzero e c ts) : x = ⟨e, c⟩ ∨ x ∈ ts := by
  unfold consNonzero at h
  split at h
  · exact Or.inr h
  · exact List.mem_cons.1 h

/-- Inserting a term brings in its own exponent at most. -/
theorem exponent_of_mem_insert [Add α] {t x : Term α} {ts : List (Term α)}
    (h : x ∈ insert t ts) : x.exponent = t.exponent ∨ ∃ u ∈ ts, u.exponent = x.exponent := by
  -- on the list: the term goes in front, onto the first term, or further on
  induction ts with
  | nil => simp_all [insert]
  | cons u us ih =>
    rw [insert] at h
    split at h
    · rcases List.mem_cons.1 h with rfl | h
      · exact Or.inr ⟨x, List.mem_cons_self, rfl⟩
      · rcases ih h with h | ⟨v, hv, hvx⟩
        · exact Or.inl h
        · exact Or.inr ⟨v, List.mem_cons_of_mem _ hv, hvx⟩
    · split at h
      · rcases List.mem_cons.1 h with rfl | h
        · exact Or.inl rfl
        · exact Or.inr ⟨x, h, rfl⟩
      · rcases mem_consNonzero h with rfl | h
        · exact Or.inr ⟨u, List.mem_cons_self, rfl⟩
        · exact Or.inr ⟨x, List.mem_cons_of_mem _ h, rfl⟩

/-- Adding a term brings in its own exponent at most. -/
theorem exponent_of_mem_add [Add α] {t x : Term α} {ts : List (Term α)} (h : x ∈ add t ts) :
    x.exponent = t.exponent ∨ ∃ u ∈ ts, u.exponent = x.exponent := by
  unfold add at h
  split at h
  · exact Or.inr ⟨x, h, rfl⟩
  · exact exponent_of_mem_insert h

/-- A merge has no exponents but those of its two lists. -/
theorem exponent_of_mem_merge [Add α] {ts us : List (Term α)} {x : Term α}
    (h : x ∈ merge ts us) :
    (∃ t ∈ ts, t.exponent = x.exponent) ∨ ∃ u ∈ us, u.exponent = x.exponent := by
  -- on the merge: either list may be used up, and otherwise one of the first terms comes next, or
  -- their sum
  induction ts, us using merge.induct with
  | case1 us => exact Or.inr ⟨x, by simpa [merge] using h, rfl⟩
  | case2 ts hts => exact Or.inl ⟨x, by simpa [merge] using h, rfl⟩
  | case3 t ts u us hlt ih =>
    rw [merge, if_pos hlt] at h
    rcases List.mem_cons.1 h with rfl | h
    · exact Or.inl ⟨x, List.mem_cons_self, rfl⟩
    · rcases ih h with ⟨v, hv, hvx⟩ | hu
      · exact Or.inl ⟨v, List.mem_cons_of_mem _ hv, hvx⟩
      · exact Or.inr hu
  | case4 t ts u us hlt hgt ih =>
    rw [merge, if_neg hlt, if_pos hgt] at h
    rcases List.mem_cons.1 h with rfl | h
    · exact Or.inr ⟨x, List.mem_cons_self, rfl⟩
    · rcases ih h with ht | ⟨v, hv, hvx⟩
      · exact Or.inl ht
      · exact Or.inr ⟨v, List.mem_cons_of_mem _ hv, hvx⟩
  | case5 t ts u us hlt hgt ih =>
    rw [merge, if_neg hlt, if_neg hgt] at h
    rcases mem_consNonzero h with rfl | h
    · exact Or.inl ⟨t, List.mem_cons_self, rfl⟩
    · rcases ih h with ⟨v, hv, hvx⟩ | ⟨v, hv, hvx⟩
      · exact Or.inl ⟨v, List.mem_cons_of_mem _ hv, hvx⟩
      · exact Or.inr ⟨v, List.mem_cons_of_mem _ hv, hvx⟩

end Exponents

/-- What is left after dropping an exponent are the terms of other exponents. -/
theorem mem_erase {e : UInt32} {ts : List (Term α)} {x : Term α} :
    x ∈ erase e ts ↔ x ∈ ts ∧ x.exponent ≠ e := by
  simp [erase]

end TermList

/-! ## The canonical form is kept -/

namespace Canonical

open TermList

variable [Zero α] [BEq α] {ts us : List (Term α)} {t : Term α}

theorem nil : Canonical ([] : List (Term α)) := ⟨List.Pairwise.nil, by simp⟩

theorem tail (h : Canonical (t :: ts)) : Canonical ts :=
  ⟨(List.pairwise_cons.1 h.ascending).2, fun u hu => h.nonzero u (List.mem_cons_of_mem _ hu)⟩

theorem head_lt (h : Canonical (t :: ts)) : ∀ u ∈ ts, t.exponent < u.exponent :=
  (List.pairwise_cons.1 h.ascending).1

/-- A nonzero term may come in front of terms with higher exponents. -/
theorem cons (ht : (t.coefficient == 0) = false) (hlt : ∀ u ∈ ts, t.exponent < u.exponent)
    (h : Canonical ts) : Canonical (t :: ts) :=
  ⟨List.pairwise_cons.2 ⟨hlt, h.ascending⟩, List.forall_mem_cons.2 ⟨ht, h.nonzero⟩⟩

/-- So may any other term, since a zero is left out. -/
theorem consNonzero {e : UInt32} {c : α} (hlt : ∀ u ∈ ts, e < u.exponent) (h : Canonical ts) :
    Canonical (consNonzero e c ts) := by
  unfold TermList.consNonzero
  split
  · exact h
  · rename_i hc
    exact cons (by simpa using hc) hlt h

/-- Inserting a nonzero term keeps a list canonical. -/
theorem insert [Add α] (ht : (t.coefficient == 0) = false) (h : Canonical ts) :
    Canonical (insert t ts) := by
  induction ts with
  | nil => exact cons ht (by simp) nil
  | cons u us ih =>
    rw [TermList.insert]
    split
    · rename_i hlt
      refine cons (h.nonzero u List.mem_cons_self) (fun v hv => ?_) (ih h.tail)
      -- what comes behind the first term has an exponent of the list or the new one
      rcases exponent_of_mem_insert hv with hv | ⟨w, hw, hwv⟩
      · rw [hv]; exact hlt
      · rw [← hwv]; exact h.head_lt w hw
    · split
      · rename_i hlt
        refine cons ht (fun v hv => ?_) h
        rcases List.mem_cons.1 hv with rfl | hv
        · exact hlt
        · exact UInt32.lt_trans hlt (h.head_lt v hv)
      · exact consNonzero h.head_lt h.tail

/-- Adding any term keeps a list canonical. -/
theorem add [Add α] (t : Term α) (h : Canonical ts) : Canonical (add t ts) := by
  unfold TermList.add
  split
  · exact h
  · rename_i ht
    exact h.insert (by simpa using ht)

/-- Merging keeps lists canonical. -/
theorem merge [Add α] (h₁ : Canonical ts) (h₂ : Canonical us) : Canonical (merge ts us) := by
  -- on the merge: the term that comes first is below what is left of both lists
  induction ts, us using TermList.merge.induct with
  | case1 us => simpa [TermList.merge] using h₂
  | case2 ts hts => simpa [TermList.merge] using h₁
  | case3 t ts u us hlt ih =>
    rw [TermList.merge, if_pos hlt]
    refine cons (h₁.nonzero t List.mem_cons_self) (fun v hv => ?_) (ih h₁.tail h₂)
    rcases exponent_of_mem_merge hv with ⟨w, hw, hwv⟩ | ⟨w, hw, hwv⟩
    · rw [← hwv]; exact h₁.head_lt w hw
    · rw [← hwv]
      rcases List.mem_cons.1 hw with rfl | hw
      · exact hlt
      · exact UInt32.lt_trans hlt (h₂.head_lt w hw)
  | case4 t ts u us hlt hgt ih =>
    rw [TermList.merge, if_neg hlt, if_pos hgt]
    refine cons (h₂.nonzero u List.mem_cons_self) (fun v hv => ?_) (ih h₁ h₂.tail)
    rcases exponent_of_mem_merge hv with ⟨w, hw, hwv⟩ | ⟨w, hw, hwv⟩
    · rw [← hwv]
      rcases List.mem_cons.1 hw with rfl | hw
      · exact hgt
      · exact UInt32.lt_trans hgt (h₁.head_lt w hw)
    · rw [← hwv]; exact h₂.head_lt w hw
  | case5 t ts u us hlt hgt ih =>
    rw [TermList.merge, if_neg hlt, if_neg hgt]
    refine consNonzero (fun v hv => ?_) (ih h₁.tail h₂.tail)
    rcases exponent_of_mem_merge hv with ⟨w, hw, hwv⟩ | ⟨w, hw, hwv⟩
    · rw [← hwv]; exact h₁.head_lt w hw
    · rw [← hwv, exponent_eq_of_not_lt hlt hgt]; exact h₂.head_lt w hw

/-- Dropping a term keeps a list canonical. -/
theorem erase (e : UInt32) (h : Canonical ts) : Canonical (erase e ts) :=
  ⟨h.ascending.filter _, fun u hu => h.nonzero u (mem_erase.1 hu).1⟩

/-- Negating every coefficient keeps a list canonical. -/
theorem neg [Neg α] [LawfulNegZero α] (h : Canonical ts) : Canonical (ts.map (-·)) := by
  refine ⟨List.pairwise_map.2 h.ascending, fun u hu => ?_⟩
  obtain ⟨v, hv, rfl⟩ := List.mem_map.1 hu
  rw [Term.coefficient_neg, LawfulNegZero.neg_beq_zero]
  exact h.nonzero v hv

end Canonical

end SparsePoly
