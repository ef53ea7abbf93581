import SparsePoly.Poly.Product

/-!
# Division with remainder

Long division takes the leading term of the running remainder by the leading term of the divisor,
adds the ratio to the quotient and subtracts its multiple of the divisor, as long as the remainder
reaches the degree of the divisor.

With floating-point coefficients the subtraction may leave a residue at the exponent that it is
meant to clear, so that term is dropped afterwards. Hence the leading exponent falls at every pass,
whatever the coefficients are (`height_reduce_lt`), and the division ends.
-/

universe u

namespace SparsePoly.Poly

variable {α : Type u} [Zero α] [BEq α]

/-- A quotient with its remainder. -/
structure Division (α : Type u) [Zero α] [BEq α] where
  /-- How often the divisor goes into the dividend. -/
  quotient : Poly α
  /-- What is left of the dividend. -/
  remainder : Poly α

section Ratio

variable [Add α] [Div α]

/-- The multiple of the divisor's leading term `lead` that has the term `top`. -/
def ratio (top lead : Term α) : Poly α :=
  monomial ⟨top.exponent - lead.exponent, top.coefficient / lead.coefficient⟩

/-- The ratio has a term of one exponent at most. -/
theorem exponent_of_mem_ratio {top lead x : Term α} (h : x ∈ (ratio top lead).terms) :
    x.exponent = top.exponent - lead.exponent := by
  rcases TermList.exponent_of_mem_add h with h | ⟨u, hu, _⟩
  · exact h
  · simp at hu

/-- The exponents of the divisor and of the ratio add up to no more than that of `top`. -/
theorem exponent_add_le_of_mem_ratio {d : Poly α} {top lead t u : Term α}
    (hd : d.leadingTerm? = some lead) (hle : lead.exponent ≤ top.exponent) (ht : t ∈ d.terms)
    (hu : u ∈ (ratio top lead).terms) :
    t.exponent.toNat + u.exponent.toNat ≤ top.exponent.toNat := by
  have ht := UInt32.le_iff_toNat_le.1 (exponent_le_of_leadingTerm? hd ht)
  have hle' := UInt32.le_iff_toNat_le.1 hle
  rw [exponent_of_mem_ratio hu, UInt32.toNat_sub_of_le _ _ hle]
  omega

end Ratio

variable [Add α] [Mul α] [Div α]

/-- No exponent of the multiple of the divisor is above that of `top`: the sums of exponents do not
wrap around. -/
theorem exponent_le_of_mem_mul_ratio {d : Poly α} {top lead x : Term α}
    (hd : d.leadingTerm? = some lead) (hle : lead.exponent ≤ top.exponent)
    (h : x ∈ (d * ratio top lead).terms) : x.exponent ≤ top.exponent := by
  obtain ⟨u, hu, t, ht, hx⟩ := exponent_of_mem_mul h
  have hsum := exponent_add_le_of_mem_ratio hd hle ht hu
  have hbound := top.exponent.toNat_lt
  rw [hx, UInt32.le_iff_toNat_le, UInt32.toNat_add]
  omega

variable [Neg α] [LawfulNegZero α]

/-- The remainder `r`, led by `top`, without its multiple of the divisor `d`, which is led by
`lead`. -/
def reduce (r d : Poly α) (top lead : Term α) : Poly α :=
  (r - d * ratio top lead).erase top.exponent

/-- A pass leaves no exponent that is not below the one it is meant to clear. -/
theorem exponent_lt_of_mem_reduce {r d : Poly α} {top lead x : Term α}
    (hr : r.leadingTerm? = some top) (hd : d.leadingTerm? = some lead)
    (hle : lead.exponent ≤ top.exponent) (h : x ∈ (reduce r d top lead).terms) :
    x.exponent < top.exponent := by
  obtain ⟨hx, hne⟩ := TermList.mem_erase.1 h
  have hxle : x.exponent ≤ top.exponent := by
    -- a term of the difference comes from the remainder or from the multiple of the divisor
    rcases TermList.exponent_of_mem_merge hx with ⟨t, ht, htx⟩ | ⟨t, ht, htx⟩
    · rw [← htx]; exact exponent_le_of_leadingTerm? hr ht
    · obtain ⟨u, hu, rfl⟩ := List.mem_map.1 ht
      rw [← htx, Term.exponent_neg]; exact exponent_le_of_mem_mul_ratio hd hle hu
  exact UInt32.lt_of_le_of_ne hxle hne

/-- Every pass lowers the leading exponent of the remainder. -/
theorem height_reduce_lt {r d : Poly α} {top lead : Term α} (hr : r.leadingTerm? = some top)
    (hd : d.leadingTerm? = some lead) (hle : lead.exponent ≤ top.exponent) :
    (reduce r d top lead).height < r.height := by
  rw [height_of_leadingTerm? hr]
  exact Nat.lt_succ_of_le (height_le fun _ hx => exponent_lt_of_mem_reduce hr hd hle hx)

/-- Long division of `r` by `d`, which is led by `lead`, on top of the quotient `q` found so far. -/
def divideFrom (d : Poly α) (lead : Term α) (hd : d.leadingTerm? = some lead) (q r : Poly α) :
    Division α :=
  match hr : r.leadingTerm? with
  | none => ⟨q, r⟩
  | some top =>
    if hlt : top.exponent < lead.exponent then ⟨q, r⟩
    else
      have : (reduce r d top lead).height < r.height :=
        height_reduce_lt hr hd (UInt32.not_lt.1 hlt)
      divideFrom d lead hd (q + ratio top lead) (reduce r d top lead)
termination_by r.height

/-- Quotient and remainder of `p` by `d`, unless `d` is zero. -/
def divide (p d : Poly α) : Except Fault (Division α) :=
  match hd : d.leadingTerm? with
  | none => .error .divisionByZero
  | some lead => .ok (divideFrom d lead hd 0 p)

/-! ## The passes of the loop -/

section Passes

variable {d : Poly α} {lead : Term α} {hd : d.leadingTerm? = some lead} {q r : Poly α}

/-- The division ends with a remainder that is zero. -/
theorem divideFrom_of_none (hr : r.leadingTerm? = none) : divideFrom d lead hd q r = ⟨q, r⟩ := by
  -- the equation of the loop carries a proof about the leading term, so its branches are taken by
  -- `split`
  rw [divideFrom]
  split
  · rfl
  · rename_i htop
    rw [hr] at htop
    cases htop

/-- The division ends with a remainder below the divisor. -/
theorem divideFrom_of_lt {top : Term α} (hr : r.leadingTerm? = some top)
    (hlt : top.exponent < lead.exponent) : divideFrom d lead hd q r = ⟨q, r⟩ := by
  rw [divideFrom]
  split
  · rfl
  · rename_i htop
    obtain rfl := Option.some.inj (hr.symm.trans htop)
    rw [dif_pos hlt]

/-- A dividend below the divisor is the remainder. -/
theorem divideFrom_of_degree_lt (hd : d.leadingTerm? = some lead)
    (h : ∀ e ∈ r.degree?, e < lead.exponent) : divideFrom d lead hd q r = ⟨q, r⟩ := by
  cases hr : r.leadingTerm? with
  | none => exact divideFrom_of_none hr
  | some top => exact divideFrom_of_lt hr (h _ (mem_degree?_iff.2 ⟨top, hr, rfl⟩))

/-- Otherwise there is another pass. -/
theorem divideFrom_of_not_lt {top : Term α} (hr : r.leadingTerm? = some top)
    (hlt : ¬ top.exponent < lead.exponent) :
    divideFrom d lead hd q r =
      divideFrom d lead hd (q + ratio top lead) (reduce r d top lead) := by
  rw [divideFrom]
  split
  · rename_i hnone
    rw [hr] at hnone
    cases hnone
  · rename_i htop
    obtain rfl := Option.some.inj (hr.symm.trans htop)
    rw [dif_neg hlt]

/-- The division ends below the divisor. -/
theorem degree_remainder_lt (hd : d.leadingTerm? = some lead) (q r : Poly α) :
    ∀ e ∈ (divideFrom d lead hd q r).remainder.degree?, e < lead.exponent := by
  -- on the passes: only the last one returns, and it has compared the degrees
  induction q, r using divideFrom.induct d lead hd with
  | case1 q r hr =>
    rw [divideFrom_of_none hr, degree?, hr]
    intro e he
    cases he
  | case2 q r top hr hlt =>
    rw [divideFrom_of_lt hr hlt, degree?, hr]
    intro e he
    cases he
    exact hlt
  | case3 q r top hr hlt _ ih =>
    rw [divideFrom_of_not_lt hr hlt]
    exact ih

/-- A divisor without a leading term is a fault, whatever the dividend is. -/
theorem divide_of_none (p : Poly α) (hd : d.leadingTerm? = none) :
    divide p d = .error .divisionByZero := by
  unfold divide
  split
  · rfl
  · rename_i hlead
    rw [hd] at hlead
    cases hlead

/-- With a leading term of the divisor the division is the loop, from nothing on. -/
theorem divide_of_leadingTerm? (p : Poly α) (hd : d.leadingTerm? = some lead) :
    divide p d = .ok (divideFrom d lead hd 0 p) := by
  unfold divide
  split
  · rename_i hnone
    rw [hd] at hnone
    cases hnone
  · rename_i hlead
    obtain rfl := Option.some.inj (hd.symm.trans hlead)
    rfl

end Passes

end SparsePoly.Poly
