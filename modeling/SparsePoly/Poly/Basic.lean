import SparsePoly.Poly.TermList

/-!
# Polynomials

A polynomial in one variable is its canonical list of terms (`Canonical`), with the term of the
lowest exponent first. The form is a field of the type, so each operation here establishes it for
its result and none has to check it.

The observations are `coefficient?`, `leadingTerm?` and `degree?`. Building goes term by term
(`addTerm`, `ofTerms`, `extend`); sums and differences join two lists of terms in one pass.
-/

universe u

namespace SparsePoly

/-- A polynomial in one variable, as the list of its terms. -/
@[ext] structure Poly (α : Type u) [Zero α] [BEq α] where
  /-- The terms by ascending exponent. -/
  terms : List (Term α)
  /-- The list is in canonical form. -/
  canonical : Canonical terms

namespace Poly

variable {α : Type u} [Zero α] [BEq α]

/-! ## Observations -/

/-- The number of terms. -/
def size (p : Poly α) : Nat := p.terms.length

/-- Whether the polynomial has no terms. -/
def isZero (p : Poly α) : Bool := p.terms.isEmpty

/-- The coefficient of `x ^ e`, or `none` if there is no such term. -/
def coefficient? (p : Poly α) (e : UInt32) : Option α := TermList.coefficient? e p.terms

/-- The coefficient of `x ^ e`, which is `0` if there is no such term. -/
def coefficient (p : Poly α) (e : UInt32) : α := (p.coefficient? e).getD 0

/-- The term of the highest exponent. -/
def leadingTerm? (p : Poly α) : Option (Term α) := p.terms.getLast?

/-- The highest exponent, or `none` for the zero polynomial. -/
def degree? (p : Poly α) : Option UInt32 := p.leadingTerm?.map (·.exponent)

/-- The highest exponent, or `0` for the zero polynomial, which is not told apart from a constant. -/
def highestExponent (p : Poly α) : UInt32 := p.degree?.getD 0

/-- Polynomials compare equal when their terms do, one by one. -/
instance : BEq (Poly α) where
  beq p q := p.terms == q.terms

/-! ## Building -/

/-- The polynomial without terms. -/
instance : Zero (Poly α) where
  zero := ⟨[], .nil⟩

/-- Adds one term. A coefficient that equals zero adds nothing, and a sum that equals zero takes the
term out. -/
def addTerm [Add α] (p : Poly α) (t : Term α) : Poly α :=
  ⟨TermList.add t p.terms, p.canonical.add t⟩

/-- Adds terms one after the other. -/
def extend [Add α] (p : Poly α) (ts : List (Term α)) : Poly α :=
  ts.foldl addTerm p

/-- The sum of some terms, added one after the other. -/
def ofTerms [Add α] (ts : List (Term α)) : Poly α :=
  extend 0 ts

/-- The polynomial with the single term `t`, or zero if its coefficient equals zero. -/
def monomial [Add α] (t : Term α) : Poly α :=
  addTerm 0 t

/-- The constant polynomial `1`. -/
instance [Add α] [One α] : One (Poly α) where
  one := monomial ⟨0, 1⟩

/-- Drops the term of exponent `e`. -/
def erase (p : Poly α) (e : UInt32) : Poly α :=
  ⟨TermList.erase e p.terms, p.canonical.erase e⟩

/-! ## Sums and differences -/

/-- The sum, in one pass over both lists of terms. -/
instance [Add α] : Add (Poly α) where
  add p q := ⟨TermList.merge p.terms q.terms, p.canonical.merge q.canonical⟩

/-- The polynomial with all coefficients negated. -/
instance [Neg α] [LawfulNegZero α] : Neg (Poly α) where
  neg p := ⟨p.terms.map (-·), p.canonical.neg⟩

/-- The difference, as the sum with the negated right operand. -/
instance [Add α] [Neg α] [LawfulNegZero α] : Sub (Poly α) where
  sub p q := p + -q

@[simp] theorem terms_zero : (0 : Poly α).terms = [] := rfl

@[simp] theorem terms_addTerm [Add α] (p : Poly α) (t : Term α) :
    (p.addTerm t).terms = TermList.add t p.terms := rfl

@[simp] theorem terms_add [Add α] (p q : Poly α) :
    (p + q).terms = TermList.merge p.terms q.terms := rfl

@[simp] theorem terms_neg [Neg α] [LawfulNegZero α] (p : Poly α) :
    (-p).terms = p.terms.map (-·) := rfl

@[simp] theorem terms_sub [Add α] [Neg α] [LawfulNegZero α] (p q : Poly α) :
    (p - q).terms = TermList.merge p.terms (q.terms.map (-·)) := rfl

@[simp] theorem terms_erase (p : Poly α) (e : UInt32) :
    (p.erase e).terms = TermList.erase e p.terms := rfl

@[simp] theorem extend_cons [Add α] (p : Poly α) (t : Term α) (ts : List (Term α)) :
    p.extend (t :: ts) = (p.addTerm t).extend ts := rfl

/-! ## Degree -/

/-- The leading term comes last, and all others have lower exponents. -/
theorem exists_terms_eq_append {p : Poly α} {top : Term α} (h : p.leadingTerm? = some top) :
    ∃ ts, p.terms = ts ++ [top] ∧ ∀ t ∈ ts, t.exponent < top.exponent := by
  obtain ⟨ts, hts⟩ := List.getLast?_eq_some_iff.1 h
  have hascending := p.canonical.ascending
  rw [hts, List.pairwise_append] at hascending
  exact ⟨ts, hts, fun t ht => hascending.2.2 t ht top (List.mem_singleton.2 rfl)⟩

/-- No exponent is above that of the leading term. -/
theorem exponent_le_of_leadingTerm? {p : Poly α} {top t : Term α} (h : p.leadingTerm? = some top)
    (ht : t ∈ p.terms) : t.exponent ≤ top.exponent := by
  obtain ⟨ts, hts, hbelow⟩ := exists_terms_eq_append h
  rw [hts, List.mem_append, List.mem_singleton] at ht
  rcases ht with ht | rfl
  · exact UInt32.le_of_lt (hbelow t ht)
  · exact UInt32.le_refl _

theorem leadingTerm?_mem {p : Poly α} {top : Term α} (h : p.leadingTerm? = some top) :
    top ∈ p.terms := List.mem_of_getLast? h

/-- A polynomial other than zero has a leading term. -/
theorem exists_leadingTerm? {p : Poly α} (hp : p ≠ 0) : ∃ top, p.leadingTerm? = some top := by
  rw [← Option.isSome_iff_exists, leadingTerm?, List.getLast?_isSome]
  exact fun hnil => hp (Poly.ext hnil)

/-- A polynomial with a leading term is not zero. -/
theorem ne_zero_of_leadingTerm? {p : Poly α} {top : Term α} (h : p.leadingTerm? = some top) : p ≠ 0 := by
  rintro rfl
  cases h

/-- The degree is the exponent of the leading term, and there is none without it. -/
theorem mem_degree?_iff {p : Poly α} {d : UInt32} :
    d ∈ p.degree? ↔ ∃ top, p.leadingTerm? = some top ∧ top.exponent = d :=
  Option.map_eq_some_iff

/-- The degree is an exponent that occurs. -/
theorem exists_mem_of_mem_degree? {p : Poly α} {d : UInt32} (hd : d ∈ p.degree?) :
    ∃ t ∈ p.terms, t.exponent = d := by
  obtain ⟨top, htop, rfl⟩ := mem_degree?_iff.1 hd
  exact ⟨top, leadingTerm?_mem htop, rfl⟩

/-- A polynomial with a term has a degree, and the degree is not below the exponent of the term. -/
theorem exists_mem_degree?_of_mem {p : Poly α} {t : Term α} (ht : t ∈ p.terms) :
    ∃ d ∈ p.degree?, t.exponent ≤ d := by
  obtain ⟨top, htop⟩ : ∃ top, p.leadingTerm? = some top :=
    Option.isSome_iff_exists.1 (List.getLast?_isSome.2 (List.ne_nil_of_mem ht))
  exact ⟨top.exponent, mem_degree?_iff.2 ⟨top, htop, rfl⟩, exponent_le_of_leadingTerm? htop ht⟩

/-- The leading term is the term with the highest exponent. -/
theorem leadingTerm?_eq_some {p : Poly α} {t : Term α} (ht : t ∈ p.terms)
    (hle : ∀ u ∈ p.terms, u.exponent ≤ t.exponent) : p.leadingTerm? = some t := by
  cases htop : p.leadingTerm? with
  | none => exact absurd (List.getLast?_eq_none_iff.1 htop) (List.ne_nil_of_mem ht)
  | some top =>
    obtain ⟨ts, hts, hbelow⟩ := exists_terms_eq_append htop
    rw [hts, List.mem_append, List.mem_singleton] at ht
    rcases ht with ht | rfl
    · -- a term before the last one has a lower exponent
      exact absurd (hle top (leadingTerm?_mem htop)) (UInt32.not_le.2 (hbelow t ht))
    · rfl

/-- One more than the highest exponent, and `0` for the zero polynomial: a measure that falls
whenever the degree does. -/
def height (p : Poly α) : Nat :=
  match p.leadingTerm? with
  | none => 0
  | some top => top.exponent.toNat + 1

/-- A polynomial with a leading term is as high as its exponent tells. -/
theorem height_of_leadingTerm? {p : Poly α} {top : Term α} (h : p.leadingTerm? = some top) :
    p.height = top.exponent.toNat + 1 := by
  simp [height, h]

/-- A polynomial whose exponents are all below `e` has at most the height `e`. -/
theorem height_le {p : Poly α} {e : UInt32} (h : ∀ t ∈ p.terms, t.exponent < e) :
    p.height ≤ e.toNat := by
  unfold height
  split
  · omega
  · rename_i top htop
    exact UInt32.lt_iff_toNat_lt.1 (h top (leadingTerm?_mem htop))

end Poly

end SparsePoly
