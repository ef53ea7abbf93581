import Mathlib.Data.List.Forall2
import SparsePoly.Poly.Coefficient
import SparsePoly.Poly.Division

/-!
# Two runs in step

The same operation on polynomials over two types of coefficients takes the same branches, as long as
the coefficients that it comes upon are related and the relation tells zeros from other numbers. So the
results have terms of the same exponents with related coefficients (`Poly.Related`).

The arithmetic of the first type need not follow that of the second without limit (`Tracks`): sums and
products are related if that of the second type is in a certain range. What has to be in range for a
sum, a product or a division is stated about the run over the second type alone (`SumInRange`,
`ProductInRange`, `DivisionInRange`).

* `related_iff`: polynomials are related if their coefficients are, exponent by exponent.
* `Related.add`, `Related.sub`, `Related.mul`: sums, differences and products stay in step.
* `Related.reduce`, `Related.divideFrom`: so does each pass of a division, and the whole division.
* `exists_related`, `Related.unique`: what is related to a polynomial.
-/

universe u v

namespace SparsePoly

variable {α : Type u} {β : Type v}

/-- Terms of equal exponents with related coefficients. -/
structure Term.Related (R : α → β → Prop) (t : Term α) (t' : Term β) : Prop where
  /-- The exponents are equal. -/
  exponent : t.exponent = t'.exponent
  /-- The coefficients are related. -/
  coefficient : R t.coefficient t'.coefficient

namespace TermList

variable {R : α → β → Prop} {ts : List (Term α)} {ts' : List (Term β)}

/-- Related lists have related coefficients at every exponent, or none on both sides. -/
theorem rel_coefficient? (h : List.Forall₂ (Term.Related R) ts ts') (e : UInt32) :
    Option.Rel R (coefficient? e ts) (coefficient? e ts') := by
  induction h with
  | nil => exact .none
  | cons ht _ ih =>
    rw [coefficient?_cons, coefficient?_cons, ht.exponent]
    split
    · exact .some ht.coefficient
    · exact ih

/-- Lists with ascending exponents are related if their coefficients are. -/
theorem forall₂_of_coefficient? (hts : ts.Pairwise fun t u => t.exponent < u.exponent)
    (hts' : ts'.Pairwise fun t u => t.exponent < u.exponent)
    (h : ∀ e, Option.Rel R (coefficient? e ts) (coefficient? e ts')) :
    List.Forall₂ (Term.Related R) ts ts' := by
  -- on both lists: the first terms are seen at their own exponents, and the others at all other
  -- exponents
  induction ts generalizing ts' with
  | nil =>
    match ts' with
    | [] => exact .nil
    | t' :: ts' =>
      have ht' := h t'.exponent
      rw [coefficient?_of_mem hts' List.mem_cons_self] at ht'
      cases ht'
  | cons t ts ih =>
    have ht := h t.exponent
    rw [coefficient?_of_mem hts List.mem_cons_self] at ht
    match ts' with
    | [] => cases ht
    | t' :: ts' =>
      have ht' := h t'.exponent
      rw [coefficient?_of_mem hts' List.mem_cons_self] at ht'
      -- neither of the first exponents is below the other, as nothing on the other side is there
      have hexponent : t.exponent = t'.exponent := by
        apply exponent_eq_of_not_lt
        · intro hlt
          rw [coefficient?_eq_none_of_lt] at ht
          · cases ht
          · intro u hu
            rcases List.mem_cons.1 hu with rfl | hu
            · exact hlt
            · exact UInt32.lt_trans hlt ((List.pairwise_cons.1 hts').1 u hu)
        · intro hlt
          rw [coefficient?_eq_none_of_lt] at ht'
          · cases ht'
          · intro u hu
            rcases List.mem_cons.1 hu with rfl | hu
            · exact hlt
            · exact UInt32.lt_trans hlt ((List.pairwise_cons.1 hts).1 u hu)
      rw [List.pairwise_cons] at hts hts'
      rw [coefficient?_cons, if_pos hexponent.symm, Option.rel_some_some] at ht
      refine .cons ⟨hexponent, ht⟩ (ih hts.2 hts'.2 fun e => ?_)
      have he := h e
      rw [coefficient?_cons, coefficient?_cons, ← hexponent] at he
      by_cases hte : t.exponent = e
      · rw [coefficient?_eq_none_of_lt fun u hu => hte ▸ hts.1 u hu,
          coefficient?_eq_none_of_lt fun u hu => hte ▸ hexponent ▸ hts'.1 u hu]
        exact .none
      · rwa [if_neg hte, if_neg hte] at he

end TermList

/-! ## Coefficients -/

section Tracks

variable [Zero α] [BEq α] [Add α] [Mul α] [Neg α] [Zero β] [BEq β] [Add β] [Mul β] [Neg β]

/-- The arithmetic of the first type keeps to that of the second on related numbers, where a sum or a
product is in range. -/
structure Tracks (R : α → β → Prop) (InRange : β → Prop) : Prop where
  /-- Related numbers equal zero, or both do not. -/
  beq_zero {c : α} {c' : β} (hc : R c c') : (c == 0) = (c' == 0)
  /-- Negations are related. -/
  neg {c : α} {c' : β} (hc : R c c') : R (-c) (-c')
  /-- Sums in range are related. -/
  add {c d : α} {c' d' : β} (hc : R c c') (hd : R d d') (h : InRange (c' + d')) :
    R (c + d) (c' + d')
  /-- Products in range are related. -/
  mul {c d : α} {c' d' : β} (hc : R c c') (hd : R d d') (h : InRange (c' * d')) :
    R (c * d) (c' * d')

namespace Tracks

variable {R : α → β → Prop} {InRange : β → Prop}

/-- Related numbers are both dropped or both kept. -/
theorem rel_nonzero? (H : Tracks R InRange) {c : α} {c' : β} (hc : R c c') :
    Option.Rel R (nonzero? c) (nonzero? c') := by
  rw [nonzero?, nonzero?, H.beq_zero hc]
  split
  · exact .none
  · exact .some hc

/-- Adding to what has accumulated stays in step, as long as the sum that is formed is in range. -/
theorem rel_accumulate (H : Tracks R InRange) {sum? : Option α} {sum?' : Option β} {c : α} {c' : β}
    (hsum : Option.Rel R sum? sum?') (hc : R c c') (h : ∀ d' ∈ sum?', InRange (d' + c')) :
    Option.Rel R (accumulate sum? c) (accumulate sum?' c') := by
  unfold accumulate
  -- the numbers to add are both zero, and skipped, or both are added
  rw [H.beq_zero hc]
  split
  · exact hsum
  · cases hsum with
    | none => exact .some hc
    | some hd => exact H.rel_nonzero? (H.add hd hc (h _ rfl))

/-- Sums of coefficients stay in step, each of them there or not, as long as the sum is in range. -/
theorem rel_sumNonzero (H : Tracks R InRange) {c? d? : Option α} {c?' d?' : Option β}
    (hc : Option.Rel R c? c?') (hd : Option.Rel R d? d?')
    (h : ∀ c' ∈ c?', ∀ d' ∈ d?', InRange (c' + d')) :
    Option.Rel R (sumNonzero c? d?) (sumNonzero c?' d?') := by
  cases hc with
  | none => exact hd
  | some hc =>
    cases hd with
    | none => exact .some hc
    | some hd => exact H.rel_nonzero? (H.add hc hd (h _ rfl _ rfl))

/-- Negations of coefficients that are there or not stay in step. -/
theorem rel_map_neg (H : Tracks R InRange) {c? : Option α} {c?' : Option β}
    (hc : Option.Rel R c? c?') : Option.Rel R (c?.map (-·)) (c?'.map (-·)) := by
  cases hc with
  | none => exact .none
  | some hc => exact .some (H.neg hc)

end Tracks

end Tracks

namespace Poly

/-! ## Related polynomials -/

section Related

variable [Zero α] [BEq α] [Zero β] [BEq β] {R : α → β → Prop} {p : Poly α} {p' : Poly β}

/-- The terms are related one by one. -/
def Related (R : α → β → Prop) (p : Poly α) (p' : Poly β) : Prop :=
  List.Forall₂ (Term.Related R) p.terms p'.terms

/-- Polynomials are related if their coefficients are, exponent by exponent. -/
theorem related_iff : Related R p p' ↔ ∀ e, Option.Rel R (p.coefficient? e) (p'.coefficient? e) :=
  ⟨TermList.rel_coefficient?,
    TermList.forall₂_of_coefficient? p.canonical.ascending p'.canonical.ascending⟩

theorem related_zero : Related R (0 : Poly α) (0 : Poly β) := List.Forall₂.nil

theorem Related.flip (h : Related R p p') : Related (fun c' c => R c c') p' p :=
  List.Forall₂.flip (h.imp fun _ _ ht => ⟨ht.exponent.symm, ht.coefficient⟩)

/-- Related polynomials have related leading terms, or none on both sides. -/
theorem Related.leadingTerm? (h : Related R p p') :
    Option.Rel (Term.Related R) p.leadingTerm? p'.leadingTerm? := by
  have hreverse := List.forall₂_reverse_iff.2 h
  rw [Poly.leadingTerm?, Poly.leadingTerm?, List.getLast?_eq_head?_reverse,
    List.getLast?_eq_head?_reverse]
  generalize p.terms.reverse = ts at hreverse ⊢
  generalize p'.terms.reverse = ts' at hreverse ⊢
  cases hreverse with
  | nil => exact .none
  | cons ht _ => exact .some ht

/-- A leading term on the right has a related one on the left. -/
theorem Related.leadingTerm?_left (h : Related R p p') {top' : Term β}
    (htop' : p'.leadingTerm? = some top') :
    ∃ top, p.leadingTerm? = some top ∧ Term.Related R top top' := by
  have hrel := h.leadingTerm?
  rw [htop'] at hrel
  generalize p.leadingTerm? = top? at hrel
  cases hrel with
  | some htop => exact ⟨_, rfl, htop⟩

/-- A leading term on the left has a related one on the right. -/
theorem Related.leadingTerm?_right (h : Related R p p') {top : Term α}
    (htop : p.leadingTerm? = some top) :
    ∃ top', p'.leadingTerm? = some top' ∧ Term.Related R top top' := by
  obtain ⟨top', htop', hrel⟩ := h.flip.leadingTerm?_left htop
  exact ⟨top', htop', hrel.exponent.symm, hrel.coefficient⟩

/-- Related polynomials have the same degree. -/
theorem Related.degree?_eq (h : Related R p p') : p.degree? = p'.degree? := by
  have hrel := h.leadingTerm?
  unfold degree?
  generalize p.leadingTerm? = top? at hrel
  generalize p'.leadingTerm? = top?' at hrel
  cases hrel with
  | none => rfl
  | some htop => exact congrArg some htop.exponent

/-- Dropping the terms of an exponent on both sides stays in step. -/
theorem Related.erase (hp : Related R p p') (e : UInt32) : Related R (p.erase e) (p'.erase e) := by
  rw [related_iff] at hp ⊢
  intro d
  rw [coefficient?_erase, coefficient?_erase]
  split
  · exact .none
  · exact hp d

/-- The products of terms come in the same order on both sides. -/
theorem Related.termPairs {q : Poly α} {q' : Poly β} (hp : Related R p p')
    (hq : Related R q q') :
    List.Forall₂ (fun (u, t) (u', t') => Term.Related R u u' ∧ Term.Related R t t')
      (termPairs p q) (termPairs p' q') := by
  refine List.rel_flatMap hq fun u u' hu => ?_
  rw [List.forall₂_map_left_iff, List.forall₂_map_right_iff]
  exact hp.imp fun t t' ht => ⟨hu, ht⟩

/-- There is one polynomial at most that is related to another, if a number other than zero has one
related number at most. -/
theorem Related.unique {q : Poly α}
    (hR : ∀ {c d : α} {c' : β}, (c' == 0) = false → R c c' → R d c' → c = d) (hp : Related R p p')
    (hq : Related R q p') : p = q := by
  apply ext_coefficient?
  intro e
  have hpe := related_iff.1 hp e
  have hqe := related_iff.1 hq e
  -- the coefficients of terms are not zero, so uniqueness is only asked of such numbers
  have hnonzero : ∀ c' ∈ p'.coefficient? e, (c' == 0) = false := fun c' hc' =>
    p'.canonical.nonzero _ (TermList.mem_of_coefficient? hc')
  generalize p.coefficient? e = c? at hpe ⊢
  generalize q.coefficient? e = d? at hqe ⊢
  generalize p'.coefficient? e = c?' at hpe hqe hnonzero
  cases hpe with
  | none =>
    cases hqe with
    | none => rfl
  | some hc =>
    cases hqe with
    | some hd => exact congrArg some (hR (hnonzero _ rfl) hc hd)

/-- If each coefficient is related to something, then so is the polynomial. -/
theorem exists_related (hzero : ∀ {c : α} {c' : β}, R c c' → (c == 0) = (c' == 0))
    (h : ∀ t ∈ p.terms, ∃ c', R t.coefficient c') : ∃ p' : Poly β, Related R p p' := by
  have htotal : ∀ t : Term α, ∃ c', t ∈ p.terms → R t.coefficient c' := by
    intro t
    by_cases ht : t ∈ p.terms
    · exact (h t ht).imp fun _ hc _ => hc
    · exact ⟨0, fun ht' => absurd ht' ht⟩
  -- one related number for each term, taken exponent by exponent, which leaves the order as it is
  choose f hf using htotal
  refine ⟨⟨p.terms.map fun t => ⟨t.exponent, f t⟩, ?_, fun u hu => ?_⟩, ?_⟩
  · exact List.pairwise_map.2 p.canonical.ascending
  · obtain ⟨t, ht, rfl⟩ := List.mem_map.1 hu
    exact (hzero (hf t ht)).symm.trans (p.canonical.nonzero t ht)
  · exact List.forall₂_map_right_iff.2 (List.forall₂_same.2 fun t ht => ⟨rfl, hf t ht⟩)

end Related

/-! ## Sums and products -/

section Operations

variable [Zero β] [BEq β] [Add β] {InRange : β → Prop}

/-- All sums of two coefficients that go into a sum of polynomials are in range. -/
def SumInRange (InRange : β → Prop) (p q : Poly β) : Prop :=
  ∀ t ∈ p.terms, ∀ u ∈ q.terms, t.exponent = u.exponent → InRange (t.coefficient + u.coefficient)

/-- The coefficients of some terms, and the sums that they give as they are added to a polynomial one
after the other, are in range. -/
def ExtendInRange (InRange : β → Prop) (p : Poly β) : List (Term β) → Prop
  | [] => True
  | t :: ts =>
    InRange t.coefficient ∧
      (∀ u ∈ p.terms, u.exponent = t.exponent → InRange (u.coefficient + t.coefficient)) ∧
      ExtendInRange InRange (p.addTerm t) ts

/-- All products and partial sums of coefficients that go into a product of polynomials are in range. -/
def ProductInRange [Mul β] (InRange : β → Prop) (p q : Poly β) : Prop :=
  ExtendInRange InRange 0 ((termPairs p q).map fun (u, t) => u * t)

section Decidable

variable [DecidablePred InRange]

instance (p q : Poly β) : Decidable (SumInRange InRange p q) :=
  inferInstanceAs (Decidable (∀ t ∈ p.terms, ∀ u ∈ q.terms, t.exponent = u.exponent →
    InRange (t.coefficient + u.coefficient)))

instance decidableExtendInRange (p : Poly β) : ∀ ts, Decidable (ExtendInRange InRange p ts)
  | [] => .isTrue trivial
  | t :: ts =>
    have := decidableExtendInRange (p.addTerm t) ts
    inferInstanceAs (Decidable (InRange t.coefficient ∧
      (∀ u ∈ p.terms, u.exponent = t.exponent → InRange (u.coefficient + t.coefficient)) ∧
      ExtendInRange InRange (p.addTerm t) ts))

instance [Mul β] (p q : Poly β) : Decidable (ProductInRange InRange p q) :=
  decidableExtendInRange 0 _

end Decidable

/-- Terms that are added within range have coefficients in range. -/
theorem ExtendInRange.inRange {p : Poly β} {ts : List (Term β)} (h : ExtendInRange InRange p ts) :
    ∀ t ∈ ts, InRange t.coefficient := by
  induction ts generalizing p with
  | nil => exact fun t ht => nomatch ht
  | cons t ts ih => exact List.forall_mem_cons.2 ⟨h.1, ih h.2.2⟩

/-- Where nothing is out of range, no sum is. -/
theorem sumInRange (h : ∀ c, InRange c) (p q : Poly β) : SumInRange InRange p q :=
  fun _ _ _ _ _ => h _

/-- Where nothing is out of range, no terms are as they are added. -/
theorem extendInRange (h : ∀ c, InRange c) (p : Poly β) (ts : List (Term β)) :
    ExtendInRange InRange p ts := by
  induction ts generalizing p with
  | nil => exact trivial
  | cons t ts ih => exact ⟨h _, fun _ _ _ => h _, ih _⟩

/-- Where nothing is out of range, no product is. -/
theorem productInRange [Mul β] (h : ∀ c, InRange c) (p q : Poly β) : ProductInRange InRange p q :=
  extendInRange h 0 _

variable [Mul β] [Neg β] [Zero α] [BEq α] [Add α] [Mul α] [Neg α]
variable {R : α → β → Prop} {p q : Poly α} {p' q' : Poly β}

/-- Sums stay in step if they are within range. -/
theorem Related.add (H : Tracks R InRange) (hp : Related R p p') (hq : Related R q q')
    (h : SumInRange InRange p' q') : Related R (p + q) (p' + q') := by
  rw [related_iff] at hp hq ⊢
  intro e
  rw [coefficient?_add, coefficient?_add]
  exact H.rel_sumNonzero (hp e) (hq e) fun c hc d hd =>
    h _ (TermList.mem_of_coefficient? hc) _ (TermList.mem_of_coefficient? hd) rfl

/-- Negations stay in step. -/
theorem Related.neg [LawfulNegZero α] [LawfulNegZero β] (H : Tracks R InRange)
    (hp : Related R p p') : Related R (-p) (-p') := by
  rw [related_iff] at hp ⊢
  intro e
  rw [coefficient?_neg, coefficient?_neg]
  exact H.rel_map_neg (hp e)

/-- Differences stay in step if they are within range. -/
theorem Related.sub [LawfulNegZero α] [LawfulNegZero β] (H : Tracks R InRange)
    (hp : Related R p p') (hq : Related R q q') (h : SumInRange InRange p' (-q')) :
    Related R (p - q) (p' - q') :=
  hp.add H (hq.neg H) h

/-- Adding related terms stays in step if the sum at their exponent is in range. -/
theorem Related.addTerm (H : Tracks R InRange) (hp : Related R p p') {t : Term α} {t' : Term β}
    (ht : Term.Related R t t')
    (h : ∀ u ∈ p'.terms, u.exponent = t'.exponent → InRange (u.coefficient + t'.coefficient)) :
    Related R (p.addTerm t) (p'.addTerm t') := by
  rw [related_iff] at hp ⊢
  intro e
  rw [coefficient?_addTerm, coefficient?_addTerm, ht.exponent]
  split
  · rename_i he
    exact H.rel_accumulate (hp e) ht.coefficient fun c hc =>
      h _ (TermList.mem_of_coefficient? hc) he.symm
  · exact hp e

/-- Adding related terms one after the other stays in step if each sum on the way is in range. -/
theorem Related.extend (H : Tracks R InRange) (hp : Related R p p') {ts : List (Term α)}
    {ts' : List (Term β)} (hts : List.Forall₂ (Term.Related R) ts ts')
    (h : ExtendInRange InRange p' ts') : Related R (p.extend ts) (p'.extend ts') := by
  -- on the terms: the range is asked of the run on the right as it goes along
  induction hts generalizing p p' with
  | nil => exact hp
  | cons ht _ ih => exact ih (hp.addTerm H ht h.2.1) h.2.2

/-- Products stay in step if the products of terms and their partial sums are in range. -/
theorem Related.mul (H : Tracks R InRange) (hp : Related R p p') (hq : Related R q q')
    (h : ProductInRange InRange p' q') : Related R (p * q) (p' * q') := by
  refine related_zero.extend H ?_ h
  have hrange := h.inRange
  rw [List.forall_mem_map] at hrange
  rw [List.forall₂_map_left_iff, List.forall₂_map_right_iff]
  -- the products of terms come in the same order, so they can be related one by one
  have hpairs := (List.forall₂_and_left _ _).2 ⟨hrange, (hp.termPairs hq).flip⟩
  refine List.Forall₂.flip (hpairs.imp ?_)
  rintro ⟨u', t'⟩ ⟨u, t⟩ ⟨hfit, hu, ht⟩
  refine ⟨?_, H.mul hu.coefficient ht.coefficient hfit⟩
  rw [Term.exponent_mul, Term.exponent_mul, hu.exponent, ht.exponent]

end Operations

/-! ## Divisions -/

section Range

variable [Zero β] [BEq β] [Add β] [Div β] {InRange : β → Prop} {d q r : Poly β} {lead top : Term β}

/-- What there is of the quotient gives multiples of the divisor whose degrees are above that of the
remainder. -/
def Above (lead : Term β) (q r : Poly β) : Prop :=
  ∀ t ∈ q.terms, ∀ u ∈ r.terms, u.exponent.toNat < t.exponent.toNat + lead.exponent.toNat

omit [Add β] [Div β] in
/-- A quotient without terms is above every remainder. -/
theorem above_zero (lead : Term β) (r : Poly β) : Above lead 0 r := fun _ ht => nomatch ht

/-- No coefficient of the quotient is a sum: the exponent of the ratio is new. -/
theorem Above.sumInRange (h : Above lead q r) (htop : r.leadingTerm? = some top)
    (hle : lead.exponent ≤ top.exponent) : SumInRange InRange q (ratio top lead) := by
  intro t ht u hu he
  have hlt := h t ht top (leadingTerm?_mem htop)
  have hle' := UInt32.le_iff_toNat_le.1 hle
  rw [he, exponent_of_mem_ratio hu, UInt32.toNat_sub_of_le _ _ hle] at hlt
  omega

variable [Mul β] [Neg β] [LawfulNegZero β]

/-- A pass keeps the quotient above the remainder: the ratio brings the multiple of the degree that
the remainder loses. -/
theorem Above.pass (h : Above lead q r) (hd : d.leadingTerm? = some lead)
    (htop : r.leadingTerm? = some top) (hle : lead.exponent ≤ top.exponent) :
    Above lead (q + ratio top lead) (reduce r d top lead) := by
  intro t ht u hu
  have hfall := UInt32.lt_iff_toNat_lt.1 (exponent_lt_of_mem_reduce htop hd hle hu)
  -- a term of the new quotient has the exponent of an old one, or that of the ratio
  rcases TermList.exponent_of_mem_merge ht with ⟨v, hv, hvt⟩ | ⟨v, hv, hvt⟩
  · rw [← hvt]
    exact Nat.lt_trans hfall (h v hv top (leadingTerm?_mem htop))
  · have hle' := UInt32.le_iff_toNat_le.1 hle
    rw [← hvt, exponent_of_mem_ratio hv, UInt32.toNat_sub_of_le _ _ hle]
    omega

/-- In every pass of a division of `r` by `d`, which is led by `lead`, the multiple of the divisor and the
difference to it are formed within range. -/
inductive DivisionInRange (InRange : β → Prop) (d : Poly β) (lead : Term β) : Poly β → Prop where
  /-- There is no further pass. -/
  | stop {r : Poly β} (h : ∀ e ∈ r.degree?, e < lead.exponent) : DivisionInRange InRange d lead r
  /-- This pass is within range, and so is what follows. -/
  | pass {r : Poly β} {top : Term β} (htop : r.leadingTerm? = some top)
    (hle : lead.exponent ≤ top.exponent) (hmul : ProductInRange InRange d (ratio top lead))
    (hsub : SumInRange InRange r (-(d * ratio top lead)))
    (hnext : DivisionInRange InRange d lead (reduce r d top lead)) :
    DivisionInRange InRange d lead r

/-- Where nothing is out of range, no division is. -/
theorem divisionInRange (h : ∀ c, InRange c) (hd : d.leadingTerm? = some lead) (q r : Poly β) :
    DivisionInRange InRange d lead r := by
  induction q, r using divideFrom.induct d lead hd with
  | case1 q r hnone =>
    refine .stop fun e he => ?_
    rw [degree?, hnone] at he
    cases he
  | case2 q r top htop hlt =>
    refine .stop fun e he => ?_
    rw [degree?, htop] at he
    cases he
    exact hlt
  | case3 q r top htop hlt _ ih =>
    exact .pass htop (UInt32.not_lt.1 hlt) (productInRange h _ _) (sumInRange h _ _) ih

end Range

section Division

variable [Zero α] [BEq α] [Add α] [Mul α] [Div α] [Neg α]
variable [Zero β] [BEq β] [Add β] [Mul β] [Div β] [Neg β]
variable {R : α → β → Prop} {InRange : β → Prop} {d q r : Poly α} {d' q' r' : Poly β}
variable {lead top : Term α} {lead' top' : Term β}

/-- Ratios of related terms are related if the quotients of their coefficients are. -/
theorem related_ratio (H : Tracks R InRange)
    (hdiv : ∀ {c : α} {c' : β}, R c c' → R (c / lead.coefficient) (c' / lead'.coefficient))
    (hlead : lead.exponent = lead'.exponent) (htop : Term.Related R top top') :
    Related R (ratio top lead) (ratio top' lead') := by
  refine related_zero.addTerm H ⟨?_, hdiv htop.coefficient⟩ fun u hu => nomatch hu
  rw [hlead, htop.exponent]

variable [LawfulNegZero α] [LawfulNegZero β]

/-- A pass stays in step if it is within range. -/
theorem Related.reduce (H : Tracks R InRange) (hr : Related R r r') (hd : Related R d d')
    (hratio : Related R (ratio top lead) (ratio top' lead')) (htop : top.exponent = top'.exponent)
    (hmul : ProductInRange InRange d' (ratio top' lead'))
    (hsub : SumInRange InRange r' (-(d' * ratio top' lead'))) :
    Related R (reduce r d top lead) (reduce r' d' top' lead') := by
  unfold Poly.reduce
  rw [htop]
  exact (hr.sub H (hd.mul H hratio hmul) hsub).erase _

/-- Two divisions have related quotients and related remainders. -/
structure Division.Related (R : α → β → Prop) (v : Division α) (v' : Division β) : Prop where
  /-- The quotients are related. -/
  quotient : Poly.Related R v.quotient v'.quotient
  /-- The remainders are related. -/
  remainder : Poly.Related R v.remainder v'.remainder

/-- A division stays in step if it is within range. -/
theorem Related.divideFrom (H : Tracks R InRange)
    (hdiv : ∀ {c : α} {c' : β}, R c c' → R (c / lead.coefficient) (c' / lead'.coefficient))
    (hd : Related R d d') (hlead : d.leadingTerm? = some lead) (hlead' : d'.leadingTerm? = some lead')
    (hrange : DivisionInRange InRange d' lead' r') (habove : Above lead' q' r') (hq : Related R q q')
    (hr : Related R r r') :
    Division.Related R (divideFrom d lead hlead q r) (divideFrom d' lead' hlead' q' r') := by
  have hexponent : lead.exponent = lead'.exponent := by
    obtain ⟨lead₁, hlead₁, hrel⟩ := hd.leadingTerm?_left hlead'
    obtain rfl := Option.some.inj (hlead.symm.trans hlead₁)
    exact hrel.exponent
  -- on the passes: each of them finds related quotients and remainders, and leaves such
  induction hrange generalizing q r q' with
  | stop hstop =>
    have hstop' := hstop
    rw [← hr.degree?_eq, ← hexponent] at hstop'
    rw [divideFrom_of_degree_lt hlead hstop', divideFrom_of_degree_lt hlead' hstop]
    exact ⟨hq, hr⟩
  | pass htop' hle hmul hsub _ ih =>
    obtain ⟨top, htop, hrel⟩ := hr.leadingTerm?_left htop'
    have hratio := related_ratio H hdiv hexponent hrel
    have hlt : ¬ top.exponent < lead.exponent := by
      rw [hrel.exponent, hexponent]
      exact UInt32.not_lt.2 hle
    rw [divideFrom_of_not_lt htop hlt, divideFrom_of_not_lt htop' (UInt32.not_lt.2 hle)]
    exact ih (habove.pass hlead' htop' hle) (hq.add H hratio (habove.sumInRange htop' hle))
      (hr.reduce H hd hratio hrel.exponent hmul hsub)

end Division

end Poly

end SparsePoly
