import SparsePoly.Proofs.Binary64.Integer
import SparsePoly.Proofs.Reading.RoundTrip

/-!
# What is written stands for one polynomial

Terms are written one behind the other, with nothing between them but a sign, and the reading of a row ends
at a coefficient that is not finite. Even so, different polynomials have different texts.

`readWritten` goes further than the reading does. It takes a term of finite coefficient as `readTerm` does,
and otherwise goes by the letters. So it takes every term back from the front of what is written, and the
rest with it (`readWritten_append`). Both sides of an equation between rows can therefore be taken apart
term by term (`eq_of_flatMap_laterText_eq`).

* `render_injective`: equal texts are those of one polynomial.
* `beq_iff`: comparison for equality says the same, unless there is a NaN.
* `render_eq_render_iff`: both, with coefficients compared one by one.
-/

namespace SparsePoly

open Binary64

/-! ## Coefficients -/

namespace Binary64

/-- Apart from zeros, what compares equal is the same, and only NaN does not compare equal to itself. -/
theorem beq_iff_of_ne_zero {x y : Float} (hx : (x == 0) = false) :
    (x == y) = true ↔ x = y ∧ x.isNaN = false := by
  change x.toModel.unpack.beq y.toModel.unpack = true ↔ x = y ∧ x.toModel.unpack.isNaN = false
  change x.toModel.unpack.beq (.zero .positive) = false at hx
  rw [unpacked_beq_iff]
  constructor
  · rintro (⟨s, s', hzero, -⟩ | ⟨hxy, hnan⟩)
    · rw [hzero] at hx
      cases hx
    · refine ⟨?_, ?_⟩
      · rw [← ofModel_pack_unpack x, hxy, ofModel_pack_unpack]
      · cases hu : x.toModel.unpack with
        | notANumber => exact absurd hu hnan
        | infinity s => rfl
        | zero s => rfl
        | finite s m e hm => rfl
  · rintro ⟨rfl, hnan⟩
    refine Or.inr ⟨rfl, fun hu => ?_⟩
    rw [hu] at hnan
    cases hnan

end Binary64

namespace Reading

/-! ## A reader for everything that is written -/

/-- The coefficient that letters stand for behind a sign, with what is left behind them. -/
def letters? (negative : Bool) : List Char → Option (Float × List Char)
  | 'N' :: 'a' :: 'N' :: cs => some (0 / 0, cs)
  | 'i' :: 'n' :: 'f' :: cs => some (ofWord negative infinityWord, cs)
  | _ => none

/-- The exponent behind letters, with what is left behind it. -/
def exponentBehindLetters : List Char → Except (FaultKind × List Char) (UInt32 × List Char)
  | '*' :: cs => readExponent cs
  | cs => .ok (0, cs)

/-- A term whose coefficient is in letters, with what is left behind it. -/
def letterTerm? (negative : Bool) (cs : List Char) : Option (Term Float × List Char) := do
  let (coefficient, behind) ← letters? negative cs
  let (exponent, rest) ← (exponentBehindLetters behind).toOption
  return (⟨exponent, coefficient⟩, rest)

/-- The same, with the sign in front. -/
def signedLetterTerm? : List Char → Option (Term Float × List Char)
  | '+' :: cs => letterTerm? false cs
  | '-' :: cs => letterTerm? true cs
  | cs => letterTerm? false cs

/-- A term with what is left behind it, also if its coefficient is in letters. -/
def readWritten (cs : List Char) : Option (Term Float × List Char) :=
  match readTerm cs with
  | .ok found => some found
  | .error _ => signedLetterTerm? cs

/-- Behind letters, the exponent is read as it was written. -/
theorem exponentBehindLetters_append (e : UInt32) {rest : List Char} (hrest : atBoundary rest = true) :
    exponentBehindLetters (((if e = 0 then [] else ['*']) ++ Term.powerText e) ++ rest) = .ok (e, rest) := by
  by_cases he : e = 0
  · subst he
    have hstar := head?_ne_of_atBoundary hrest (c := '*') rfl
    rw [if_pos rfl, Term.powerText, if_pos rfl, List.append_nil, List.nil_append]
    unfold exponentBehindLetters
    split
    · simp at hstar
    · rfl
  · rw [if_neg he]
    exact readExponent_append (variableText_powerText he) hrest

/-- Letters are read as the coefficient that they were written for. -/
theorem letters?_append {t : Term Float} (h0 : (t.coefficient == 0) = false)
    (hfin : ¬ t.coefficient.isFinite = true) (rest : List Char) :
    letters? t.isNegative (coefficientLayout.float t.coefficient.abs ++ rest) =
      some (t.coefficient, rest) := by
  rcases isInf_or_isNaN_of_not_isFinite (Bool.eq_false_iff.2 hfin) with hinf | hnan
  · have hvalue : ofWord t.isNegative infinityWord = t.coefficient := by
      rw [isNegative_eq (isNaN_eq_false_of_isInf hinf) h0, ← (isInf_iff _).1 hinf, ofWord_magnitudeWord]
    rw [float_abs_of_isInf hinf, ← hvalue]
    rfl
  · have hvalue : 0 / 0 = t.coefficient := eq_of_isNaN (by decide +kernel) hnan
    rw [float_abs_of_isNaN hnan, ← hvalue]
    rfl

/-- A term in letters is taken back from what is written behind its sign. -/
theorem letterTerm?_append {t : Term Float} (h0 : (t.coefficient == 0) = false)
    (hfin : ¬ t.coefficient.isFinite = true) {rest : List Char} (hrest : atBoundary rest = true) :
    letterTerm? t.isNegative (t.magnitudeText ++ rest) = some (t, rest) := by
  rw [magnitudeText_eq_of_not_isFinite hfin, List.append_assoc, letterTerm?, letters?_append h0 hfin]
  show ((exponentBehindLetters _).toOption.bind _ : Option (Term Float × List Char)) = _
  rw [exponentBehindLetters_append t.exponent hrest]
  rfl

/-- A term in letters is taken back with its sign, whether that is written or not. -/
theorem signedLetterTerm?_append {t : Term Float} (h0 : (t.coefficient == 0) = false)
    (hfin : ¬ t.coefficient.isFinite = true) {sign : List Char} (hsign : SignText t.isNegative sign)
    {rest : List Char} (hrest : atBoundary rest = true) :
    signedLetterTerm? (sign ++ (t.magnitudeText ++ rest)) = some (t, rest) := by
  have hletters := letterTerm?_append h0 hfin hrest
  generalize t.isNegative = negative at hsign hletters
  cases hsign with
  | plus => exact hletters
  | minus => exact hletters
  | none =>
    -- the letters are not taken for a sign
    obtain ⟨cs, h | h⟩ := magnitudeText_of_not_isFinite hfin
    all_goals
      rw [h] at hletters ⊢
      exact hletters

/-- Letters are no number, with a sign or without. -/
theorem exists_readTerm_eq_error {t : Term Float} (hfin : ¬ t.coefficient.isFinite = true) {negative : Bool}
    {sign : List Char} (hsign : SignText negative sign) (rest : List Char) :
    ∃ fault, readTerm (sign ++ (t.magnitudeText ++ rest)) = .error fault := by
  obtain ⟨cs, h | h⟩ := magnitudeText_of_not_isFinite hfin
  all_goals
    rw [h]
    cases hsign <;> exact ⟨_, rfl⟩

/-- Every term is read back from the front of what is written, whatever its coefficient is. -/
theorem readWritten_append {t : Term Float} (h0 : (t.coefficient == 0) = false) {sign : List Char}
    (hsign : SignText t.isNegative sign) {rest : List Char} (hrest : atBoundary rest = true) :
    readWritten (sign ++ (t.magnitudeText ++ rest)) = some (t, rest) := by
  by_cases hfin : t.coefficient.isFinite = true
  · obtain ⟨s, hbody, hdenotes⟩ := exists_bodyText_magnitudeText ⟨hfin, h0⟩
    have hread := readTerm_append (.intro hsign hbody) hdenotes hrest
    rw [List.append_assoc] at hread
    rw [readWritten, hread]
  · obtain ⟨fault, hfault⟩ := exists_readTerm_eq_error hfin hsign rest
    rw [readWritten, hfault]
    exact signedLetterTerm?_append h0 hfin hsign hrest

/-! ## Rows of terms -/

/-- What is written behind a term begins with a sign, if there is anything. -/
theorem atBoundary_flatMap_laterText (ts : List (Term Float)) :
    atBoundary (ts.flatMap Term.laterText) = true := by
  cases ts with
  | nil => rfl
  | cons t ts =>
    obtain ⟨c, hc, -, htext⟩ := exists_laterText_eq t
    rw [List.flatMap_cons, htext]
    exact hc

/-- A row behind another term is read from its first term on. -/
theorem readWritten_flatMap_laterText {t : Term Float} (h0 : (t.coefficient == 0) = false)
    (ts : List (Term Float)) :
    readWritten ((t :: ts).flatMap Term.laterText) = some (t, ts.flatMap Term.laterText) := by
  obtain ⟨c, -, hsign, htext⟩ := exists_laterText_eq t
  rw [List.flatMap_cons, htext, List.append_assoc]
  exact readWritten_append h0 hsign (atBoundary_flatMap_laterText ts)

/-- A row is read from its first term on. -/
theorem readWritten_rowText {t : Term Float} (h0 : (t.coefficient == 0) = false) (ts : List (Term Float)) :
    readWritten (rowText (t :: ts)) = some (t, ts.flatMap Term.laterText) := by
  obtain ⟨sign, hsign, htext⟩ := exists_text_eq t
  rw [rowText, htext, List.append_assoc]
  exact readWritten_append h0 hsign (atBoundary_flatMap_laterText ts)

/-- Rows behind another term are told apart by their texts. -/
theorem eq_of_flatMap_laterText_eq {ts us : List (Term Float)} (hts : ∀ t ∈ ts, (t.coefficient == 0) = false)
    (hus : ∀ u ∈ us, (u.coefficient == 0) = false)
    (h : ts.flatMap Term.laterText = us.flatMap Term.laterText) : ts = us := by
  have hnil : readWritten [] = none := by decide +kernel
  -- on both rows at once: the reader takes the first term of either from the one text
  induction ts generalizing us with
  | nil =>
    cases us with
    | nil => rfl
    | cons u us =>
      have hu := readWritten_flatMap_laterText (hus u List.mem_cons_self) us
      rw [← h, List.flatMap_nil, hnil] at hu
      cases hu
  | cons t ts ih =>
    obtain ⟨ht, hts⟩ := List.forall_mem_cons.1 hts
    have hread := readWritten_flatMap_laterText ht ts
    cases us with
    | nil =>
      rw [h, List.flatMap_nil, hnil] at hread
      cases hread
    | cons u us =>
      obtain ⟨hu, hus⟩ := List.forall_mem_cons.1 hus
      rw [h, readWritten_flatMap_laterText hu us] at hread
      obtain ⟨hfirst, hrest⟩ := Prod.mk.inj (Option.some.inj hread)
      rw [hfirst, ih hts hus hrest.symm]

/-- Rows are told apart by their texts. -/
theorem eq_of_rowText_eq {t u : Term Float} {ts us : List (Term Float)}
    (hts : ∀ t' ∈ t :: ts, (t'.coefficient == 0) = false)
    (hus : ∀ u' ∈ u :: us, (u'.coefficient == 0) = false) (h : rowText (t :: ts) = rowText (u :: us)) :
    t :: ts = u :: us := by
  obtain ⟨ht, hts⟩ := List.forall_mem_cons.1 hts
  obtain ⟨hu, hus⟩ := List.forall_mem_cons.1 hus
  have hread := readWritten_rowText ht ts
  rw [h, readWritten_rowText hu us] at hread
  obtain ⟨hfirst, hrest⟩ := Prod.mk.inj (Option.some.inj hread)
  rw [hfirst, eq_of_flatMap_laterText_eq hts hus hrest.symm]

/-- No row of terms is written as the zero that stands for the empty one. -/
theorem rowText_ne_zero {t : Term Float} (h0 : (t.coefficient == 0) = false) (ts : List (Term Float)) :
    rowText (t :: ts) ≠ ['0'] := by
  intro h
  have hread := readWritten_rowText h0 ts
  have hzero : readWritten ['0'] = some (⟨0, 0⟩, []) := by decide +kernel
  rw [h, hzero] at hread
  obtain ⟨rfl, -⟩ := Prod.mk.inj (Option.some.inj hread)
  have hbeq : ((0 : Float) == 0) = true := by decide +kernel
  rw [hbeq] at h0
  cases h0

end Reading

/-! ## Polynomials -/

namespace Term

/-- Terms that are not told apart: the exponents are equal, and so are the coefficients unless both are
NaN. -/
def Same (t u : Term Float) : Prop :=
  t.exponent = u.exponent ∧
    (t.coefficient = u.coefficient ∨ t.coefficient.isNaN = true ∧ u.coefficient.isNaN = true)

/-- There is one NaN, so terms that are not told apart are equal. -/
theorem same_iff_eq {t u : Term Float} : t.Same u ↔ t = u := by
  constructor
  · rintro ⟨hexponent, hcoefficient | ⟨ht, hu⟩⟩
    · exact Term.ext hexponent hcoefficient
    · exact Term.ext hexponent (eq_of_isNaN ht hu)
  · rintro rfl
    exact ⟨rfl, Or.inl rfl⟩

/-- Terms compare equal if they are the same and their coefficient is not NaN. -/
theorem beq_iff {t u : Term Float} (h0 : (t.coefficient == 0) = false) :
    (t == u) = true ↔ t = u ∧ t.coefficient.isNaN = false := by
  change (t.exponent == u.exponent && t.coefficient == u.coefficient) = true ↔ _
  rw [Bool.and_eq_true, beq_iff_eq, beq_iff_of_ne_zero h0, Term.ext_iff, and_assoc]

/-- The same for rows. -/
theorem beq_list_iff {ts us : List (Term Float)} (hts : ∀ t ∈ ts, (t.coefficient == 0) = false) :
    (ts == us) = true ↔ ts = us ∧ ∀ t ∈ ts, t.coefficient.isNaN = false := by
  induction ts generalizing us with
  | nil => cases us <;> simp
  | cons t ts ih =>
    obtain ⟨ht, hts⟩ := List.forall_mem_cons.1 hts
    cases us with
    | nil => simp
    | cons u us =>
      rw [List.cons_beq_cons, Bool.and_eq_true, Term.beq_iff ht, ih hts, List.cons.injEq,
        List.forall_mem_cons]
      exact and_and_and_comm

end Term

namespace Poly

open Reading

/-- What is written for no terms is written for nothing else. -/
theorem text_eq_zero_iff (p : Poly Float) : p.text = ['0'] ↔ p.terms = [] := by
  refine ⟨fun h => ?_, fun h => by rw [text, h]; rfl⟩
  cases hts : p.terms.reverse with
  | nil => exact List.reverse_eq_nil_iff.1 hts
  | cons t ts =>
    have hne : p.terms ≠ [] := fun hnil => by simp [hnil] at hts
    have ht : t ∈ p.terms := List.mem_reverse.1 (hts ▸ List.mem_cons_self)
    rw [text_eq_rowText hne, hts] at h
    exact absurd h (rowText_ne_zero (p.canonical.nonzero t ht) ts)

/-- Polynomials are told apart by their texts. -/
theorem render_injective : Function.Injective render := by
  intro p q h
  have htext : p.text = q.text := String.ofList_injective h
  refine Poly.ext (List.reverse_injective ?_)
  by_cases hp : p.terms = []
  · have hq := (text_eq_zero_iff q).1 (htext ▸ (text_eq_zero_iff p).2 hp)
    rw [hp, hq]
  · have hq : q.terms ≠ [] := fun hq => hp ((text_eq_zero_iff p).1 (htext.trans ((text_eq_zero_iff q).2 hq)))
    obtain ⟨t, ts, hts⟩ := List.exists_cons_of_ne_nil (mt List.reverse_eq_nil_iff.1 hp)
    obtain ⟨u, us, hus⟩ := List.exists_cons_of_ne_nil (mt List.reverse_eq_nil_iff.1 hq)
    rw [text_eq_rowText hp, text_eq_rowText hq, hts, hus] at htext
    rw [hts, hus]
    refine eq_of_rowText_eq (fun t' ht' => p.canonical.nonzero t' ?_)
      (fun u' hu' => q.canonical.nonzero u' ?_) htext
    · rwa [← hts, List.mem_reverse] at ht'
    · rwa [← hus, List.mem_reverse] at hu'

/-- Polynomials compare equal if they are the same and have no coefficient that is NaN. -/
theorem beq_iff (p q : Poly Float) :
    (p == q) = true ↔ p = q ∧ ∀ t ∈ p.terms, t.coefficient.isNaN = false := by
  change (p.terms == q.terms) = true ↔ _
  rw [Term.beq_list_iff p.canonical.nonzero, Poly.ext_iff]

/-- Two polynomials are written the same exactly if they have the same exponents in order, with the same
coefficient at each or NaN in both. Exactly if, besides, there is no NaN in them, they compare equal, be the
coefficients finite or not. -/
theorem render_eq_render_iff (a b : Poly Float) :
    (a.render = b.render ↔ List.Forall₂ Term.Same a.terms b.terms) ∧
      ((a == b) = true ↔ a.render = b.render ∧ ∀ t ∈ a.terms, t.coefficient.isNaN = false) := by
  have hsame : Term.Same = (· = ·) := by
    funext t u
    exact propext Term.same_iff_eq
  rw [beq_iff, hsame, List.forall₂_eq_eq_eq, ← Poly.ext_iff, render_injective.eq_iff]
  exact ⟨Iff.rfl, Iff.rfl⟩

end Poly

end SparsePoly
