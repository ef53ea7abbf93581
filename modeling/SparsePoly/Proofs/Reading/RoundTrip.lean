import SparsePoly.Poly.Render
import SparsePoly.Proofs.Decimal.Positional
import SparsePoly.Proofs.Reading.Language
import SparsePoly.Proofs.Termwise.Sum

/-!
# Reading what was written

A polynomial is written from its highest term down, and the reading of its text gives it back, bit
for bit, exactly if all coefficients are finite (`parse_render`). Otherwise the reading ends where
the highest term with another coefficient begins.

What is written for finite coefficients is a polynomial of the grammar, and its summands denote the
terms (`exists_polyText_rowText`). So it is read by the general theorem, also in front of a
coefficient that is not finite. Such a coefficient is written in letters, at which a reading stops
(`readTerm_of_isLetter`).
-/

namespace SparsePoly

namespace Reading

open Binary64 Numeral Text

/-! ## Terms that are read back -/

/-- A term that is read back: a finite coefficient other than zero. -/
structure Readable (t : Term Float) : Prop where
  /-- The coefficient is written in digits. -/
  isFinite : t.coefficient.isFinite = true
  /-- The coefficient has a sign of its own. -/
  nonzero : (t.coefficient == 0) = false

/-- Behind a coefficient, the variable is written with its exponent. -/
theorem variableText_powerText {e : UInt32} (he : e ≠ 0) : VariableText (Term.powerText e) e := by
  unfold Term.powerText
  rw [if_neg he]
  split
  · rename_i h1
    subst h1
    exact .bare
  · have hdigits : IsDigits (Nat.toDigits 10 e.toNat) :=
      ⟨Nat.toDigits_ne_nil, fun c hc => Nat.isDigit_of_mem_toDigits (by decide) (by decide) hc⟩
    exact .power (.intro .none hdigits Nat.ofDigitChars_ten_toDigits)

/-- The digit that stands for a coefficient of magnitude one. -/
theorem toFloat_unsigned?_one (negative : Bool) :
    (unsigned? ['1']).map (Decimal.toFloat negative) =
      some (ofWord negative (magnitudeWord 1)) := by
  have htrim : Decimal.trim (Nat.ofDigitChars 10 ['1'] 0) 0 = ⟨1, 0⟩ := by decide +kernel
  have hword : Decimal.nearestWord ⟨1, 0⟩ = magnitudeWord 1 := by decide +kernel
  rw [unsigned?_digits (List.cons_ne_nil _ _) (by simp), Option.map_some, htrim, Decimal.toFloat,
    hword]

theorem ofWord_one (negative : Bool) :
    ofWord negative (magnitudeWord 1) = if negative then -1 else 1 := by
  cases negative <;> decide +kernel

/-- The sign that is written is that of the pattern, because zero is excluded. -/
theorem isNegative_eq {t : Term Float} (hnan : t.coefficient.isNaN = false)
    (h0 : (t.coefficient == 0) = false) : t.isNegative = Binary64.isNegative t.coefficient := by
  rw [Term.isNegative, Bool.eq_iff_iff, decide_eq_true_iff]
  exact lt_zero_iff hnan h0

/-- What is written for a term behind its sign is a body that denotes the term. -/
theorem exists_bodyText_magnitudeText {t : Term Float} (ht : Readable t) :
    ∃ s, BodyText t.isNegative t.magnitudeText s ∧ s.Denotes t := by
  obtain ⟨hfin, h0⟩ := ht
  obtain ⟨e, x⟩ := t
  set negative := Term.isNegative ⟨e, x⟩ with hnegative
  have hword : ofWord negative (magnitudeWord x) = x := by
    rw [hnegative, isNegative_eq (isNaN_eq_false_of_isFinite hfin) h0]
    exact ofWord_magnitudeWord x
  -- a number, with the variable if the exponent is not zero
  have hnumber : ∀ {ds : List Char}, (unsigned? ds).map (Decimal.toFloat negative) = some x →
      ∃ s, BodyText negative (ds ++ (if e = 0 then [] else ['*']) ++ Term.powerText e) s ∧
        s.Denotes ⟨e, x⟩ := by
    intro ds hds
    obtain ⟨v, hv, hx⟩ := exists_number_of_map hds
    refine ⟨⟨negative, some v, e⟩, ?_, .of_isRounded hx⟩
    split
    · rename_i he
      subst he
      rw [List.append_nil]
      show BodyText negative (ds ++ []) _
      rw [List.append_nil]
      exact .number hv
    · rename_i he
      rw [List.append_assoc]
      exact .product hv (Or.inr rfl) (variableText_powerText he)
  unfold Term.magnitudeText
  simp only
  split
  · -- a coefficient of magnitude one, which is only written if nothing else is
    rename_i hone
    rw [magnitudeWord_of_abs_beq_one hone] at hword
    split
    · rename_i he
      subst he
      have hvalue := toFloat_unsigned?_one negative
      rw [hword] at hvalue
      exact hnumber hvalue
    · rename_i he
      refine ⟨⟨negative, none, e⟩, .unit (variableText_powerText he), .of_unit ?_⟩
      rw [← hword, ofWord_one]
  · have hvalue := toFloat_unsigned?_float_abs hfin negative
    rw [hword] at hvalue
    exact hnumber hvalue

/-! ## Rows of terms -/

/-- A term in front is written with a minus sign or with none. -/
theorem exists_text_eq (t : Term Float) :
    ∃ sign, SignText t.isNegative sign ∧ t.text = sign ++ t.magnitudeText := by
  unfold Term.text
  cases t.isNegative with
  | true => exact ⟨_, .minus, rfl⟩
  | false => exact ⟨_, .none, rfl⟩

/-- Behind another term, a sign is always written. -/
theorem exists_laterText_eq (t : Term Float) :
    ∃ c, isSign c = true ∧ SignText t.isNegative [c] ∧ t.laterText = [c] ++ t.magnitudeText := by
  unfold Term.laterText Term.text
  cases t.isNegative with
  | true => exact ⟨_, rfl, .minus, rfl⟩
  | false => exact ⟨_, rfl, .plus, rfl⟩

/-- The text of terms in a row, without a sign in front if the first of them needs none. -/
def rowText : List (Term Float) → List Char
  | [] => []
  | t :: ts => t.text ++ ts.flatMap Term.laterText

/-- Where a row is cut, the term behind the cut has the text of a later one, unless it is the first.
-/
theorem rowText_append_cons (ts : List (Term Float)) (t : Term Float) (us : List (Term Float)) :
    rowText (ts ++ t :: us) =
      rowText ts ++ ((if ts = [] then t.text else t.laterText) ++ us.flatMap Term.laterText) := by
  cases ts with
  | nil => rfl
  | cons u ts => simp [rowText]

/-- A polynomial with terms is written as their row, from the highest term down. -/
theorem text_eq_rowText {p : Poly Float} (hp : p.terms ≠ []) : p.text = rowText p.terms.reverse := by
  rw [Poly.text]
  match hts : p.terms.reverse with
  | [] => exact absurd (List.reverse_eq_nil_iff.1 hts) hp
  | t :: ts => rfl

/-- Readable terms behind another one are written as summands that denote them. -/
theorem exists_tailText_flatMap {ts : List (Term Float)} (hts : ∀ t ∈ ts, Readable t) :
    ∃ ss, TailText (ts.flatMap Term.laterText) ss ∧ List.Forall₂ Summand.Denotes ss ts := by
  induction ts with
  | nil => exact ⟨[], .nil, .nil⟩
  | cons t ts ih =>
    obtain ⟨ht, hts⟩ := List.forall_mem_cons.1 hts
    obtain ⟨ss, hss, hdenotes⟩ := ih hts
    obtain ⟨s, hs, hst⟩ := exists_bodyText_magnitudeText ht
    obtain ⟨c, -, hsign, htext⟩ := exists_laterText_eq t
    refine ⟨s :: ss, ?_, .cons hst hdenotes⟩
    rw [List.flatMap_cons, htext, List.append_assoc, List.singleton_append]
    exact .cons hsign hs hss

/-- Readable terms in a row are written as a polynomial that denotes them. -/
theorem exists_polyText_rowText {t : Term Float} {ts : List (Term Float)}
    (hts : ∀ u ∈ t :: ts, Readable u) :
    ∃ ss, PolyText (rowText (t :: ts)) ss ∧ List.Forall₂ Summand.Denotes ss (t :: ts) := by
  obtain ⟨ht, hts⟩ := List.forall_mem_cons.1 hts
  obtain ⟨ss, hss, hdenotes⟩ := exists_tailText_flatMap hts
  obtain ⟨s, hs, hst⟩ := exists_bodyText_magnitudeText ht
  obtain ⟨sign, hsign, htext⟩ := exists_text_eq t
  refine ⟨s :: ss, ?_, .cons hst hdenotes⟩
  rw [rowText, htext]
  exact .intro (.intro hsign hs) hss

/-- What is written for readable terms is in normal form. -/
theorem normalize_rowText {ts : List (Term Float)} (hts : ∀ t ∈ ts, Readable t) :
    Text.normalize (.ofList (rowText ts)) = rowText ts := by
  cases ts with
  | nil => rfl
  | cons t ts =>
    obtain ⟨ss, hss, -⟩ := exists_polyText_rowText hts
    exact hss.normalize_eq

/-! ## Terms that cannot be read back -/

/-- Whether a character is one of those that are written for what is not finite, behind the
normal form of a text. -/
def isLetter (c : Char) : Prop := c = 'n' ∨ c = 'a' ∨ c = 'i'

/-- No letter is an inner character of a coefficient. -/
theorem scanNumber_of_isLetter {c : Char} (hc : isLetter c) (cs : List Char) :
    scanNumber (c :: cs) = none := by
  rcases hc with rfl | rfl | rfl
  all_goals exact scanNumber_cons (by simp)

/-- Two letters behind a sign are no coefficient. The first character is taken unseen. -/
theorem readTerm_of_isLetter {negative : Bool} {sign : List Char} (hsign : SignText negative sign)
    {c d : Char} (hc : isLetter c) (hd : isLetter d) (cs : List Char) :
    readTerm (sign ++ c :: d :: cs) = .error (.coefficient, sign ++ c :: d :: cs) := by
  have hx : (sign ++ c :: d :: cs).head? ≠ some 'x' := by
    cases hsign with
    | none =>
      rcases hc with rfl | rfl | rfl
      all_goals simp
    | plus => simp
    | minus => simp
  have hnone : coefficient? (sign ++ c :: d :: cs) = none := by
    cases hsign with
    | none => simp [coefficient?, scanNumber_of_isLetter hd]
    | plus => simp [coefficient?, scanNumber_of_isLetter hc]
    | minus => simp [coefficient?, scanNumber_of_isLetter hc]
  rw [readTerm, readCoefficient, if_neg hx, hnone]
  rfl

/-- A coefficient that is not finite is never left out. -/
theorem magnitudeText_eq_of_not_isFinite {t : Term Float} (hfin : ¬ t.coefficient.isFinite = true) :
    t.magnitudeText = coefficientLayout.float t.coefficient.abs ++
      ((if t.exponent = 0 then [] else ['*']) ++ Term.powerText t.exponent) := by
  have hone : ¬ (t.coefficient.abs == 1) = true := by
    intro h
    apply hfin
    rw [isFinite_iff, magnitudeWord_of_abs_beq_one h]
    decide +kernel
  rw [Term.magnitudeText]
  simp only [if_neg hone, List.append_assoc]

/-- What is written for a term with a coefficient that is not finite begins with letters. -/
theorem magnitudeText_of_not_isFinite {t : Term Float} (hfin : ¬ t.coefficient.isFinite = true) :
    ∃ cs, t.magnitudeText = ['N', 'a', 'N'] ++ cs ∨ t.magnitudeText = ['i', 'n', 'f'] ++ cs := by
  rw [magnitudeText_eq_of_not_isFinite hfin]
  rcases float_abs_of_not_isFinite hfin with h | h
  · exact ⟨_, Or.inl (by rw [h])⟩
  · exact ⟨_, Or.inr (by rw [h])⟩

/-- A coefficient that is not finite cannot be read, with whatever is in front of it and behind. -/
theorem ofChars_of_not_isFinite {t : Term Float} (hfin : ¬ t.coefficient.isFinite = true)
    {sign : List Char} (hsign : SignText t.isNegative sign) (rest : List Char) :
    ofChars (Text.normalize (.ofList (sign ++ (t.magnitudeText ++ rest)))) =
      ⟨[], some (.coefficient, Text.normalize (.ofList (sign ++ (t.magnitudeText ++ rest))))⟩ := by
  -- the normal form may change what is behind, but not that two letters come first
  have hnan : Text.normalize (.ofList ['N', 'a', 'N']) = ['n', 'a', 'n'] := by decide +kernel
  have hinf : Text.normalize (.ofList ['i', 'n', 'f']) = ['i', 'n', 'f'] := by decide +kernel
  obtain ⟨c, d, cs, hc, hd, htext⟩ : ∃ c d cs, isLetter c ∧ isLetter d ∧
      Text.normalize (.ofList (t.magnitudeText ++ rest)) = c :: d :: cs := by
    obtain ⟨cs, h | h⟩ := magnitudeText_of_not_isFinite hfin
    · rw [h, List.append_assoc, normalize_append, hnan]
      exact ⟨'n', 'a', _, by simp [isLetter], by simp [isLetter], rfl⟩
    · rw [h, List.append_assoc, normalize_append, hinf]
      exact ⟨'i', 'n', _, by simp [isLetter], by simp [isLetter], rfl⟩
  rw [normalize_append, hsign.normalize_eq, htext]
  exact ofChars_of_error (readTerm_of_isLetter hsign hc hd cs)

end Reading

/-! ## Polynomials -/

open Reading Text

namespace Poly

/-- A finite coefficient in a polynomial can be read back, as it is not zero. -/
theorem readable_of_mem {p : Poly Float} {t : Term Float} (ht : t ∈ p.terms)
    (hfin : t.coefficient.isFinite = true) : Readable t :=
  ⟨hfin, p.canonical.nonzero t ht⟩

/-- The polynomial without terms is written as a zero, which adds nothing when it is read. -/
theorem parse_render_of_nil {p : Poly Float} (hp : p.terms = []) : parse p.render = .ok p := by
  obtain rfl : p = 0 := Poly.ext hp
  have hsettled : Text.normalize (0 : Poly Float).render = ['0'] := by decide +kernel
  have hvalue : (Numeral.unsigned? ['0']).map (Decimal.toFloat false) = some 0 := by decide +kernel
  obtain ⟨v, hv, hx⟩ := Numeral.exists_number_of_map hvalue
  have htext : SummandText ['0'] ⟨false, some v, 0⟩ := .intro .none (.number hv)
  have hzero : ((0 : Float) == 0) = true := by decide +kernel
  have hadd : ofTerms [⟨0, 0⟩] = (0 : Poly Float) := by
    refine Poly.ext ?_
    show TermList.add ⟨0, (0 : Float)⟩ [] = []
    exact if_pos hzero
  rw [← hsettled] at htext
  rw [parse_of_polyText htext.polyText (.cons (.of_isRounded hx) .nil), hadd]

/-- The text of finite coefficients is read up to its end. -/
theorem parse_render_of_isFinite {p : Poly Float} (hfin : ∀ t ∈ p.terms, t.coefficient.isFinite = true) :
    parse p.render = .ok p := by
  by_cases hp : p.terms = []
  · exact parse_render_of_nil hp
  · have hreadable : ∀ t ∈ p.terms.reverse, Readable t := fun t ht =>
      readable_of_mem (List.mem_reverse.1 ht) (hfin t (List.mem_reverse.1 ht))
    have hnormal : Text.normalize p.render = rowText p.terms.reverse := by
      rw [render, text_eq_rowText hp, normalize_rowText hreadable]
    have hsum : ofTerms p.terms.reverse = p := ofTerms_of_perm (List.reverse_perm p.terms)
    match hts : p.terms.reverse with
    | [] => exact absurd (List.reverse_eq_nil_iff.1 hts) hp
    | t :: ts =>
      rw [hts] at hreadable hnormal hsum
      obtain ⟨ss, hss, hdenotes⟩ := exists_polyText_rowText hreadable
      rw [← hnormal] at hss
      rw [parse_of_polyText hss hdenotes, hsum]

/-- The reading ends at the first coefficient that is not finite, once the terms in front of it
are read. -/
theorem parse_render_of_not_isFinite {p : Poly Float} {higher lower : List (Term Float)}
    {t : Term Float} (hp : p.terms.reverse = higher ++ t :: lower)
    (hhigher : ∀ u ∈ higher, u.coefficient.isFinite = true)
    (ht : ¬ t.coefficient.isFinite = true) :
    parse p.render = .error (.coefficient (rowText higher).length) := by
  have hne : p.terms ≠ [] := by
    intro hnil
    rw [hnil] at hp
    cases higher <;> cases hp
  set behind := (if higher = [] then t.text else t.laterText) ++ lower.flatMap Term.laterText
    with hbehind
  have hreadable : ∀ u ∈ higher, Readable u := fun u hu =>
    readable_of_mem (List.mem_reverse.1 (hp ▸ List.mem_append_left _ hu)) (hhigher u hu)
  have hnormal : Text.normalize p.render = rowText higher ++ Text.normalize (.ofList behind) := by
    rw [render, text_eq_rowText hne, hp, rowText_append_cons, normalize_append,
      normalize_rowText hreadable]
  -- where the reading of the whole text ends is where that of the last part does
  have hfault : (ofChars (Text.normalize p.render)).fault? =
      some (.coefficient, Text.normalize (.ofList behind)) := by
    rw [hnormal]
    match higher with
    | [] =>
      obtain ⟨sign, hsign, htext⟩ := exists_text_eq t
      rw [if_pos rfl, htext, List.append_assoc] at hbehind
      rw [rowText, List.nil_append, hbehind, ofChars_of_not_isFinite ht hsign]
    | u :: us =>
      obtain ⟨sign, hstart, hsign, htext⟩ := exists_laterText_eq t
      rw [if_neg (List.cons_ne_nil _ _), htext, List.append_assoc] at hbehind
      have hcons : Text.normalize (.ofList behind) =
          sign :: Text.normalize (.ofList (t.magnitudeText ++ lower.flatMap Term.laterText)) := by
        rw [hbehind, normalize_append, hsign.normalize_eq, List.singleton_append]
      have hboundary : atBoundary (Text.normalize (.ofList behind)) = true := by
        rw [hcons]
        exact hstart
      obtain ⟨ss, hss, hdenotes⟩ := exists_polyText_rowText hreadable
      rw [(ofChars_append hss hdenotes hboundary).2, ofRest,
        if_neg (by rw [hcons]; exact List.cons_ne_nil _ _), hbehind,
        ofChars_of_not_isFinite ht hsign]
  rw [parse, ofText, toPoly, hfault, hnormal, List.length_append]
  simp only [Nat.add_sub_cancel]
  rfl

/-- The reading of a written polynomial gives it back if all coefficients are finite. Otherwise it
ends where the highest term with another coefficient begins, which is at its sign if it is behind
another term or negative. -/
theorem parse_render (p : Poly Float) :
    ((∀ t ∈ p.terms, t.coefficient.isFinite = true) → parse p.render = .ok p) ∧
      ((∃ t ∈ p.terms, ¬ t.coefficient.isFinite = true) →
        ∃ higher t lower, p.terms.reverse = higher ++ t :: lower ∧
          (∀ u ∈ higher, u.coefficient.isFinite = true) ∧ ¬ t.coefficient.isFinite = true ∧
          p.render.toList = rowText higher ++
            ((if higher = [] then t.text else t.laterText) ++ lower.flatMap Term.laterText) ∧
          parse p.render = .error (.coefficient (rowText higher).length)) := by
  refine ⟨parse_render_of_isFinite, fun ⟨u, hu, hfin⟩ => ?_⟩
  obtain ⟨t, hfind⟩ : ∃ t, p.terms.reverse.find? (fun t => !t.coefficient.isFinite) = some t := by
    rw [← Option.isSome_iff_exists, List.find?_isSome]
    exact ⟨u, List.mem_reverse.2 hu, by simpa using hfin⟩
  obtain ⟨ht, higher, lower, hp, hhigher⟩ := List.find?_eq_some_iff_append.1 hfind
  have ht' : ¬ t.coefficient.isFinite = true := by simpa using ht
  have hhigher' : ∀ u ∈ higher, u.coefficient.isFinite = true := fun u hu => by
    simpa using hhigher u hu
  have hne : p.terms ≠ [] := List.ne_nil_of_mem hu
  refine ⟨higher, t, lower, hp, hhigher', ht', ?_, parse_render_of_not_isFinite hp hhigher' ht'⟩
  rw [render, String.toList_ofList, text_eq_rowText hne, hp, rowText_append_cons]

/-- `-x^3` is read back, and the reading of `3*x^2+inf` ends before the infinite coefficient. -/
theorem parse_render_cube_infinity :
    parse (monomial ⟨3, -1⟩).render = .ok (monomial ⟨3, -1⟩) ∧
      ∃ higher t lower, (ofTerms [⟨2, 3⟩, ⟨0, 1 / 0⟩]).terms.reverse = higher ++ t :: lower ∧
        ¬ t.coefficient.isFinite = true ∧
        parse (ofTerms [⟨2, 3⟩, ⟨0, 1 / 0⟩]).render =
          .error (.coefficient (rowText higher).length) := by
  have hfin : ∀ t ∈ (monomial ⟨3, -1⟩ : Poly Float).terms, t.coefficient.isFinite = true := by
    decide +kernel
  have hinf : ∃ t ∈ (ofTerms [⟨2, 3⟩, ⟨0, 1 / 0⟩] : Poly Float).terms,
      ¬ t.coefficient.isFinite = true := by
    decide +kernel
  obtain ⟨higher, t, lower, hp, -, ht, -, hparse⟩ := (parse_render (ofTerms _)).2 hinf
  exact ⟨(parse_render (monomial _)).1 hfin, higher, t, lower, hp, ht, hparse⟩

end Poly

end SparsePoly
