import SparsePoly.Proofs.Reading.Term

/-!
# Reading a polynomial

A reading goes from term to term. While it goes, the text that it has taken is a polynomial, and what
is left begins with a sign (`Continues`). One term keeps this up (`Continues.append`), so that a
reading ends with a polynomial, or with a fault behind one (`PolyFault`).

In the other direction, the summands of a polynomial are read one by one (`ofChars_append`), whatever
follows at a sign. Together, a text is read exactly if its normal form is a polynomial, and then as
the sum of what its summands denote (`Poly.parse_eq_ok_iff`).
-/

namespace SparsePoly

namespace Reading

/-- What is read of the text that is left behind a term. -/
def ofRest (rest : List Char) : Reading := if rest = [] then ⟨[], none⟩ else ofChars rest

/-- A term that ends at a boundary is read, and what comes behind it is read on its own. -/
theorem ofChars_of_ok {cs rest : List Char} {t : Term Float} (hread : readTerm cs = .ok (t, rest))
    (hrest : atBoundary rest = true) :
    ofChars cs = ⟨(t, rest) :: (ofRest rest).terms, (ofRest rest).fault?⟩ := by
  rw [ofChars]
  split
  · rename_i h
    rw [hread] at h
    cases h
  · rename_i h
    rw [hread] at h
    cases h
    unfold ofRest
    split
    · rfl
    · rfl

/-- A reading ends with the fault of its first term. -/
theorem ofChars_of_error {cs rest : List Char} {kind : FaultKind}
    (hread : readTerm cs = .error (kind, rest)) : ofChars cs = ⟨[], some (kind, rest)⟩ := by
  rw [ofChars]
  split
  · rename_i h
    rw [hread] at h
    cases h
    rfl
  · rename_i h
    rw [hread] at h
    cases h

/-! ## Polynomials are read -/

/-- Summands behind signs are read one by one, whatever follows at a sign. -/
theorem ofRest_append {cs rest : List Char} {ss : List Summand} {ts : List (Term Float)}
    (hcs : TailText cs ss) (hts : List.Forall₂ Summand.Denotes ss ts)
    (hrest : atBoundary rest = true) :
    atBoundary (cs ++ rest) = true ∧
      (ofRest (cs ++ rest)).terms.map Prod.fst = ts ++ (ofRest rest).terms.map Prod.fst ∧
      (ofRest (cs ++ rest)).fault? = (ofRest rest).fault? := by
  induction hcs generalizing ts with
  | nil =>
    cases hts
    exact ⟨hrest, rfl, rfl⟩
  | cons hsign hbody _ ih =>
    -- what comes behind the first summand begins with a sign again, at which its reading ends
    cases hts with
    | cons ht hts =>
      obtain ⟨hboundary, hterms, hfault⟩ := ih hts
      have hread := readTerm_append (.intro hsign hbody) ht hboundary
      simp only [List.cons_append, List.nil_append, List.append_assoc] at hread ⊢
      rw [ofRest, if_neg (List.cons_ne_nil _ _), ofChars_of_ok hread hboundary]
      exact ⟨isSign_of_signText hsign, by rw [List.map_cons, hterms], hfault⟩

/-- The summands of a polynomial are read one by one, whatever follows at a sign. -/
theorem ofChars_append {cs rest : List Char} {ss : List Summand} {ts : List (Term Float)}
    (hcs : PolyText cs ss) (hts : List.Forall₂ Summand.Denotes ss ts)
    (hrest : atBoundary rest = true) :
    (ofChars (cs ++ rest)).terms.map Prod.fst = ts ++ (ofRest rest).terms.map Prod.fst ∧
      (ofChars (cs ++ rest)).fault? = (ofRest rest).fault? := by
  obtain ⟨hfirst, htail⟩ := hcs
  cases hts with
  | cons ht hts =>
    obtain ⟨hboundary, hterms, hfault⟩ := ofRest_append htail hts hrest
    rw [List.append_assoc, ofChars_of_ok (readTerm_append hfirst ht hboundary) hboundary]
    exact ⟨by rw [List.map_cons, hterms, List.cons_append], hfault⟩

/-! ## What is read is a polynomial -/

/-- A text `done`, with its summands, that a reading may have taken when `rest` is left: nothing at
the beginning, and a polynomial in front of a sign later. -/
inductive Continues : List Char → List Summand → List Char → Prop where
  | start {rest : List Char} : Continues [] [] rest
  | sign {done rest : List Char} {ss : List Summand} {c : Char} (hdone : PolyText done ss)
      (hc : isSign c = true) : Continues done ss (c :: rest)

/-- One more summand makes a polynomial. -/
theorem Continues.append {done text rest : List Char} {ss : List Summand} {s : Summand}
    (h : Continues done ss (text ++ rest)) (hs : SummandText text s) :
    PolyText (done ++ text) (ss ++ [s]) := by
  obtain ⟨c, cs, rfl⟩ := List.exists_cons_of_ne_nil hs.ne_nil
  cases h with
  | start => exact hs.polyText
  | sign hdone hc =>
    obtain ⟨negative, hsign, hbody⟩ := hs.exists_body hc
    exact hdone.append hsign hbody

/-- A text that is not a polynomial, with the fault and what is left where it lies: in front of that,
a polynomial and at most the beginning of an exponent or a product come first. -/
inductive PolyFault : List Char → FaultKind → List Char → Prop where
  /-- No coefficient at the beginning. -/
  | start {cs : List Char} : PolyFault cs .coefficient cs
  /-- No coefficient at a sign. -/
  | sign {done cs : List Char} {ss : List Summand} {c : Char} (hdone : PolyText done ss)
      (hc : isSign c = true) : PolyFault (done ++ c :: cs) .coefficient (c :: cs)
  /-- No exponent behind `^`. -/
  | exponent {front cs : List Char} {ss : List Summand} (hdone : PolyText (front ++ ['x']) ss) :
      PolyFault (front ++ 'x' :: '^' :: cs) .exponent cs
  /-- Something else than a sign or `^` behind the variable. -/
  | behindVariable {front cs : List Char} {ss : List Summand} {c : Char}
      (hdone : PolyText (front ++ ['x']) ss) (hsign : isSign c = false) (hpower : c ≠ '^') :
      PolyFault (front ++ 'x' :: c :: cs) .operator (c :: cs)
  /-- Something else than the variable behind `*`. -/
  | behindStar {done cs : List Char} {ss : List Summand} (hdone : PolyText done ss)
      (hx : cs.head? ≠ some 'x') : PolyFault (done ++ '*' :: cs) .operator cs

/-- A fault of a term is a fault of the polynomial. -/
theorem Continues.polyFault {done cs rest : List Char} {ss : List Summand} {kind : FaultKind}
    (h : Continues done ss cs) (hfault : TermFault cs kind rest) :
    PolyFault (done ++ cs) kind rest := by
  cases hfault with
  | coefficient =>
    cases h with
    | start => exact .start
    | sign hdone hc => exact .sign hdone hc
  | star htext hx =>
    have hdone := h.append htext
    rw [← List.append_assoc]
    exact .behindStar hdone hx
  | exponent htext =>
    rw [List.append_cons] at h
    have hdone := h.append htext
    rw [← List.append_assoc] at hdone ⊢
    exact .exponent hdone

/-- A term that is read is one more summand. -/
theorem Continues.readTerm {done cs rest : List Char} {ss : List Summand} {ts : List (Term Float)}
    {t : Term Float} (h : Continues done ss cs) (hts : List.Forall₂ Summand.Denotes ss ts)
    (hread : readTerm cs = .ok (t, rest)) :
    ∃ text us, cs = text ++ rest ∧ PolyText (done ++ text) us ∧
      List.Forall₂ Summand.Denotes us (ts ++ [t]) ∧
      (atBoundary rest = true ∨ (∃ front, text = front ++ ['x']) ∧ rest.head? ≠ some '^') := by
  obtain ⟨text, s, rfl, htext, ht, hrest⟩ := exists_summandText_of_readTerm hread
  have hdenotes := List.rel_append hts (.cons ht .nil)
  exact ⟨text, ss ++ [s], rfl, h.append htext, hdenotes, hrest⟩

/-- A reading ends with a polynomial or with a fault. -/
theorem ofChars_run {done cs : List Char} {ss : List Summand} {ts : List (Term Float)}
    (h : Continues done ss cs) (hts : List.Forall₂ Summand.Denotes ss ts) :
    (ofChars cs).fault? = none ∧ (∃ us, PolyText (done ++ cs) us ∧
        List.Forall₂ Summand.Denotes us (ts ++ (ofChars cs).terms.map Prod.fst)) ∨
      ∃ kind rest, (ofChars cs).fault? = some (kind, rest) ∧ PolyFault (done ++ cs) kind rest := by
  -- on the reading, with the text that was taken before: it is a polynomial again behind each term
  fun_induction ofChars cs generalizing done ss ts with
  | case1 cs fault hread =>
    obtain ⟨kind, rest⟩ := fault
    exact Or.inr ⟨kind, rest, rfl, h.polyFault (termFault_of_readTerm hread)⟩
  | case2 cs t hread =>
    obtain ⟨text, us, rfl, htext, hus, -⟩ := h.readTerm hts hread
    rw [List.append_nil]
    exact Or.inl ⟨rfl, us, htext, hus⟩
  | case3 cs t rest hread _ hne hrest later =>
    rename_i ih
    obtain ⟨text, us, rfl, htext, hus, -⟩ := h.readTerm hts hread
    obtain ⟨c, rest, rfl⟩ := List.exists_cons_of_ne_nil hne
    have hlater := ih (.sign htext hrest) hus
    simp only [List.append_assoc, List.singleton_append] at hlater
    exact hlater
  | case4 cs t rest hread _ hne hrest =>
    obtain ⟨text, us, rfl, htext, -, hstop⟩ := h.readTerm hts hread
    obtain ⟨c, rest, rfl⟩ := List.exists_cons_of_ne_nil hne
    -- only the variable ends a term in front of something else than a sign
    rcases hstop with hstop | ⟨⟨front, rfl⟩, hpower⟩
    · exact absurd hstop hrest
    · have hsign : isSign c = false := by simpa [atBoundary] using hrest
      rw [← List.append_assoc] at htext
      have hfault : PolyFault (done ++ front ++ 'x' :: c :: rest) .operator (c :: rest) :=
        .behindVariable htext hsign (by simpa using hpower)
      refine Or.inr ⟨_, _, rfl, ?_⟩
      simpa using hfault

/-- A summand has something that it denotes. -/
theorem exists_denotes_of_bodyText {negative : Bool} {body : List Char} {s : Summand}
    (h : BodyText negative body s) : ∃ t, s.Denotes t := by
  have hnumber : ∀ {ns : List Char} {v : ℚ} (e : UInt32), Numeral.Number ns v →
      ∃ t, Summand.Denotes ⟨negative, some v, e⟩ t := by
    intro ns v e hn
    obtain ⟨x, hx⟩ := hn.exists_isRounded negative
    exact ⟨⟨e, x⟩, .of_isRounded hx⟩
  cases h with
  | number hn => exact hnumber 0 hn
  | product hn _ hv => exact hnumber _ hn
  | unit hv => exact ⟨⟨_, if negative then -1 else 1⟩, .of_unit rfl⟩

/-- Summands behind signs have terms that they denote. -/
theorem exists_denotes_of_tailText {cs : List Char} {ss : List Summand} (h : TailText cs ss) :
    ∃ ts, List.Forall₂ Summand.Denotes ss ts := by
  induction h with
  | nil => exact ⟨[], .nil⟩
  | cons _ hbody _ ih =>
    obtain ⟨t, ht⟩ := exists_denotes_of_bodyText hbody
    obtain ⟨ts, hts⟩ := ih
    exact ⟨t :: ts, .cons ht hts⟩

/-- The summands of a polynomial have terms that they denote. -/
theorem exists_denotes_of_polyText {cs : List Char} {ss : List Summand} (h : PolyText cs ss) :
    ∃ ts, List.Forall₂ Summand.Denotes ss ts := by
  obtain ⟨⟨_, hbody⟩, htail⟩ := h
  obtain ⟨t, ht⟩ := exists_denotes_of_bodyText hbody
  obtain ⟨ts, hts⟩ := exists_denotes_of_tailText htail
  exact ⟨t :: ts, .cons ht hts⟩

end Reading

namespace Poly

open Reading

/-- A polynomial is read as the sum of the terms that its summands denote. -/
theorem parse_of_polyText {s : String} {ss : List Summand} {ts : List (Term Float)}
    (hs : PolyText (Text.normalize s) ss) (hts : List.Forall₂ Summand.Denotes ss ts) :
    parse s = .ok (.ofTerms ts) := by
  have hend : atBoundary [] = true := rfl
  obtain ⟨hterms, hfault⟩ := ofChars_append hs hts hend
  rw [List.append_nil] at hterms hfault
  rw [parse, ofText, toPoly, hfault, hterms]
  show Except.ok (ofTerms (ts ++ [])) = _
  rw [List.append_nil]

/-- A reading of a text ends with a polynomial or with a fault. -/
theorem parse_run (s : String) :
    (∃ ss ts, PolyText (Text.normalize s) ss ∧ List.Forall₂ Summand.Denotes ss ts ∧
        parse s = .ok (.ofTerms ts)) ∨
      ∃ kind rest, PolyFault (Text.normalize s) kind rest ∧
        parse s = .error (kind.at ((Text.normalize s).length - rest.length)) := by
  rcases ofChars_run (.start : Continues [] [] (Text.normalize s)) .nil with
    ⟨-, ss, hss, hts⟩ | ⟨kind, rest, hfault, hpoly⟩
  · exact Or.inl ⟨ss, _, hss, hts, parse_of_polyText hss hts⟩
  · refine Or.inr ⟨kind, rest, hpoly, ?_⟩
    rw [parse, ofText, toPoly, hfault]

/-- A text is read exactly if its normal form is a polynomial, and then as the sum of the terms that
its summands denote, from left to right. -/
theorem parse_eq_ok_iff (s : String) :
    ((∃ p, parse s = .ok p) ↔ ∃ ss, PolyText (Text.normalize s) ss) ∧
      ∀ p, parse s = .ok p ↔ ∃ ss ts, PolyText (Text.normalize s) ss ∧
        List.Forall₂ Summand.Denotes ss ts ∧ p = .ofTerms ts := by
  have hread : ∀ p, parse s = .ok p ↔ ∃ ss ts, PolyText (Text.normalize s) ss ∧
      List.Forall₂ Summand.Denotes ss ts ∧ p = .ofTerms ts := by
    intro p
    constructor
    · intro hp
      rcases parse_run s with ⟨ss, ts, hss, hts, h⟩ | ⟨kind, rest, -, h⟩
      · rw [hp] at h
        cases h
        exact ⟨ss, ts, hss, hts, rfl⟩
      · rw [hp] at h
        cases h
    · rintro ⟨ss, ts, hss, hts, rfl⟩
      exact parse_of_polyText hss hts
  refine ⟨⟨?_, ?_⟩, hread⟩
  · rintro ⟨p, hp⟩
    obtain ⟨ss, ts, hss, -, -⟩ := (hread p).1 hp
    exact ⟨ss, hss⟩
  · rintro ⟨ss, hss⟩
    obtain ⟨ts, hts⟩ := exists_denotes_of_polyText hss
    exact ⟨_, parse_of_polyText hss hts⟩

end Poly

end SparsePoly
