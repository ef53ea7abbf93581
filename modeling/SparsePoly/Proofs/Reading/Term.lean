import SparsePoly.Proofs.Reading.Grammar

/-!
# Reading a term

The reading of a term is compared with the grammar, in both directions. A summand is read as the
terms that it denotes, if a sign or the end of the text comes behind it (`readTerm_append`). What is
read as a term is a summand that denotes it (`exists_summandText_of_readTerm`), and if nothing can
be read, `TermFault` says which part of a summand comes first (`termFault_of_readTerm`).

The scan for the end of a number does not follow the grammar: it goes over digits, points and marks of
an exponent in any order, with the sign behind a mark, and stops at `AtStop`. So the two directions
need two facts of it, that it takes a number as a whole and that it never skips a character.
-/

namespace SparsePoly.Reading

open Binary64 Numeral

/-! ## The scan of a number -/

/-- Where a term may end, nothing but a sign comes next. -/
theorem head?_ne_of_atBoundary {rest : List Char} (hrest : atBoundary rest = true) {c : Char}
    (hc : isSign c = false) : rest.head? ≠ some c := by
  intro hhead
  obtain ⟨cs, rfl⟩ := List.head?_eq_some_iff.1 hhead
  have hsign : isSign c = true := hrest
  rw [hc] at hsign
  cases hsign

/-- The scan of a number stops in front of the text. -/
def AtStop (rest : List Char) : Prop := ∀ c ∈ rest.head?, isSign c = true ∨ c = '*' ∨ c = 'x'

/-- Where a term may end, the scan of a number stops. -/
theorem atStop_of_atBoundary {rest : List Char} (h : atBoundary rest = true) : AtStop rest := by
  rintro c hc
  obtain ⟨cs, rfl⟩ := List.head?_eq_some_iff.1 hc
  exact Or.inl h

/-- A character is looked at by itself, unless it is the mark of an exponent in front of a sign. -/
theorem scanNumber_cons {c : Char} {cs : List Char}
    (hc : c = 'e' → ∀ d ∈ cs.head?, isSign d = false) :
    scanNumber (c :: cs) =
      if isSign c || c == '*' || c == 'x' then some ([], c :: cs)
      else if c.isDigit || c == '.' || c == 'e' then
        (scanNumber cs).map fun (taken, rest) => (c :: taken, rest)
      else none := by
  rw [scanNumber]
  · rintro cs' rfl rfl
    cases hc rfl '+' rfl
  · rintro cs' rfl rfl
    cases hc rfl '-' rfl

/-- In front of a character that it stops at, the scan takes nothing. -/
theorem scanNumber_of_atStop {rest : List Char} (hrest : AtStop rest) :
    scanNumber rest = some ([], rest) := by
  match rest with
  | [] => rfl
  | c :: cs =>
    have hstop : (isSign c || c == '*' || c == 'x') = true := by simpa [or_assoc] using hrest c rfl
    have hc : c = 'e' → ∀ d ∈ cs.head?, isSign d = false := by
      rintro rfl
      cases hstop
    rw [scanNumber_cons hc, if_pos hstop]

theorem isSign_of_isDigit {c : Char} (hc : c.isDigit = true) : isSign c = false := by
  simp [isSign, ne_of_isDigit hc (d := '+') rfl, ne_of_isDigit hc (d := '-') rfl]

/-- The scan goes on over digits and points. -/
theorem scanNumber_append {taken cs inner rest : List Char}
    (htaken : ∀ a ∈ taken, a.isDigit = true ∨ a = '.') (hcs : scanNumber cs = some (inner, rest)) :
    scanNumber (taken ++ cs) = some (taken ++ inner, rest) := by
  -- on the characters, none of which is the mark of an exponent
  induction taken with
  | nil => exact hcs
  | cons c taken ih =>
    have hscan := ih fun a ha => htaken a (List.mem_cons_of_mem _ ha)
    rw [List.cons_append]
    rcases htaken c List.mem_cons_self with hc | rfl
    · rw [scanNumber_cons fun h => absurd h (ne_of_isDigit hc rfl), hscan, isSign_of_isDigit hc, hc]
      simp [ne_of_isDigit hc (d := '*') rfl, ne_of_isDigit hc (d := 'x') rfl]
    · rw [scanNumber_cons (by simp), hscan]
      rfl

/-- The scan takes the power of ten, with the sign that may be in it. -/
theorem scanNumber_scale {es rest : List Char} {e : ℤ} (hes : Scale es e) (hrest : AtStop rest) :
    scanNumber (es ++ rest) = some (es, rest) := by
  cases hes with
  | none => exact scanNumber_of_atStop hrest
  | some hsign hds =>
    have hscan := scanNumber_append (fun a ha => Or.inl (hds.isDigit a ha))
      (scanNumber_of_atStop hrest)
    rw [List.append_nil] at hscan
    cases hsign with
    | none =>
      obtain ⟨c, cs, rfl, hc, -⟩ := hds.exists_cons
      have hmark : 'e' = 'e' → ∀ d ∈ (c :: cs ++ rest).head?, isSign d = false := by
        rintro - d ⟨⟩
        exact isSign_of_isDigit hc
      rw [List.nil_append, List.cons_append, scanNumber_cons hmark, hscan]
      rfl
    | plus => simp [scanNumber, hscan]
    | minus => simp [scanNumber, hscan]

/-- The scan takes a number, also behind its first character. -/
theorem scanNumber_number {c : Char} {cs rest : List Char} {v : ℚ} (hn : Number (c :: cs) v)
    (hrest : AtStop rest) :
    scanNumber (c :: (cs ++ rest)) = some (c :: cs, rest) ∧
      scanNumber (cs ++ rest) = some (cs, rest) := by
  generalize hns : c :: cs = ns at hn
  obtain ⟨hm, he⟩ := hn
  rename_i ms es m e
  have hscan := scanNumber_scale he hrest
  have hall := hm.isDigit_or
  obtain ⟨d, ds, rfl⟩ := List.exists_cons_of_ne_nil hm.ne_nil
  rw [List.cons_append] at hns
  obtain ⟨rfl, rfl⟩ := List.cons.inj hns
  have htail := scanNumber_append (List.forall_mem_cons.1 hall).2 hscan
  have hwhole := scanNumber_append hall hscan
  rw [List.append_assoc]
  exact ⟨hwhole, htail⟩

/-- The scan skips no character. -/
theorem eq_append_of_scanNumber {cs taken rest : List Char}
    (h : scanNumber cs = some (taken, rest)) : cs = taken ++ rest ∧ AtStop rest := by
  fun_induction scanNumber cs generalizing taken rest with
  | case1 =>
    cases h
    exact ⟨rfl, by simp [AtStop]⟩
  | case2 cs ih =>
    obtain ⟨⟨t, r⟩, ht, h⟩ := Option.map_eq_some_iff.1 h
    cases h
    obtain ⟨rfl, hrest⟩ := ih ht
    exact ⟨rfl, hrest⟩
  | case3 cs ih =>
    obtain ⟨⟨t, r⟩, ht, h⟩ := Option.map_eq_some_iff.1 h
    cases h
    obtain ⟨rfl, hrest⟩ := ih ht
    exact ⟨rfl, hrest⟩
  | case4 c cs _ _ hstop =>
    cases h
    refine ⟨rfl, ?_⟩
    rintro d ⟨⟩
    simpa [or_assoc] using hstop
  | case5 c cs _ _ _ _ ih =>
    obtain ⟨⟨t, r⟩, ht, h⟩ := Option.map_eq_some_iff.1 h
    cases h
    obtain ⟨rfl, hrest⟩ := ih ht
    exact ⟨rfl, hrest⟩
  | case6 => cases h

/-! ## Coefficients -/

/-- A factor is that of a sign alone in front of the variable, or the rounding of a number. -/
theorem factor?_cases {taken rest : List Char} {x : Float} (h : factor? taken rest = some x) :
    (∃ negative, SignText negative taken ∧ rest.head? = some 'x' ∧
        x = if negative then -1 else 1) ∨
      ∃ negative sign ns v, taken = sign ++ ns ∧ SignText negative sign ∧ Number ns v ∧
        IsRounded negative v x := by
  unfold factor? at h
  split at h
  · rename_i hplus
    obtain ⟨hx, rfl⟩ := hplus
    cases h
    exact Or.inl ⟨false, .plus, hx, rfl⟩
  · split at h
    · rename_i hminus
      obtain ⟨hx, rfl⟩ := hminus
      cases h
      exact Or.inl ⟨true, .minus, hx, rfl⟩
    · exact Or.inr (exists_number_of_float? h)

/-- A number behind an optional sign is not a sign alone. -/
theorem factor?_of_number {negative : Bool} {sign ns : List Char} {v : ℚ} {x : Float}
    (hsign : SignText negative sign) (hn : Number ns v) (hx : IsRounded negative v x)
    (rest : List Char) : factor? (sign ++ ns) rest = some x := by
  have hne : ∀ c, isSign c = true → sign ++ ns ≠ [c] := by
    intro c hc
    obtain ⟨d, ds, rfl, hd⟩ := hn.exists_cons
    cases hsign with
    | none =>
      rintro ⟨⟩
      rcases hd with hd | rfl
      · rw [isSign_of_isDigit hd] at hc
        cases hc
      · cases hc
    | plus => simp
    | minus => simp
  have hplus := hne '+' rfl
  have hminus := hne '-' rfl
  rw [factor?, if_neg fun h => hplus h.2, if_neg fun h => hminus h.2, float?_of_number hsign hn hx]

/-- The coefficient that is taken from a text in which a number comes first. -/
theorem coefficient?_append {negative : Bool} {sign ns rest : List Char} {v : ℚ} {x : Float}
    (hsign : SignText negative sign) (hn : Number ns v) (hx : IsRounded negative v x)
    (hrest : AtStop rest) : coefficient? (sign ++ (ns ++ rest)) = some (x, rest) := by
  have hfactor := factor?_of_number hsign hn hx rest
  obtain ⟨c, cs, rfl, -⟩ := hn.exists_cons
  -- the first character is taken unseen, and the others are scanned
  obtain ⟨hwhole, htail⟩ := scanNumber_number hn hrest
  cases hsign with
  | none =>
    rw [List.nil_append] at hfactor
    simp [coefficient?, htail, hfactor]
  | plus =>
    rw [List.singleton_append] at hfactor
    simp [coefficient?, hwhole, hfactor]
  | minus =>
    rw [List.singleton_append] at hfactor
    simp [coefficient?, hwhole, hfactor]

/-- A coefficient takes the characters in front of a stop, and they make its factor. -/
theorem eq_append_of_coefficient? {cs rest : List Char} {x : Float}
    (h : coefficient? cs = some (x, rest)) :
    ∃ taken, cs = taken ++ rest ∧ AtStop rest ∧ factor? taken rest = some x := by
  match cs with
  | [] => cases h
  | c :: cs =>
    simp only [coefficient?, Option.bind_eq_bind, Option.bind_eq_some_iff, Option.pure_def] at h
    obtain ⟨⟨inner, r⟩, hscan, y, hy, h⟩ := h
    cases h
    obtain ⟨rfl, hrest⟩ := eq_append_of_scanNumber hscan
    exact ⟨c :: inner, rfl, hrest, hy⟩

/-- A number, with a sign or without, does not begin with the variable. -/
theorem head?_append_ne_x {negative : Bool} {sign ns : List Char} {v : ℚ}
    (hsign : SignText negative sign) (hn : Number ns v) (rest : List Char) :
    (sign ++ (ns ++ rest)).head? ≠ some 'x' := by
  obtain ⟨c, cs, rfl, hc⟩ := hn.exists_cons
  cases hsign with
  | none =>
    rcases hc with hc | rfl
    · simpa using ne_of_isDigit hc (d := 'x') rfl
    · simp
  | plus => simp
  | minus => simp

/-- A number without `*`. -/
theorem readCoefficient_number {negative : Bool} {sign ns rest : List Char} {v : ℚ} {x : Float}
    (hsign : SignText negative sign) (hn : Number ns v) (hx : IsRounded negative v x)
    (hrest : AtStop rest) (hstar : rest.head? ≠ some '*') :
    readCoefficient (sign ++ (ns ++ rest)) = .ok (x, rest) := by
  rw [readCoefficient, if_neg (head?_append_ne_x hsign hn rest),
    coefficient?_append hsign hn hx hrest]
  match rest with
  | [] => rfl
  | c :: cs =>
    have hc : c ≠ '*' := by simpa using hstar
    simp [hc]

/-- A number in front of the variable. -/
theorem readCoefficient_product {negative : Bool} {sign ns star : List Char} {v : ℚ} {x : Float}
    (hsign : SignText negative sign) (hn : Number ns v) (hx : IsRounded negative v x)
    (hstar : star = [] ∨ star = ['*']) (cs : List Char) :
    readCoefficient (sign ++ (ns ++ (star ++ 'x' :: cs))) = .ok (x, 'x' :: cs) := by
  rcases hstar with rfl | rfl
  · exact readCoefficient_number hsign hn hx (by simp [AtStop]) (by simp)
  · have hrest : AtStop ('*' :: 'x' :: cs) := by simp [AtStop]
    rw [readCoefficient, if_neg (head?_append_ne_x hsign hn _), List.singleton_append,
      coefficient?_append hsign hn hx hrest]
    rfl

/-- The variable with or without a sign. -/
theorem readCoefficient_sign {negative : Bool} {sign : List Char} (hsign : SignText negative sign)
    (cs : List Char) :
    readCoefficient (sign ++ 'x' :: cs) = .ok (if negative then -1 else 1, 'x' :: cs) := by
  have hscan : scanNumber ('x' :: cs) = some ([], 'x' :: cs) := scanNumber_of_atStop (by simp [AtStop])
  cases hsign with
  | none => rfl
  | plus => simp [readCoefficient, coefficient?, hscan, factor?]
  | minus => simp [readCoefficient, coefficient?, hscan, factor?]

/-- What stands in front of the variable, with the sign and the number that it gives to the
summand. -/
inductive FrontText : List Char → Bool → Option ℚ → Prop where
  | number {negative : Bool} {sign ns star : List Char} {v : ℚ} (hsign : SignText negative sign)
      (hn : Number ns v) (hstar : star = [] ∨ star = ['*']) :
      FrontText (sign ++ (ns ++ star)) negative (some v)
  | unit {negative : Bool} {sign : List Char} (hsign : SignText negative sign) :
      FrontText sign negative none

/-- The variable completes a summand. -/
theorem FrontText.append {front vs : List Char} {negative : Bool} {number? : Option ℚ} {e : UInt32}
    (h : FrontText front negative number?) (hv : VariableText vs e) :
    SummandText (front ++ vs) ⟨negative, number?, e⟩ := by
  cases h with
  | number hsign hn hstar =>
    simp only [List.append_assoc]
    exact .intro hsign (.product hn hstar hv)
  | unit hsign => exact .intro hsign (.unit hv)

/-- What is read as a coefficient is a summand without the variable, or the part of a summand in
front of the variable. -/
theorem exists_of_readCoefficient {cs behind : List Char} {x : Float}
    (h : readCoefficient cs = .ok (x, behind)) :
    ∃ front negative number?, cs = front ++ behind ∧
      (∀ e, Summand.Denotes ⟨negative, number?, e⟩ ⟨e, x⟩) ∧
      (SummandText front ⟨negative, number?, 0⟩ ∧ atBoundary behind = true ∨
        FrontText front negative number? ∧ behind.head? = some 'x') := by
  unfold readCoefficient at h
  split at h
  · rename_i hx
    cases h
    exact ⟨[], false, none, rfl, fun _ => .of_unit rfl, Or.inr ⟨.unit .none, hx⟩⟩
  · split at h
    · cases h
    · rename_i hc
      -- a `*` was taken, and the variable comes next
      obtain ⟨taken, rfl, -, hfactor⟩ := eq_append_of_coefficient? hc
      split at h
      · rename_i hx
        cases h
        rcases factor?_cases hfactor with ⟨_, _, hhead, _⟩ | ⟨negative, sign, ns, v, rfl, hsign, hn, hv⟩
        · simp at hhead
        · refine ⟨sign ++ (ns ++ ['*']), negative, some v, by simp, fun _ => .of_isRounded hv,
            Or.inr ⟨?_, hx⟩⟩
          exact .number hsign hn (Or.inr rfl)
      · cases h
    · rename_i hstar hc
      cases h
      obtain ⟨taken, rfl, hstop, hfactor⟩ := eq_append_of_coefficient? hc
      rcases factor?_cases hfactor with ⟨negative, hsign, hhead, hx⟩ |
        ⟨negative, sign, ns, v, rfl, hsign, hn, hv⟩
      · exact ⟨taken, negative, none, rfl, fun _ => .of_unit hx, Or.inr ⟨.unit hsign, hhead⟩⟩
      · refine ⟨sign ++ ns, negative, some v, rfl, fun _ => .of_isRounded hv, ?_⟩
        by_cases hx : behind.head? = some 'x'
        · have hfront := FrontText.number hsign hn (Or.inl rfl)
          rw [List.append_nil] at hfront
          exact Or.inr ⟨hfront, hx⟩
        · -- neither `*` nor the variable comes next, so the scan has stopped at a sign
          refine Or.inl ⟨.intro hsign (.number hn), ?_⟩
          match behind with
          | [] => rfl
          | c :: cs =>
            rcases hstop c rfl with hc | rfl | rfl
            · exact hc
            · exact absurd rfl (hstar _)
            · exact absurd rfl hx

/-! ## Exponents -/

/-- Where a term may end, no digit comes next. -/
theorem not_isDigit_of_atBoundary {rest : List Char} (hrest : atBoundary rest = true) :
    ∀ c ∈ rest.head?, ¬ c.isDigit = true := by
  intro c hc hdigit
  exact head?_ne_of_atBoundary hrest (isSign_of_isDigit hdigit) hc

/-- An exponent in front of a boundary is taken as a whole. -/
theorem exponent?_append {ps rest : List Char} {e : UInt32} (hp : Exponent ps e)
    (hrest : atBoundary rest = true) : exponent? (ps ++ rest) = some (e, rest) := by
  have hvalue := exponent?_of_exponent hp
  -- the first character may be a sign, and the others are digits
  obtain ⟨c, cs, rfl, hcs⟩ : ∃ c cs, ps = c :: cs ∧ ∀ a ∈ cs, a.isDigit = true := by
    obtain ⟨hplus, hds, -⟩ := hp
    cases hplus with
    | none =>
      obtain ⟨c, cs, rfl, -, hcs⟩ := hds.exists_cons
      exact ⟨c, cs, rfl, hcs⟩
    | plus => exact ⟨'+', _, rfl, hds.isDigit⟩
  obtain ⟨htake, hdrop⟩ := takeWhile_append_of_all rest hcs (not_isDigit_of_atBoundary hrest)
  rw [List.cons_append, exponent?]
  simp only [htake, hdrop]
  rw [if_pos hrest, hvalue, Option.map_some]

/-- What an exponent takes is one, and it ends at a boundary. -/
theorem eq_append_of_exponent? {cs rest : List Char} {e : UInt32}
    (h : exponent? cs = some (e, rest)) :
    ∃ ps, cs = ps ++ rest ∧ Exponent ps e ∧ atBoundary rest = true := by
  match cs with
  | [] => cases h
  | c :: cs =>
    simp only [exponent?] at h
    split at h
    · rename_i hrest
      obtain ⟨e', he, h⟩ := Option.map_eq_some_iff.1 h
      cases h
      refine ⟨c :: cs.takeWhile Char.isDigit, ?_, exponent_of_exponent? he, hrest⟩
      rw [List.cons_append, List.takeWhile_append_dropWhile]
    · cases h

/-- The variable with its exponent is read as the exponent. -/
theorem readExponent_append {vs rest : List Char} {e : UInt32} (hv : VariableText vs e)
    (hrest : atBoundary rest = true) : readExponent (vs ++ rest) = .ok (e, rest) := by
  cases hv with
  | bare =>
    match rest with
    | [] => rfl
    | c :: cs =>
      have hc : c ≠ '^' := by simpa using head?_ne_of_atBoundary hrest (c := '^') rfl
      simp [readExponent, hc]
  | power hp => simp only [List.cons_append, readExponent, exponent?_append hp hrest]

/-- Without the variable, the exponent is zero. -/
theorem readExponent_of_ne {cs : List Char} (hcs : cs.head? ≠ some 'x') :
    readExponent cs = .ok (0, cs) := by
  unfold readExponent
  split
  · simp at hcs
  · simp at hcs
  · rfl

/-- What is read as an exponent in front of the variable is the variable with its exponent. The
variable alone is read whatever comes behind it. -/
theorem exists_variableText_of_readExponent {cs rest : List Char} {e : UInt32}
    (h : readExponent cs = .ok (e, rest)) (hx : cs.head? = some 'x') :
    ∃ vs, cs = vs ++ rest ∧ VariableText vs e ∧
      (atBoundary rest = true ∨ vs = ['x'] ∧ rest.head? ≠ some '^') := by
  unfold readExponent at h
  split at h
  · split at h
    · rename_i hexponent
      cases h
      obtain ⟨ps, rfl, hp, hrest⟩ := eq_append_of_exponent? hexponent
      exact ⟨_, rfl, .power hp, Or.inl hrest⟩
    · cases h
  · rename_i hpower
    cases h
    refine ⟨['x'], rfl, .bare, Or.inr ⟨rfl, fun hhead => ?_⟩⟩
    obtain ⟨cs', rfl⟩ := List.head?_eq_some_iff.1 hhead
    exact hpower cs' rfl
  · rename_i hne
    obtain ⟨cs', rfl⟩ := List.head?_eq_some_iff.1 hx
    exact absurd rfl (hne cs')

/-! ## Terms -/

/-- A term is its coefficient and, behind that, its exponent. -/
theorem readTerm_eq_ok_iff {cs rest : List Char} {t : Term Float} :
    readTerm cs = .ok (t, rest) ↔ ∃ x behind e, readCoefficient cs = .ok (x, behind) ∧
      readExponent behind = .ok (e, rest) ∧ t = ⟨e, x⟩ := by
  unfold readTerm
  cases readCoefficient cs with
  | error f => simp [bind, Except.bind]
  | ok found =>
    obtain ⟨x, behind⟩ := found
    cases hexponent : readExponent behind with
    | error f => simp [bind, Except.bind, hexponent]
    | ok found =>
      obtain ⟨e, rest'⟩ := found
      simp [bind, Except.bind, pure, Except.pure, hexponent, eq_comm, and_comm]

/-- The fault of a term is that of its coefficient or of its exponent. -/
theorem readTerm_eq_error_iff {cs : List Char} {fault : FaultKind × List Char} :
    readTerm cs = .error fault ↔ readCoefficient cs = .error fault ∨
      ∃ x behind, readCoefficient cs = .ok (x, behind) ∧ readExponent behind = .error fault := by
  unfold readTerm
  cases readCoefficient cs with
  | error f => simp [bind, Except.bind]
  | ok found =>
    obtain ⟨x, behind⟩ := found
    cases hexponent : readExponent behind with
    | error f => simp [bind, Except.bind, hexponent]
    | ok found => simp [bind, Except.bind, pure, Except.pure, hexponent]

/-- A summand is read as the term that it denotes. -/
theorem readTerm_append {text rest : List Char} {s : Summand} {t : Term Float}
    (h : SummandText text s) (ht : s.Denotes t) (hrest : atBoundary rest = true) :
    readTerm (text ++ rest) = .ok (t, rest) := by
  obtain ⟨e, x⟩ := t
  obtain ⟨hsign, hbody⟩ := h
  obtain ⟨he, hrounded, hunit⟩ := ht
  rw [List.append_assoc]
  -- the three forms of a body: a number alone, a number with the variable, and the variable alone
  cases hbody with
  | number hn =>
    obtain rfl : e = 0 := he
    have hstar := head?_ne_of_atBoundary hrest (c := '*') rfl
    have hx := head?_ne_of_atBoundary hrest (c := 'x') rfl
    have hcoefficient := readCoefficient_number hsign hn (hrounded _ rfl)
      (atStop_of_atBoundary hrest) hstar
    exact readTerm_eq_ok_iff.2 ⟨_, _, _, hcoefficient, readExponent_of_ne hx, rfl⟩
  | product hn hstar hv =>
    obtain rfl : e = _ := he
    have hexponent := readExponent_append hv hrest
    obtain ⟨cs, rfl⟩ := hv.exists_cons
    have hcoefficient := readCoefficient_product hsign hn (hrounded _ rfl) hstar (cs ++ rest)
    simp only [List.append_assoc]
    exact readTerm_eq_ok_iff.2 ⟨_, _, _, hcoefficient, hexponent, rfl⟩
  | unit hv =>
    obtain rfl : e = _ := he
    have hexponent := readExponent_append hv hrest
    obtain ⟨cs, rfl⟩ := hv.exists_cons
    obtain rfl := hunit rfl
    exact readTerm_eq_ok_iff.2 ⟨_, _, _, readCoefficient_sign hsign (cs ++ rest), hexponent, rfl⟩

/-- What is read as a term is a summand that denotes it. The reading stops at a sign, at the end of the
text, or behind the variable. -/
theorem exists_summandText_of_readTerm {cs rest : List Char} {t : Term Float}
    (h : readTerm cs = .ok (t, rest)) :
    ∃ text s, cs = text ++ rest ∧ SummandText text s ∧ s.Denotes t ∧
      (atBoundary rest = true ∨ (∃ front, text = front ++ ['x']) ∧ rest.head? ≠ some '^') := by
  obtain ⟨x, behind, e, hcoefficient, hexponent, rfl⟩ := readTerm_eq_ok_iff.1 h
  obtain ⟨front, negative, number?, rfl, hdenotes, htext⟩ := exists_of_readCoefficient hcoefficient
  rcases htext with ⟨htext, hboundary⟩ | ⟨hfront, hx⟩
  · -- no variable
    rw [readExponent_of_ne (head?_ne_of_atBoundary hboundary rfl)] at hexponent
    cases hexponent
    exact ⟨front, _, rfl, htext, hdenotes 0, Or.inl hboundary⟩
  · obtain ⟨vs, rfl, hv, hrest⟩ := exists_variableText_of_readExponent hexponent hx
    refine ⟨front ++ vs, _, by rw [List.append_assoc], hfront.append hv, hdenotes e, ?_⟩
    rcases hrest with hrest | ⟨rfl, hrest⟩
    · exact Or.inl hrest
    · exact Or.inr ⟨⟨front, rfl⟩, hrest⟩

/-- A text in front of which no term can be read, with the fault and what is left where it lies. -/
inductive TermFault : List Char → FaultKind → List Char → Prop where
  | coefficient {cs : List Char} : TermFault cs .coefficient cs
  | star {text cs : List Char} {s : Summand} (h : SummandText text s)
      (hx : cs.head? ≠ some 'x') : TermFault (text ++ '*' :: cs) .operator cs
  | exponent {front cs : List Char} {s : Summand} (h : SummandText (front ++ ['x']) s) :
      TermFault (front ++ 'x' :: '^' :: cs) .exponent cs

/-- A coefficient that cannot be read is at fault where it begins, or behind its `*`. -/
theorem termFault_of_readCoefficient {cs rest : List Char} {kind : FaultKind}
    (h : readCoefficient cs = .error (kind, rest)) : TermFault cs kind rest := by
  unfold readCoefficient at h
  split at h
  · cases h
  · split at h
    · cases h
      exact .coefficient
    · rename_i hc
      obtain ⟨taken, rfl, -, hfactor⟩ := eq_append_of_coefficient? hc
      split at h
      · cases h
      · rename_i hx
        cases h
        rcases factor?_cases hfactor with ⟨_, _, hhead, _⟩ | ⟨_, sign, ns, _, rfl, hsign, hn, _⟩
        · simp at hhead
        · exact .star (.intro hsign (.number hn)) hx
    · cases h

/-- An exponent that cannot be read is at fault behind the mark `^`. -/
theorem eq_of_readExponent {cs rest : List Char} {kind : FaultKind}
    (h : readExponent cs = .error (kind, rest)) : kind = .exponent ∧ cs = 'x' :: '^' :: rest := by
  unfold readExponent at h
  split at h
  · split at h
    · cases h
    · cases h
      exact ⟨rfl, rfl⟩
  · cases h
  · cases h

/-- If no term can be read, the part of the text in front of the fault is part of a summand. -/
theorem termFault_of_readTerm {cs rest : List Char} {kind : FaultKind}
    (h : readTerm cs = .error (kind, rest)) : TermFault cs kind rest := by
  rcases readTerm_eq_error_iff.1 h with hcoefficient | ⟨x, behind, hcoefficient, hexponent⟩
  · exact termFault_of_readCoefficient hcoefficient
  · obtain ⟨rfl, rfl⟩ := eq_of_readExponent hexponent
    obtain ⟨front, negative, number?, rfl, -, htext⟩ := exists_of_readCoefficient hcoefficient
    rcases htext with ⟨-, hboundary⟩ | ⟨hfront, -⟩
    · cases hboundary
    · exact .exponent (hfront.append .bare)

end SparsePoly.Reading
