import SparsePoly.Event
import SparsePoly.Proofs.Reading.Language

/-!
# Reading with a cursor

A text may be read with a cursor, which is a place in its characters, instead of by what is left of it.
The cursor is moved on wherever a character is expected, in front of the end of the text or not, and
what makes up a coefficient or an exponent is cut out between the place where it begins and the cursor.
The functions take it on trust that the cursor stays within the text and gets on: a part may be asked
for that the text does not have (`Halt.outside`), at the end of a text a term is read that takes
nothing, and a reading that takes more calls for a term than it is given has no result (`readFrom`).

On a text that is read from its beginning none of that happens. The functions do with the cursor what
those of `Reading` do with what is left at its place (`At`), one lemma for each of them: `scanNumber_eq`
and `coefficient_eq`, `scanDigits_eq` and `exponent_eq`, `term_eq` for a term, and `readFrom_eq` and
`read_eq` for all of them. The last two show that one call for each character is enough.
-/

namespace SparsePoly

namespace Reading.Cursor

/-- What ends a reading early. -/
inductive Halt where
  /-- The text has a fault. -/
  | fault (f : Fault)
  /-- The part of the text between two places was asked for, and there is no such part. -/
  | outside (start stop : ℕ)

section Functions

variable (n : List Char)

/-- The part of the text from the place `start` up to the place `stop`. -/
def slice (start stop : ℕ) : Except Halt (List Char) :=
  if start ≤ stop ∧ stop ≤ n.length then .ok (n.extract start stop) else .error (.outside start stop)

/-- Moves over the inner characters of the coefficient that begins at `start`. -/
def scanNumber (start pos : ℕ) : Except Halt ℕ :=
  match h : n[pos]? with
  | none => .ok pos
  | some c =>
    if isSign c || c == '*' || c == 'x' then .ok pos
    else if c.isDigit || c == '.' then scanNumber start (pos + 1)
    else if c == 'e' then
      if n[pos + 1]?.any isSign then scanNumber start (pos + 1 + 1) else scanNumber start (pos + 1)
    else .error (.fault (.coefficient start))
termination_by n.length - pos
decreasing_by
  all_goals
    have hlt := (List.getElem?_eq_some_iff.1 h).1
    omega

/-- The coefficient that begins at `start`, with the place behind it. Its first character is taken
unseen. -/
def coefficient (start : ℕ) : Except Halt (Float × ℕ) := do
  let pos ← scanNumber n start (start + 1)
  let taken ← slice n start pos
  if n[pos]? = some 'x' ∧ taken = ['+'] then .ok (1, pos)
  else if n[pos]? = some 'x' ∧ taken = ['-'] then .ok (-1, pos)
  else
    match Numeral.float? taken with
    | some x => .ok (x, pos)
    | none => .error (.fault (.coefficient start))

/-- The coefficient of a term, with the place behind it and behind `*`: `1` in front of the variable,
and at the end of the text. -/
def termCoefficient (pos : ℕ) : Except Halt (Float × ℕ) :=
  if n[pos]?.any (· != 'x') then do
    let (x, pos) ← coefficient n pos
    if n[pos]? = some '*' then
      if n[pos + 1]? = some 'x' then .ok (x, pos + 1)
      else .error (.fault (.operator (pos + 1)))
    else .ok (x, pos)
  else .ok (1, pos)

/-- Moves over the inner characters of the exponent that begins at `start`. -/
def scanDigits (start pos : ℕ) : Except Halt ℕ :=
  match h : n[pos]? with
  | none => .ok pos
  | some c =>
    if isSign c then .ok pos
    else if c.isDigit then scanDigits start (pos + 1)
    else .error (.fault (.exponent start))
termination_by n.length - pos
decreasing_by
  have hlt := (List.getElem?_eq_some_iff.1 h).1
  omega

/-- The exponent that begins at `start`, with the place behind it. Its first character is taken unseen,
if there is one. -/
def exponent (start : ℕ) : Except Halt (UInt32 × ℕ) := do
  let pos ← scanDigits n start (min (start + 1) n.length)
  let taken ← slice n start pos
  match Numeral.exponent? taken with
  | some e => .ok (e, pos)
  | none => .error (.fault (.exponent start))

/-- The exponent of a term, with the place behind it. -/
def termExponent (pos : ℕ) : Except Halt (UInt32 × ℕ) :=
  if n[pos]? = some 'x' then
    if n[pos + 1]? = some '^' then exponent n (pos + 1 + 1) else .ok (1, pos + 1)
  else .ok (0, pos)

/-- A term, with the place behind it. -/
def term (pos : ℕ) : Except Halt (Term Float × ℕ) := do
  let (x, pos) ← termCoefficient n pos
  let (e, pos) ← termExponent n pos
  return (⟨e, x⟩, pos)

/-- What a reading ends with. -/
structure Run where
  /-- The events of reading a term. -/
  events : List Event
  /-- The polynomial, or what ended the reading early. -/
  result : Except Halt (Poly Float)

/-- Reads terms from the place `pos` on, on top of a polynomial. A reading with more than the given
number of calls for a term has no result. -/
def readFrom (calls pos : ℕ) (p : Poly Float) : Option Run :=
  match calls with
  | 0 => none
  | calls + 1 =>
    match term n pos with
    | .error halt => some ⟨[], .error halt⟩
    | .ok (t, pos) =>
      let event := Event.termRead t pos
      let p := p.addTerm t
      match n[pos]? with
      | none => some ⟨[event], .ok p⟩
      | some c =>
        if isSign c then (readFrom calls pos p).map fun r => ⟨event :: r.events, r.result⟩
        else some ⟨[event], .error (.fault (.operator pos))⟩

/-- Reads a polynomial from the beginning of the text on, which must not be empty. -/
def read (calls : ℕ) : Option Run :=
  if n = [] then some ⟨[], .error (.fault (.coefficient 0))⟩ else readFrom n calls 0 0

end Functions

/-! ## The cursor and what is left -/

/-- What is left of the text `n` at the place `pos` is `rest`. -/
structure At (n : List Char) (pos : ℕ) (rest : List Char) : Prop where
  /-- The place is in the text or at its end. -/
  le_length : pos ≤ n.length
  /-- The text goes on with what is left. -/
  drop_eq : n.drop pos = rest

section At

variable {n taken rest : List Char} {pos : ℕ}

theorem At.start (n : List Char) : At n 0 n := ⟨Nat.zero_le _, rfl⟩

/-- The place and the number of characters that are left make up the text. -/
theorem At.add_length (h : At n pos rest) : pos + rest.length = n.length := by
  have hle := h.le_length
  rw [← h.drop_eq, List.length_drop]
  omega

/-- The place from what is left. With it, what is read from what is left gets its place. -/
theorem At.pos_eq (h : At n pos rest) : n.length - rest.length = pos := by
  have hlength := h.add_length
  omega

/-- The character at the cursor is the first one that is left. -/
theorem At.getElem? (h : At n pos rest) : n[pos]? = rest.head? := by
  rw [← h.drop_eq, List.head?_drop]

/-- The cursor moves over what is taken. -/
theorem At.move (h : At n pos (taken ++ rest)) : At n (pos + taken.length) rest := by
  have hlength := h.add_length
  rw [List.length_append] at hlength
  exact ⟨by omega, by rw [← List.drop_drop, h.drop_eq, List.drop_left]⟩

/-- The place in front of what is left when something is taken. -/
theorem At.behind (h : At n pos (taken ++ rest)) : At n (n.length - rest.length) rest := by
  rw [h.move.pos_eq]
  exact h.move

theorem At.next {c : Char} (h : At n pos (c :: rest)) : At n (pos + 1) rest := by
  rw [← List.singleton_append] at h
  exact h.move

/-- The part between two places of the cursor is what was taken. -/
theorem At.slice (h : At n pos (taken ++ rest)) :
    slice n pos (pos + taken.length) = .ok taken := by
  rw [Cursor.slice, if_pos ⟨Nat.le_add_right _ _, h.move.le_length⟩, List.extract_eq_take_drop,
    h.drop_eq, Nat.add_sub_cancel_left, List.take_left]

end At

/-- What was read, with places instead of what is left of the text `n`. -/
def located {β : Type*} (n : List Char) :
    Except (FaultKind × List Char) (β × List Char) → Except Halt (β × ℕ)
  | .ok (b, rest) => .ok (b, n.length - rest.length)
  | .error (kind, rest) => .error (.fault (kind.at (n.length - rest.length)))

section Equations

variable {n cs : List Char} {pos : ℕ}

/-! ## Coefficients -/

/-- One look at the character at the cursor. -/
theorem scanNumber_step (n : List Char) (start pos : ℕ) :
    scanNumber n start pos =
      match n[pos]? with
      | none => .ok pos
      | some c =>
        if isSign c || c == '*' || c == 'x' then .ok pos
        else if c.isDigit || c == '.' then scanNumber n start (pos + 1)
        else if c == 'e' then
          if n[pos + 1]?.any isSign then scanNumber n start (pos + 1 + 1)
          else scanNumber n start (pos + 1)
        else .error (.fault (.coefficient start)) := by
  rw [scanNumber]
  split <;> rename_i h <;> rw [h]

theorem scanNumber_nil (start : ℕ) (h : At n pos []) : scanNumber n start pos = .ok pos := by
  rw [scanNumber_step, h.getElem?]
  rfl

/-- The cursor looks at the next character, and at the one behind it if that is the mark of an
exponent. -/
theorem scanNumber_cons {c : Char} (start : ℕ) (h : At n pos (c :: cs)) :
    scanNumber n start pos =
      if isSign c || c == '*' || c == 'x' then .ok pos
      else if c.isDigit || c == '.' then scanNumber n start (pos + 1)
      else if c == 'e' then
        if cs.head?.any isSign then scanNumber n start (pos + 1 + 1)
        else scanNumber n start (pos + 1)
      else .error (.fault (.coefficient start)) := by
  rw [scanNumber_step, h.getElem?, h.next.getElem?]
  rfl

/-- The mark of an exponent takes a sign with it. -/
theorem scanNumber_mark {c : Char} (start : ℕ) (h : At n pos ('e' :: c :: cs))
    (hc : isSign c = true) : scanNumber n start pos = scanNumber n start (pos + 1 + 1) := by
  have hnext : (c :: cs).head?.any isSign = true := hc
  rw [scanNumber_cons start h, hnext]
  rfl

/-- The other inner characters of a coefficient are taken one by one. -/
theorem scanNumber_of_inner {c : Char} (start : ℕ) (h : At n pos (c :: cs))
    (hstop : ¬ (isSign c || c == '*' || c == 'x') = true)
    (hin : (c.isDigit || c == '.' || c == 'e') = true)
    (hc : c = 'e' → ∀ d ∈ cs.head?, isSign d = false) :
    scanNumber n start pos = scanNumber n start (pos + 1) := by
  rw [scanNumber_cons start h, if_neg hstop]
  split
  · rfl
  · rename_i hdigit
    obtain rfl : c = 'e' := by simpa [hdigit] using hin
    have hnext : cs.head?.any isSign = false := by
      cases cs with
      | nil => rfl
      | cons d ds => exact hc rfl d rfl
    simp [hnext]

/-- The cursor moves over the inner characters of a coefficient. -/
theorem scanNumber_eq (start : ℕ) (h : At n pos cs) :
    scanNumber n start pos =
      match Reading.scanNumber cs with
      | some (_, rest) => .ok (n.length - rest.length)
      | none => .error (.fault (.coefficient start)) := by
  -- along the scan of what is left, which takes a mark and its sign in one step as the cursor does
  fun_induction Reading.scanNumber cs generalizing pos with
  | case1 =>
    rw [scanNumber_nil start h]
    exact congrArg Except.ok h.pos_eq.symm
  | case2 cs ih =>
    rw [scanNumber_mark start h rfl, ih h.next.next]
    cases Reading.scanNumber cs <;> rfl
  | case3 cs ih =>
    rw [scanNumber_mark start h rfl, ih h.next.next]
    cases Reading.scanNumber cs <;> rfl
  | case4 c cs _ _ hstop =>
    rw [scanNumber_cons start h, if_pos hstop]
    exact congrArg Except.ok h.pos_eq.symm
  | case5 c cs hplus hminus hstop hin ih =>
    have hc : c = 'e' → ∀ d ∈ cs.head?, isSign d = false := by
      rintro rfl d hd
      obtain ⟨ds, rfl⟩ := List.head?_eq_some_iff.1 hd
      have hplus' : d ≠ '+' := fun hd => hplus ds rfl (hd ▸ rfl)
      have hminus' : d ≠ '-' := fun hd => hminus ds rfl (hd ▸ rfl)
      simp [isSign, hplus', hminus']
    rw [scanNumber_of_inner start h hstop hin hc, ih h.next]
    cases Reading.scanNumber cs <;> rfl
  | case6 c cs _ _ hstop hin =>
    have hout : ¬ (c.isDigit || c == '.') = true ∧ ¬ (c == 'e') = true := by
      simpa [not_or, and_assoc] using hin
    rw [scanNumber_cons start h, if_neg hstop, if_neg hout.1, if_neg hout.2]

/-- The coefficient in front of the cursor. -/
theorem coefficient_eq (h : At n pos cs) (hne : cs ≠ []) :
    coefficient n pos =
      match coefficient? cs with
      | some (x, rest) => .ok (x, n.length - rest.length)
      | none => .error (.fault (.coefficient pos)) := by
  obtain ⟨c, cs, rfl⟩ := List.exists_cons_of_ne_nil hne
  have hscan := scanNumber_eq pos h.next
  cases hinner : Reading.scanNumber cs with
  | none =>
    rw [hinner] at hscan
    simp [coefficient, coefficient?, hscan, hinner, bind, Except.bind]
  | some found =>
    obtain ⟨inner, rest⟩ := found
    obtain ⟨rfl, -⟩ := eq_append_of_scanNumber hinner
    rw [hinner] at hscan
    -- what was taken is what the scan has taken, behind the first character
    have hbehind : At n (pos + (c :: inner).length) rest := h.move
    have hslice : slice n pos (pos + (c :: inner).length) = .ok (c :: inner) := At.slice h
    have hhead := hbehind.getElem?
    simp only [hbehind.pos_eq] at hscan
    simp only [coefficient, coefficient?, hscan, hinner, hslice, hhead, bind, Except.bind,
      Option.bind_some, factor?]
    rw [← hbehind.pos_eq]
    split
    · rfl
    · split
      · rfl
      · cases Numeral.float? (c :: inner) <;> rfl

/-- The coefficient of a term. -/
theorem termCoefficient_eq (h : At n pos cs) (hne : cs ≠ []) :
    termCoefficient n pos = located n (readCoefficient cs) := by
  have hhead := h.getElem?
  obtain ⟨c, cs, rfl⟩ := List.exists_cons_of_ne_nil hne
  rw [List.head?_cons] at hhead
  by_cases hx : c = 'x'
  · have hread : readCoefficient (c :: cs) = .ok (1, c :: cs) := by simp [readCoefficient, hx]
    rw [hread, located, h.pos_eq, termCoefficient, hhead, hx]
    rfl
  · have hany : (some c).any (· != 'x') = true := by simpa using hx
    have hcoefficient := coefficient_eq h hne
    rw [termCoefficient, hhead, if_pos hany, readCoefficient, if_neg (by simpa using hx)]
    cases hfound : coefficient? (c :: cs) with
    | none =>
      rw [hfound] at hcoefficient
      simp only [hcoefficient, bind, Except.bind, located, h.pos_eq, FaultKind.at]
    | some found =>
      obtain ⟨x, rest⟩ := found
      obtain ⟨taken, htaken, -, -⟩ := eq_append_of_coefficient? hfound
      rw [htaken] at h
      have hbehind := h.behind
      rw [hfound] at hcoefficient
      simp only [hcoefficient, bind, Except.bind, hbehind.getElem?]
      by_cases hstar : rest.head? = some '*'
      · -- the variable has to follow
        obtain ⟨rest, rfl⟩ := List.head?_eq_some_iff.1 hstar
        rw [if_pos hstar, hbehind.next.getElem?, ← hbehind.next.pos_eq]
        split
        · rename_i hx
          simp only [hx, if_true, located]
        · rename_i hx
          simp only [hx, if_false, located, FaultKind.at]
      · rw [if_neg hstar]
        cases rest with
        | nil => rfl
        | cons d ds =>
          have hd : d ≠ '*' := by simpa using hstar
          simp [hd, located]

/-! ## Exponents -/

/-- One look at the character at the cursor. -/
theorem scanDigits_step (n : List Char) (start pos : ℕ) :
    scanDigits n start pos =
      match n[pos]? with
      | none => .ok pos
      | some c =>
        if isSign c then .ok pos
        else if c.isDigit then scanDigits n start (pos + 1)
        else .error (.fault (.exponent start)) := by
  rw [scanDigits]
  split <;> rename_i h <;> rw [h]

/-- The cursor moves over digits. -/
theorem scanDigits_eq (start : ℕ) (h : At n pos cs) :
    scanDigits n start pos =
      if atBoundary (cs.dropWhile Char.isDigit) then .ok (pos + (cs.takeWhile Char.isDigit).length)
      else .error (.fault (.exponent start)) := by
  induction cs generalizing pos with
  | nil =>
    rw [scanDigits_step, h.getElem?]
    rfl
  | cons c cs ih =>
    rw [scanDigits_step, h.getElem?, List.head?_cons]
    dsimp only
    by_cases hdigit : c.isDigit = true
    · rw [if_neg (by simp [isSign_of_isDigit hdigit]), if_pos hdigit, ih h.next,
        List.dropWhile_cons_of_pos hdigit, List.takeWhile_cons_of_pos hdigit, List.length_cons,
        Nat.add_assoc, Nat.add_comm 1]
    · rw [List.dropWhile_cons_of_neg hdigit, List.takeWhile_cons_of_neg hdigit, if_neg hdigit]
      rfl

/-- The exponent in front of the cursor. -/
theorem exponent_eq (h : At n pos cs) :
    exponent n pos =
      match exponent? cs with
      | some (e, rest) => .ok (e, n.length - rest.length)
      | none => .error (.fault (.exponent pos)) := by
  cases cs with
  | nil =>
    -- the first character is not there, and nothing is taken
    have hend : pos = n.length := h.add_length
    have hmin : min (pos + 1) n.length = pos := by omega
    have hscan : scanDigits n pos pos = .ok pos := scanDigits_eq pos h
    have hslice : slice n pos (pos + [].length) = .ok [] := At.slice h
    rw [exponent, hmin]
    simp only [hscan, show slice n pos pos = .ok [] from hslice, bind, Except.bind]
    rfl
  | cons c cs =>
    have hmin : min (pos + 1) n.length = pos + 1 := Nat.min_eq_left h.next.le_length
    have hscan := scanDigits_eq pos h.next
    rw [exponent, hmin, exponent?]
    split at hscan
    · rename_i hboundary
      have htaken : c :: cs = (c :: cs.takeWhile Char.isDigit) ++ cs.dropWhile Char.isDigit := by
        rw [List.cons_append, List.takeWhile_append_dropWhile]
      rw [htaken] at h
      have hslice := h.slice
      have hplace := h.move.pos_eq
      rw [List.length_cons, Nat.add_comm _ 1, ← Nat.add_assoc] at hslice hplace
      simp only [hscan, bind, Except.bind, hslice, hboundary, if_true]
      rw [← hplace]
      cases Numeral.exponent? (c :: cs.takeWhile Char.isDigit) <;> rfl
    · rename_i hboundary
      simp only [hscan, bind, Except.bind, hboundary]
      rfl

/-- The exponent of a term. -/
theorem termExponent_eq (h : At n pos cs) : termExponent n pos = located n (readExponent cs) := by
  rw [termExponent, h.getElem?]
  split
  · rename_i hx
    obtain ⟨cs, rfl⟩ := List.head?_eq_some_iff.1 hx
    have hbehind := h.next
    rw [hbehind.getElem?]
    split
    · rename_i hpower
      obtain ⟨cs, rfl⟩ := List.head?_eq_some_iff.1 hpower
      rw [exponent_eq hbehind.next, readExponent]
      cases exponent? cs with
      | none => simp only [located, FaultKind.at, hbehind.next.pos_eq]
      | some found => rfl
    · rename_i hpower
      have hread : readExponent ('x' :: cs) = .ok (1, cs) := by
        rw [readExponent]
        rintro cs rfl
        exact hpower rfl
      rw [hread, located, hbehind.pos_eq]
  · rename_i hx
    rw [readExponent_of_ne hx, located, h.pos_eq]

/-! ## Terms -/

/-- The cursor reads the term that is read from what is left. -/
theorem term_eq (h : At n pos cs) (hne : cs ≠ []) : term n pos = located n (readTerm cs) := by
  rw [term, termCoefficient_eq h hne]
  cases hcoefficient : readCoefficient cs with
  | error fault =>
    rw [readTerm_eq_error_iff.2 (.inl hcoefficient)]
    rfl
  | ok found =>
    obtain ⟨x, behind⟩ := found
    obtain ⟨front, -, -, rfl, -⟩ := exists_of_readCoefficient hcoefficient
    have hexponent := termExponent_eq h.behind
    cases hread : readExponent behind with
    | error fault =>
      rw [hread] at hexponent
      rw [readTerm_eq_error_iff.2 (.inr ⟨x, behind, hcoefficient, hread⟩)]
      simp only [located, bind, Except.bind, hexponent]
    | ok found =>
      obtain ⟨e, rest⟩ := found
      rw [hread] at hexponent
      rw [readTerm_eq_ok_iff.2 ⟨x, behind, e, hcoefficient, hread, rfl⟩]
      simp only [located, bind, Except.bind, hexponent]
      rfl

end Equations

/-! ## Runs -/

/-- The run of the cursor, on top of a polynomial, that goes with a reading of what is left. -/
def Run.ofReading (n : List Char) (p : Poly Float) (r : Reading) : Run where
  events := (r.stops n.length).map fun (t, stop) => .termRead t stop
  result :=
    match r.fault? with
    | some (kind, rest) => .error (.fault (kind.at (n.length - rest.length)))
    | none => .ok (p.extend (r.terms.map Prod.fst))

/-- The cursor reads what is read from what is left. Each term takes a character, so there are enough
calls if there is one for each character. -/
theorem readFrom_eq {n cs : List Char} {pos calls : ℕ} (h : At n pos cs) (hne : cs ≠ [])
    (hcalls : cs.length ≤ calls + 1) (p : Poly Float) :
    readFrom n (calls + 1) pos p = some (.ofReading n p (ofChars cs)) := by
  -- on the reading: a term that takes a character leaves enough calls for those behind it
  fun_induction ofChars cs generalizing pos calls p with
  | case1 cs fault hread =>
    rw [readFrom, term_eq h hne, hread]
    rfl
  | case2 cs t hread =>
    obtain ⟨text, -, rfl, -⟩ := exists_summandText_of_readTerm hread
    rw [readFrom, term_eq h hne, hread]
    simp only [located, h.behind.getElem?]
    rfl
  | case3 cs t rest hread hlt hrest hboundary later =>
    rename_i ih
    obtain ⟨text, -, rfl, -⟩ := exists_summandText_of_readTerm hread
    have hpos := List.length_pos_of_ne_nil hrest
    obtain ⟨calls, rfl⟩ : ∃ m, calls = m + 1 := Nat.exists_eq_succ_of_ne_zero (by omega)
    have hcalls' : rest.length ≤ calls + 1 := by omega
    have hlater := ih h.behind hrest hcalls' (p.addTerm t)
    obtain ⟨c, rest, rfl⟩ := List.exists_cons_of_ne_nil hrest
    have hsign : isSign c = true := hboundary
    rw [readFrom, term_eq h hne, hread]
    simp only [located, h.behind.getElem?, List.head?_cons, hsign, if_true, hlater]
    rfl
  | case4 cs t rest hread hlt hrest hboundary =>
    obtain ⟨text, -, rfl, -⟩ := exists_summandText_of_readTerm hread
    obtain ⟨c, rest, rfl⟩ := List.exists_cons_of_ne_nil hrest
    have hsign : ¬ isSign c = true := hboundary
    rw [readFrom, term_eq h hne, hread]
    simp only [located, h.behind.getElem?, List.head?_cons, hsign]
    rfl

/-- The cursor reads a text from its beginning on as it is read from what is left. -/
theorem read_eq (n : List Char) {calls : ℕ} (hcalls : n.length ≤ calls) :
    read n calls = some (.ofReading n 0 (ofChars n)) := by
  by_cases hne : n = []
  · subst hne
    have hread : readTerm [] = .error (.coefficient, []) := rfl
    rw [ofChars_of_error hread]
    rfl
  · have hpos := List.length_pos_of_ne_nil hne
    obtain ⟨calls, rfl⟩ : ∃ m, calls = m + 1 := Nat.exists_eq_succ_of_ne_zero (by omega)
    rw [read, if_neg hne, readFrom_eq (.start n) hne hcalls]

end Reading.Cursor

end SparsePoly
