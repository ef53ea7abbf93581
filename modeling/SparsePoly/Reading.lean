import SparsePoly.Decimal.Numeral
import SparsePoly.Fault
import SparsePoly.Poly.Basic
import SparsePoly.Text.Normal

/-!
# Reading polynomials

The text of a polynomial is a row of terms, each but the first behind a sign. A term is a coefficient,
the variable with an optional exponent, or both with an optional `*` in between.

A `Reading` holds the terms that were read, from left to right, each with what was left of the text
behind it, and the fault that ended the reading, if there was one, with what was left where it lies.
Places follow from that: what is left of a text tells how far it was read.

A coefficient reaches up to the next sign, `*` or variable, except that the mark of a decimal exponent
takes a sign with it. Only the characters of a number may stand in between, but the first character of
a coefficient, which is mostly its sign, is taken whatever it is, and so is the first character of an
exponent. Whether the characters taken make a number is settled afterwards.
-/

namespace SparsePoly

/-- What is wrong with a text. -/
inductive Reading.FaultKind where
  /-- A character other than the one found has to stand here. -/
  | operator
  /-- The coefficient that begins here is not a number. -/
  | coefficient
  /-- The exponent that begins here is not a number that fits. -/
  | exponent
deriving DecidableEq, Repr

/-- What was read of a text. -/
structure Reading where
  /-- The terms, each with what was left of the text behind it. -/
  terms : List (Term Float × List Char)
  /-- What ended the reading before the end of the text, with what was left there. -/
  fault? : Option (Reading.FaultKind × List Char)

namespace Reading

/-- Whether a character is a sign. -/
def isSign (c : Char) : Bool := c == '+' || c == '-'

/-- Whether the text begins with a sign or is at its end. -/
def atBoundary : List Char → Bool
  | [] => true
  | c :: _ => isSign c

/-- The inner characters of a coefficient with what is left behind them, or `none` if a character
that cannot stand in a number comes before the end of the coefficient. -/
def scanNumber : List Char → Option (List Char × List Char)
  | [] => some ([], [])
  | 'e' :: '+' :: cs => (scanNumber cs).map fun (taken, rest) => ('e' :: '+' :: taken, rest)
  | 'e' :: '-' :: cs => (scanNumber cs).map fun (taken, rest) => ('e' :: '-' :: taken, rest)
  | c :: cs =>
    if isSign c || c == '*' || c == 'x' then some ([], c :: cs)
    else if c.isDigit || c == '.' || c == 'e' then
      (scanNumber cs).map fun (taken, rest) => (c :: taken, rest)
    else none

/-- The number that the characters of a coefficient stand for. A sign alone is a factor of one if
the variable comes next. -/
def factor? (taken rest : List Char) : Option Float :=
  if rest.head? = some 'x' ∧ taken = ['+'] then some 1
  else if rest.head? = some 'x' ∧ taken = ['-'] then some (-1)
  else Numeral.float? taken

/-- A coefficient with what is left behind it. -/
def coefficient? : List Char → Option (Float × List Char)
  | [] => none
  | c :: cs => do
    let (taken, rest) ← scanNumber cs
    let value ← factor? (c :: taken) rest
    return (value, rest)

/-- The coefficient of a term with what is left behind it, which is `1` if the variable comes first.
The variable has to follow `*`. -/
def readCoefficient (cs : List Char) : Except (FaultKind × List Char) (Float × List Char) :=
  if cs.head? = some 'x' then .ok (1, cs)
  else
    match coefficient? cs with
    | none => .error (.coefficient, cs)
    | some (value, '*' :: rest) =>
      if rest.head? = some 'x' then .ok (value, rest) else .error (.operator, rest)
    | some (value, rest) => .ok (value, rest)

/-- An exponent with what is left behind it. -/
def exponent? : List Char → Option (UInt32 × List Char)
  | [] => none
  | c :: cs =>
    let rest := cs.dropWhile Char.isDigit
    if atBoundary rest then
      (Numeral.exponent? (c :: cs.takeWhile Char.isDigit)).map fun e => (e, rest)
    else none

/-- The exponent of a term with what is left behind it: `0` without the variable, and `1` for the
variable alone. -/
def readExponent : List Char → Except (FaultKind × List Char) (UInt32 × List Char)
  | 'x' :: '^' :: cs =>
    match exponent? cs with
    | some (e, rest) => .ok (e, rest)
    | none => .error (.exponent, cs)
  | 'x' :: cs => .ok (1, cs)
  | cs => .ok (0, cs)

/-- A term with what is left behind it. -/
def readTerm (cs : List Char) : Except (FaultKind × List Char) (Term Float × List Char) := do
  let (coefficient, behind) ← readCoefficient cs
  let (exponent, rest) ← readExponent behind
  return (⟨exponent, coefficient⟩, rest)

/-! ## A term takes at least one character -/

/-- The scan of a number skips no character, so what it took and what it left make up the text. -/
theorem length_of_scanNumber {cs taken rest : List Char} (h : scanNumber cs = some (taken, rest)) :
    taken.length + rest.length = cs.length := by
  -- on the characters: one or two are taken at a time, until the scan stops
  fun_induction scanNumber cs generalizing taken rest with
  | case1 => simp_all
  | case2 cs ih =>
    obtain ⟨⟨t, r⟩, ht, h⟩ := Option.map_eq_some_iff.1 h
    cases h
    have := ih ht
    simp only [List.length_cons]
    omega
  | case3 cs ih =>
    obtain ⟨⟨t, r⟩, ht, h⟩ := Option.map_eq_some_iff.1 h
    cases h
    have := ih ht
    simp only [List.length_cons]
    omega
  | case4 c cs _ _ hstop => simp_all
  | case5 c cs _ _ hstop hin ih =>
    obtain ⟨⟨t, r⟩, ht, h⟩ := Option.map_eq_some_iff.1 h
    cases h
    have := ih ht
    simp only [List.length_cons]
    omega
  | case6 => simp at h

/-- A coefficient takes at least the character that it begins with. -/
theorem length_of_coefficient? {cs rest : List Char} {value : Float}
    (h : coefficient? cs = some (value, rest)) : rest.length < cs.length := by
  cases cs with
  | nil => simp [coefficient?] at h
  | cons c cs =>
    simp only [coefficient?, Option.bind_eq_bind, Option.bind_eq_some_iff, Option.pure_def] at h
    obtain ⟨⟨taken, r⟩, hscan, value', _, h⟩ := h
    cases h
    have := length_of_scanNumber hscan
    simp only [List.length_cons]
    omega

/-- Reading a coefficient takes a character, unless the variable comes first. -/
theorem length_of_readCoefficient {cs rest : List Char} {value : Float}
    (h : readCoefficient cs = .ok (value, rest)) :
    rest.length < cs.length ∨ rest = cs ∧ cs.head? = some 'x' := by
  unfold readCoefficient at h
  split at h
  · rename_i hx
    cases h
    exact Or.inr ⟨rfl, hx⟩
  · split at h
    · cases h
    · rename_i hc
      split at h
      · cases h
        have := length_of_coefficient? hc
        simp only [List.length_cons] at this
        exact Or.inl (by omega)
      · cases h
    · rename_i hc
      cases h
      exact Or.inl (length_of_coefficient? hc)

/-- An exponent takes at least the character that it begins with. -/
theorem length_of_exponent? {cs rest : List Char} {e : UInt32}
    (h : exponent? cs = some (e, rest)) : rest.length < cs.length := by
  cases cs with
  | nil => simp [exponent?] at h
  | cons c cs =>
    simp only [exponent?] at h
    split at h
    · obtain ⟨e', _, h⟩ := Option.map_eq_some_iff.1 h
      cases h
      have := (List.dropWhile_sublist Char.isDigit (l := cs)).length_le
      simp only [List.length_cons]
      omega
    · cases h

/-- Reading an exponent takes a character if the variable is there. -/
theorem length_of_readExponent {cs rest : List Char} {e : UInt32}
    (h : readExponent cs = .ok (e, rest)) :
    rest.length ≤ cs.length ∧ (cs.head? = some 'x' → rest.length < cs.length) := by
  unfold readExponent at h
  split at h
  · split at h
    · rename_i he
      cases h
      have := length_of_exponent? he
      simp only [List.length_cons]
      omega
    · cases h
  · cases h
    simp
  · rename_i hx
    cases h
    refine ⟨Nat.le_refl _, fun hhead => ?_⟩
    obtain ⟨cs', rfl⟩ := List.head?_eq_some_iff.1 hhead
    exact absurd rfl (hx cs')

/-- Reading a term takes at least one character. -/
theorem length_of_readTerm {cs rest : List Char} {t : Term Float}
    (h : readTerm cs = .ok (t, rest)) : rest.length < cs.length := by
  unfold readTerm at h
  cases hc : readCoefficient cs with
  | error f => rw [hc] at h; cases h
  | ok found =>
    obtain ⟨value, behind⟩ := found
    rw [hc] at h
    cases he : readExponent behind with
    | error f => simp only [bind, Except.bind, he] at h; cases h
    | ok found =>
      obtain ⟨e, rest'⟩ := found
      simp only [bind, Except.bind, he, pure, Except.pure, Except.ok.injEq, Prod.mk.injEq] at h
      obtain ⟨-, rfl⟩ := h
      -- either the coefficient takes a character, or the variable comes first, which the exponent
      -- takes
      obtain ⟨hle, hlt⟩ := length_of_readExponent he
      rcases length_of_readCoefficient hc with hc | ⟨rfl, hx⟩
      · omega
      · exact hlt hx

/-! ## Readings -/

/-- Reads terms up to the end of the text or up to the first fault. -/
def ofChars (cs : List Char) : Reading :=
  match hread : readTerm cs with
  | .error fault => ⟨[], some fault⟩
  | .ok (t, rest) =>
    have : rest.length < cs.length := length_of_readTerm hread
    if rest = [] then ⟨[(t, rest)], none⟩
    else if atBoundary rest then
      let later := ofChars rest
      ⟨(t, rest) :: later.terms, later.fault?⟩
    else ⟨[(t, rest)], some (.operator, rest)⟩
termination_by cs.length

/-- What can be read of a text in normal form. -/
def ofText (s : String) : Reading := ofChars (Text.normalize s)

/-- The fault of a kind at a place. -/
def FaultKind.at : FaultKind → Nat → Fault
  | operator, n => .operator n
  | coefficient, n => .coefficient n
  | exponent, n => .exponent n

/-- The polynomial that was read from a text of `length` characters, which is the sum of the terms
from left to right. -/
def toPoly (length : Nat) (r : Reading) : Except Fault (Poly Float) :=
  match r.fault? with
  | some (kind, rest) => .error (kind.at (length - rest.length))
  | none => .ok (.ofTerms (r.terms.map Prod.fst))

/-- The places in a text of `length` characters behind the terms that were read. -/
def stops (length : Nat) (r : Reading) : List (Term Float × Nat) :=
  r.terms.map fun (t, rest) => (t, length - rest.length)

end Reading

/-- Reads a polynomial. Blanks and the case of letters do not matter. -/
def Poly.parse (s : String) : Except Fault (Poly Float) :=
  (Reading.ofText s).toPoly (Text.normalize s).length

end SparsePoly
