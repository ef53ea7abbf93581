import SparsePoly.Proofs.Reading.Number
import SparsePoly.Reading

/-!
# The language of polynomials

The normal form of a text that holds a polynomial is derived from the rules

* `polynomial := [sign] body (sign body)*`
* `body := number [['*'] variable] | variable`
* `variable := 'x' ['^' ['+'] digit+]`

with the signs of `SignText` and the numbers of `Numeral.Number`. The value of an exponent has to fit
in 32 bits.

A derivation goes with a list of `Summand`s, which say what the text means: a summand has the exact
value of its number, and `Summand.Denotes` rounds that to the coefficient of a term.
-/

namespace SparsePoly

/-! ## Characters -/

namespace Text

/-- A character that the normal form of a text keeps. -/
structure Settled (c : Char) : Prop where
  /-- It is not dropped. -/
  isBlank_eq : isBlank c = false
  /-- It is not replaced. -/
  lowercase_eq : lowercase c = [c]

/-- Digits are kept as they are. -/
theorem settled_of_isDigit {c : Char} (hc : c.isDigit = true) : Settled c := by
  have hval : 48 ≤ c.toNat ∧ c.toNat ≤ 57 := by
    simpa [Char.isDigit, UInt32.le_iff_toNat_le] using hc
  refine ⟨?_, ?_⟩
  · simp only [isBlank, blankRanges, List.any_cons, List.any_nil, Bool.or_false, Bool.or_eq_false_iff,
      Bool.and_eq_false_iff, decide_eq_false_iff_not]
    omega
  · -- below the upper-case letters of ASCII nothing is replaced
    have hlower : c.toLower = c := by
      rw [Char.toLower, dif_neg]
      rintro ⟨hle, -⟩
      rw [ge_iff_le, UInt32.le_iff_toNat_le] at hle
      have : c.val.toNat ≤ 57 := hval.2
      simp at hle
      omega
    rw [lowercase, if_pos (by omega), hlower]

/-- The normal form of characters is taken one by one. -/
theorem normalize_append (xs ys : List Char) :
    normalize (.ofList (xs ++ ys)) = normalize (.ofList xs) ++ normalize (.ofList ys) := by
  simp [normalize]

/-- Settled characters are the normal form of themselves. -/
theorem normalize_of_settled {cs : List Char} (hcs : ∀ c ∈ cs, Settled c) :
    normalize (.ofList cs) = cs := by
  induction cs with
  | nil => rfl
  | cons c cs ih =>
    have hc := hcs c List.mem_cons_self
    have hrest := ih fun a ha => hcs a (List.mem_cons_of_mem _ ha)
    have hone : normalize (.ofList [c]) = [c] := by
      simp [normalize, hc.isBlank_eq, hc.lowercase_eq]
    rw [← List.singleton_append, normalize_append, hone, hrest]

end Text

namespace Reading

open Binary64 Numeral Text

/-- The characters other than digits of which a polynomial consists. -/
def marks : List Char := ['+', '-', '.', 'e', '*', 'x', '^']

/-- A character of which a polynomial consists. -/
def inAlphabet (c : Char) : Bool := c.isDigit || marks.contains c

/-- The characters of a polynomial are kept as they are. -/
theorem settled_of_inAlphabet {c : Char} (hc : inAlphabet c = true) : Settled c := by
  rcases Bool.or_eq_true_iff.1 hc with hc | hc
  · exact settled_of_isDigit hc
  · have hmarks : ∀ c ∈ marks, Settled c := by
      simp only [marks, List.forall_mem_cons]
      exact ⟨⟨by decide, by decide⟩, ⟨by decide, by decide⟩, ⟨by decide, by decide⟩,
        ⟨by decide, by decide⟩, ⟨by decide, by decide⟩, ⟨by decide, by decide⟩,
        ⟨by decide, by decide⟩, by simp⟩
    exact hmarks c (List.contains_iff_mem.1 hc)

/-! ## The grammar -/

/-- A term of a text, as it is written. -/
structure Summand where
  /-- Whether its sign is `-`. -/
  negative : Bool
  /-- The value of its number, if there is one. -/
  number? : Option ℚ
  /-- Its exponent, which is `0` without the variable. -/
  exponent : UInt32

/-- `'x' ['^' ['+'] digit+]`, with the exponent. -/
inductive VariableText : List Char → UInt32 → Prop where
  | bare : VariableText ['x'] 1
  | power {ps : List Char} {e : UInt32} (hp : Exponent ps e) : VariableText ('x' :: '^' :: ps) e

/-- `number [['*'] variable] | variable`, which the sign in front may make negative. -/
inductive BodyText (negative : Bool) : List Char → Summand → Prop where
  | number {ns : List Char} {v : ℚ} (hn : Number ns v) : BodyText negative ns ⟨negative, some v, 0⟩
  | product {ns star vs : List Char} {v : ℚ} {e : UInt32} (hn : Number ns v)
      (hstar : star = [] ∨ star = ['*']) (hv : VariableText vs e) :
      BodyText negative (ns ++ (star ++ vs)) ⟨negative, some v, e⟩
  | unit {vs : List Char} {e : UInt32} (hv : VariableText vs e) :
      BodyText negative vs ⟨negative, none, e⟩

/-- `[sign] body` -/
inductive SummandText : List Char → Summand → Prop where
  | intro {negative : Bool} {sign body : List Char} {s : Summand} (hsign : SignText negative sign)
      (hbody : BodyText negative body s) : SummandText (sign ++ body) s

/-- `(sign body)*` -/
inductive TailText : List Char → List Summand → Prop where
  | nil : TailText [] []
  | cons {negative : Bool} {c : Char} {body cs : List Char} {s : Summand} {ss : List Summand}
      (hsign : SignText negative [c]) (hbody : BodyText negative body s) (htail : TailText cs ss) :
      TailText (c :: (body ++ cs)) (s :: ss)

/-- `[sign] body (sign body)*`, with the summands from left to right. -/
inductive PolyText : List Char → List Summand → Prop where
  | intro {text cs : List Char} {s : Summand} {ss : List Summand} (hfirst : SummandText text s)
      (htail : TailText cs ss) : PolyText (text ++ cs) (s :: ss)

/-- What a summand means: the coefficient is the correct rounding of its number with the sign, or of
one if there is no number. -/
structure Summand.Denotes (s : Summand) (t : Term Float) : Prop where
  /-- The exponent is that of the summand. -/
  exponent_eq : t.exponent = s.exponent
  /-- A number is rounded. -/
  isRounded : ∀ v ∈ s.number?, IsRounded s.negative v t.coefficient
  /-- Without a number, only the sign matters. -/
  unit : s.number? = none → t.coefficient = if s.negative then -1 else 1

/-- A number with a sign denotes its correct rounding. -/
theorem Summand.Denotes.of_isRounded {negative : Bool} {v : ℚ} {e : UInt32} {x : Float}
    (hx : IsRounded negative v x) : Summand.Denotes ⟨negative, some v, e⟩ ⟨e, x⟩ :=
  ⟨rfl, by rintro u ⟨⟩; exact hx, by simp⟩

/-- A sign alone denotes one with that sign. -/
theorem Summand.Denotes.of_unit {negative : Bool} {e : UInt32} {x : Float}
    (hx : x = if negative then -1 else 1) : Summand.Denotes ⟨negative, none, e⟩ ⟨e, x⟩ :=
  ⟨rfl, by simp, fun _ => hx⟩

/-! ## Beginnings -/

/-- The variable comes first in its text. -/
theorem VariableText.exists_cons {vs : List Char} {e : UInt32} (h : VariableText vs e) :
    ∃ cs, vs = 'x' :: cs := by
  cases h with
  | bare => exact ⟨_, rfl⟩
  | power => exact ⟨_, rfl⟩

/-- A body does not begin with a sign. -/
theorem BodyText.exists_cons {negative : Bool} {body : List Char} {s : Summand}
    (h : BodyText negative body s) : ∃ c cs, body = c :: cs ∧ isSign c = false := by
  -- a body begins with a number or with the variable, and so not with a sign
  have hnumber : ∀ {ns : List Char} {v : ℚ}, Number ns v →
      ∃ c cs, ns = c :: cs ∧ isSign c = false := by
    intro ns v hn
    obtain ⟨c, cs, rfl, hc | rfl⟩ := hn.exists_cons
    · exact ⟨c, cs, rfl, by simp [isSign, ne_of_isDigit hc (d := '+') rfl,
        ne_of_isDigit hc (d := '-') rfl]⟩
    · exact ⟨_, cs, rfl, rfl⟩
  cases h with
  | number hn => exact hnumber hn
  | product hn =>
    obtain ⟨c, cs, rfl, hc⟩ := hnumber hn
    exact ⟨c, _, rfl, hc⟩
  | unit hv =>
    obtain ⟨cs, rfl⟩ := hv.exists_cons
    exact ⟨'x', cs, rfl, rfl⟩

/-- A sign in the text is one of the two characters. -/
theorem isSign_of_signText {negative : Bool} {c : Char} (h : SignText negative [c]) :
    isSign c = true := by
  cases h with
  | plus => rfl
  | minus => rfl

/-- A summand that begins with a sign is a body behind it. -/
theorem SummandText.exists_body {c : Char} {cs : List Char} {s : Summand}
    (h : SummandText (c :: cs) s) (hc : isSign c = true) :
    ∃ negative, SignText negative [c] ∧ BodyText negative cs s := by
  generalize htext : c :: cs = text at h
  obtain ⟨hsign, hbody⟩ := h
  -- without a sign in the derivation the body would begin with one
  cases hsign with
  | none =>
    obtain ⟨d, ds, rfl, hd⟩ := hbody.exists_cons
    cases htext
    rw [hc] at hd
    cases hd
  | plus =>
    cases htext
    exact ⟨false, .plus, hbody⟩
  | minus =>
    cases htext
    exact ⟨true, .minus, hbody⟩

/-- A summand has at least one character. -/
theorem SummandText.ne_nil {text : List Char} {s : Summand} (h : SummandText text s) :
    text ≠ [] := by
  obtain ⟨-, hbody⟩ := h
  obtain ⟨c, cs, rfl, -⟩ := hbody.exists_cons
  simp

/-! ## Continuations -/

/-- Summands may be followed by more summands. -/
theorem TailText.append {xs ys : List Char} {ss us : List Summand} (hxs : TailText xs ss)
    (hys : TailText ys us) : TailText (xs ++ ys) (ss ++ us) := by
  induction hxs with
  | nil => exact hys
  | cons hsign hbody _ ih =>
    rw [List.cons_append, List.append_assoc]
    exact .cons hsign hbody ih

/-- A polynomial goes on with a sign and a body. -/
theorem PolyText.append {cs body : List Char} {ss : List Summand} {c : Char} {negative : Bool}
    {s : Summand} (h : PolyText cs ss) (hsign : SignText negative [c])
    (hbody : BodyText negative body s) : PolyText (cs ++ c :: body) (ss ++ [s]) := by
  obtain ⟨hfirst, htail⟩ := h
  have hlast := TailText.cons hsign hbody .nil
  rw [List.append_nil] at hlast
  rw [List.append_assoc]
  exact .intro hfirst (htail.append hlast)

/-- One summand is a polynomial. -/
theorem SummandText.polyText {text : List Char} {s : Summand} (h : SummandText text s) :
    PolyText text [s] := by
  rw [← List.append_nil text]
  exact .intro h .nil

/-! ## The alphabet -/

theorem inAlphabet_of_isDigit {c : Char} (hc : c.isDigit = true) : inAlphabet c = true := by
  rw [inAlphabet, hc, Bool.true_or]

/-- A sign belongs to the alphabet. -/
theorem SignText.inAlphabet {negative : Bool} {sign : List Char} (h : SignText negative sign) :
    ∀ c ∈ sign, inAlphabet c = true := by
  cases h with
  | none => simp
  | plus => exact List.forall_mem_singleton.2 rfl
  | minus => exact List.forall_mem_singleton.2 rfl

/-- A sign is the normal form of itself. -/
theorem SignText.normalize_eq {negative : Bool} {sign : List Char} (h : SignText negative sign) :
    Text.normalize (.ofList sign) = sign :=
  normalize_of_settled fun c hc => settled_of_inAlphabet (h.inAlphabet c hc)

/-- The characters of a number belong to the alphabet. -/
theorem Number.inAlphabet {ns : List Char} {v : ℚ} (h : Number ns v) :
    ∀ c ∈ ns, inAlphabet c = true := by
  obtain ⟨hm, he⟩ := h
  intro c hc
  rcases List.mem_append.1 hc with hc | hc
  · rcases hm.isDigit_or c hc with hdigit | rfl
    · exact inAlphabet_of_isDigit hdigit
    · rfl
  · cases he with
    | none => cases hc
    | some hsign hds =>
      rcases List.mem_cons.1 hc with rfl | hc
      · rfl
      · rcases List.mem_append.1 hc with hc | hc
        · exact hsign.inAlphabet c hc
        · exact inAlphabet_of_isDigit (hds.isDigit c hc)

/-- The characters of the variable and its exponent belong to the alphabet. -/
theorem VariableText.inAlphabet {vs : List Char} {e : UInt32} (h : VariableText vs e) :
    ∀ c ∈ vs, inAlphabet c = true := by
  cases h with
  | bare => exact List.forall_mem_singleton.2 rfl
  | power hp =>
    obtain ⟨hplus, hds, -⟩ := hp
    simp only [List.forall_mem_cons, List.forall_mem_append]
    exact ⟨rfl, rfl, hplus.inAlphabet, fun c hc => inAlphabet_of_isDigit (hds.isDigit c hc)⟩

/-- The characters of a body belong to the alphabet. -/
theorem BodyText.inAlphabet {negative : Bool} {body : List Char} {s : Summand}
    (h : BodyText negative body s) : ∀ c ∈ body, inAlphabet c = true := by
  cases h with
  | number hn => exact Number.inAlphabet hn
  | product hn hstar hv =>
    refine List.forall_mem_append.2 ⟨Number.inAlphabet hn, List.forall_mem_append.2 ⟨?_, hv.inAlphabet⟩⟩
    rcases hstar with rfl | rfl
    · simp
    · exact List.forall_mem_singleton.2 rfl
  | unit hv => exact hv.inAlphabet

/-- The characters of further summands belong to the alphabet. -/
theorem TailText.inAlphabet {cs : List Char} {ss : List Summand} (h : TailText cs ss) :
    ∀ c ∈ cs, inAlphabet c = true := by
  induction h with
  | nil => simp
  | cons hsign hbody _ ih =>
    exact List.forall_mem_append.2 ⟨hsign.inAlphabet, List.forall_mem_append.2 ⟨hbody.inAlphabet, ih⟩⟩

/-- The characters of a polynomial belong to the alphabet. -/
theorem PolyText.inAlphabet {cs : List Char} {ss : List Summand} (h : PolyText cs ss) :
    ∀ c ∈ cs, inAlphabet c = true := by
  obtain ⟨⟨hsign, hbody⟩, htail⟩ := h
  exact List.forall_mem_append.2
    ⟨List.forall_mem_append.2 ⟨hsign.inAlphabet, hbody.inAlphabet⟩, htail.inAlphabet⟩

/-- A polynomial is the normal form of itself. -/
theorem PolyText.normalize_eq {cs : List Char} {ss : List Summand} (h : PolyText cs ss) :
    Text.normalize (.ofList cs) = cs :=
  normalize_of_settled fun c hc => settled_of_inAlphabet (h.inAlphabet c hc)

end Reading

end SparsePoly
