import SparsePoly.Proofs.Decimal.Positional
import SparsePoly.Proofs.Decimal.Rounding

/-!
# The language of numbers

A number is derived from the rules

* `number := mantissa [scale]`
* `mantissa := digit+ ['.' digit*] | '.' digit+`
* `scale := 'e' [sign] digit+`
* `sign := '+' | '-'`

where the digits are those of ASCII. `Number` relates each text to its value, which is exact. A text
is taken for a floating-point number exactly if it is a number behind an optional sign, and then the
floating-point number is the correct rounding of the value (`exists_number_of_float?`,
`float?_of_number`).
-/

namespace SparsePoly

/-- `[sign]`, and whether it makes a number negative. -/
inductive Reading.SignText : Bool → List Char → Prop where
  | none : SignText false []
  | plus : SignText false ['+']
  | minus : SignText true ['-']

namespace Numeral

open Reading (SignText)
open Binary64 (IsRounded)

/-- `digit+` -/
structure IsDigits (ds : List Char) : Prop where
  /-- There is a digit. -/
  ne_nil : ds ≠ []
  /-- There is nothing else. -/
  isDigit : ∀ c ∈ ds, c.isDigit = true

/-- `digit+ ['.' digit*] | '.' digit+`, with its value. -/
inductive Mantissa : List Char → ℚ → Prop where
  | whole {ds : List Char} (hds : IsDigits ds) : Mantissa ds (Nat.ofDigitChars 10 ds 0)
  | point {ds fs : List Char} (hds : IsDigits ds) (hfs : ∀ c ∈ fs, c.isDigit = true) :
      Mantissa (ds ++ '.' :: fs) (Nat.ofDigitChars 10 (ds ++ fs) 0 / 10 ^ fs.length)
  | fraction {fs : List Char} (hfs : IsDigits fs) :
      Mantissa ('.' :: fs) (Nat.ofDigitChars 10 fs 0 / 10 ^ fs.length)

/-- `['e' [sign] digit+]`, with the power of ten that it stands for. -/
inductive Scale : List Char → ℤ → Prop where
  | none : Scale [] 0
  | some {negative : Bool} {sign ds : List Char} (hsign : SignText negative sign)
      (hds : IsDigits ds) :
      Scale ('e' :: (sign ++ ds))
        (if negative then -(Nat.ofDigitChars 10 ds 0 : ℤ) else Nat.ofDigitChars 10 ds 0)

/-- A number without a sign, with its value. -/
inductive Number : List Char → ℚ → Prop where
  | intro {ms es : List Char} {m : ℚ} {e : ℤ} (hm : Mantissa ms m) (he : Scale es e) :
      Number (ms ++ es) (m * 10 ^ e)

/-- `['+'] digit+`, if the value fits in 32 bits. -/
inductive Exponent : List Char → UInt32 → Prop where
  | intro {plus ds : List Char} {e : UInt32} (hplus : SignText false plus) (hds : IsDigits ds)
      (hvalue : Nat.ofDigitChars 10 ds 0 = e.toNat) : Exponent (plus ++ ds) e

/-! ## Digits -/

/-- What is taken for a natural number are the digits of one. -/
theorem natural?_eq_some_iff {cs : List Char} {n : ℕ} :
    natural? cs = some n ↔ IsDigits cs ∧ n = Nat.ofDigitChars 10 cs 0 := by
  unfold natural?
  constructor
  · intro h
    split at h
    · rename_i hcs
      cases h
      exact ⟨⟨hcs.1, List.all_eq_true.1 hcs.2⟩, rfl⟩
    · cases h
  · rintro ⟨hcs, rfl⟩
    rw [if_pos ⟨hcs.ne_nil, List.all_eq_true.2 hcs.isDigit⟩]

/-- Digits are taken for the natural number that they stand for. -/
theorem natural?_of_isDigits {ds : List Char} (hds : IsDigits ds) :
    natural? ds = some (Nat.ofDigitChars 10 ds 0) := natural?_eq_some_iff.2 ⟨hds, rfl⟩

/-- A digit comes first. -/
theorem IsDigits.exists_cons {ds : List Char} (hds : IsDigits ds) :
    ∃ c cs, ds = c :: cs ∧ c.isDigit = true ∧ ∀ a ∈ cs, a.isDigit = true := by
  obtain ⟨hne, hall⟩ := hds
  match ds, hne with
  | c :: cs, _ =>
    obtain ⟨hc, hcs⟩ := List.forall_mem_cons.1 hall
    exact ⟨c, cs, rfl, hc, hcs⟩

/-- A digit is no other character. -/
theorem ne_of_isDigit {c d : Char} (hc : c.isDigit = true) (hd : d.isDigit = false) : c ≠ d := by
  rintro rfl
  rw [hc] at hd
  cases hd

/-! ## Powers of ten -/

/-- What is taken for a power of ten is one. -/
theorem scale_of_scale? {cs : List Char} {e : ℤ} (h : scale? cs = some e) : Scale cs e := by
  unfold scale? at h
  split at h
  · cases h
    exact .none
  · rename_i cs
    unfold integer? at h
    split at h
    · obtain ⟨n, hn, rfl⟩ := Option.map_eq_some_iff.1 h
      obtain ⟨hds, rfl⟩ := natural?_eq_some_iff.1 hn
      exact .some .plus hds
    · obtain ⟨n, hn, rfl⟩ := Option.map_eq_some_iff.1 h
      obtain ⟨hds, rfl⟩ := natural?_eq_some_iff.1 hn
      exact .some .minus hds
    · obtain ⟨n, hn, rfl⟩ := Option.map_eq_some_iff.1 h
      obtain ⟨hds, rfl⟩ := natural?_eq_some_iff.1 hn
      exact .some .none hds
  · cases h

/-- A power of ten is taken for one, with its value. -/
theorem scale?_of_scale {cs : List Char} {e : ℤ} (h : Scale cs e) : scale? cs = some e := by
  cases h with
  | none => rfl
  | some hsign hds =>
    have hnatural := natural?_of_isDigits hds
    cases hsign with
    | none =>
      obtain ⟨c, cs, rfl, hc, -⟩ := hds.exists_cons
      have hplus := ne_of_isDigit hc (d := '+') rfl
      have hminus := ne_of_isDigit hc (d := '-') rfl
      simp [scale?, integer?, hplus, hminus, hnatural]
    | plus => simp [scale?, integer?, hnatural]
    | minus => simp [scale?, integer?, hnatural]

/-! ## Numbers without a sign -/

/-- A power of ten is told from the digits and the point of a mantissa by its first character. -/
theorem scale_head? {cs : List Char} {e : ℤ} (h : Scale cs e) :
    ∀ c ∈ cs.head?, ¬ c.isDigit = true ∧ c ≠ '.' := by
  intro c hc
  cases h with
  | none => cases hc
  | some =>
    cases hc
    decide

/-- Places behind the point are taken off the power of ten. -/
theorem value_trim_sub (n k : ℕ) (e : ℤ) :
    (Decimal.trim n (e - k)).value = n / 10 ^ k * 10 ^ e := by
  rw [Decimal.value_trim, zpow_sub₀ (by norm_num), zpow_natCast]
  ring

/-- The digits in front of a text. -/
theorem exists_eq_digits_append (cs : List Char) :
    ∃ ds rest, cs = ds ++ rest ∧ (∀ c ∈ ds, c.isDigit = true) ∧
      ∀ c ∈ rest.head?, ¬ c.isDigit = true := by
  refine ⟨_, _, (List.takeWhile_append_dropWhile (p := Char.isDigit)).symm,
    fun c hc => List.mem_takeWhile_imp hc, fun c hc hdigit => ?_⟩
  have h := List.head?_dropWhile_not Char.isDigit cs
  rw [Option.mem_def.1 hc] at h
  have hnot : c.isDigit = false := h
  rw [hdigit] at hnot
  cases hnot

/-- What is taken for a number is one. -/
theorem number_of_unsigned? {cs : List Char} {d : Decimal} (h : unsigned? cs = some d) :
    Number cs d.value := by
  obtain ⟨whole, behind, rfl, hwhole, hbehind⟩ := exists_eq_digits_append cs
  by_cases hpoint : behind.head? = some '.'
  · -- the digits go on behind a point
    obtain ⟨tail, rfl⟩ := List.head?_eq_some_iff.1 hpoint
    obtain ⟨fraction, es, rfl, hfraction, hes⟩ := exists_eq_digits_append tail
    rw [unsigned?_point_append hwhole hfraction hes] at h
    split at h
    · cases h
    · rename_i hne
      obtain ⟨e, he, rfl⟩ := Option.map_eq_some_iff.1 h
      have hscale := scale_of_scale? he
      rw [value_trim_sub]
      -- there is a digit in front of the point or behind it
      by_cases hnil : whole = []
      · subst hnil
        rw [List.nil_append] at hne ⊢
        have hm := Mantissa.fraction ⟨hne, hfraction⟩
        exact .intro hm hscale
      · have hm := Mantissa.point ⟨hnil, hwhole⟩ hfraction
        simpa using Number.intro hm hscale
  · rw [unsigned?_digits_append hwhole fun c hc => ⟨hbehind c hc, fun h => hpoint (h ▸ hc)⟩] at h
    split at h
    · cases h
    · rename_i hne
      obtain ⟨e, he, rfl⟩ := Option.map_eq_some_iff.1 h
      rw [Decimal.value_trim]
      exact .intro (.whole ⟨hne, hwhole⟩) (scale_of_scale? he)

/-- A number is taken for one, with its value. -/
theorem exists_unsigned? {cs : List Char} {v : ℚ} (h : Number cs v) :
    ∃ d, unsigned? cs = some d ∧ d.value = v := by
  obtain ⟨hm, he⟩ := h
  have hscale := scale?_of_scale he
  have hhead := scale_head? he
  -- the three forms of a mantissa, each with the digits that the reader finds
  cases hm with
  | whole hds =>
    rw [unsigned?_digits_append hds.isDigit hhead, if_neg hds.ne_nil, hscale]
    exact ⟨_, rfl, Decimal.value_trim _ _⟩
  | point hds hfs =>
    rw [List.append_assoc, List.cons_append,
      unsigned?_point_append hds.isDigit hfs fun c hc => (hhead c hc).1,
      if_neg (List.append_ne_nil_of_left_ne_nil hds.ne_nil _), hscale]
    exact ⟨_, rfl, value_trim_sub _ _ _⟩
  | fraction hfs =>
    rw [List.cons_append, ← List.nil_append ('.' :: _),
      unsigned?_point_append (by simp) hfs.isDigit fun c hc => (hhead c hc).1, List.nil_append,
      if_neg hfs.ne_nil, hscale]
    exact ⟨_, rfl, value_trim_sub _ _ _⟩

/-! ## Numbers with a sign -/

/-- A mantissa consists of digits and a point. -/
theorem Mantissa.isDigit_or {ms : List Char} {m : ℚ} (h : Mantissa ms m) :
    ∀ c ∈ ms, c.isDigit = true ∨ c = '.' := by
  intro c hc
  cases h with
  | whole hds => exact Or.inl (hds.isDigit c hc)
  | point hds hfs =>
    rcases List.mem_append.1 hc with hc | hc
    · exact Or.inl (hds.isDigit c hc)
    · rcases List.mem_cons.1 hc with rfl | hc
      · exact Or.inr rfl
      · exact Or.inl (hfs c hc)
  | fraction hfs =>
    rcases List.mem_cons.1 hc with rfl | hc
    · exact Or.inr rfl
    · exact Or.inl (hfs.isDigit c hc)

/-- A mantissa has at least one character. -/
theorem Mantissa.ne_nil {ms : List Char} {m : ℚ} (h : Mantissa ms m) : ms ≠ [] := by
  cases h with
  | whole hds => exact hds.ne_nil
  | point => simp
  | fraction => simp

/-- A number begins with a digit or a point. -/
theorem Number.exists_cons {cs : List Char} {v : ℚ} (h : Number cs v) :
    ∃ c tail, cs = c :: tail ∧ (c.isDigit = true ∨ c = '.') := by
  obtain ⟨hm, -⟩ := h
  obtain ⟨c, ms, rfl⟩ := List.exists_cons_of_ne_nil hm.ne_nil
  exact ⟨c, _, rfl, hm.isDigit_or c List.mem_cons_self⟩

/-- A sign in front of anything else is the sign of the number behind it. -/
theorem float?_append {negative : Bool} {sign ds : List Char} (hsign : SignText negative sign)
    (hds : ∀ c ∈ ds.head?, c ≠ '+' ∧ c ≠ '-') :
    float? (sign ++ ds) = (unsigned? ds).map (Decimal.toFloat negative) := by
  cases hsign with
  | none =>
    rw [List.nil_append]
    unfold float?
    split
    · exact absurd rfl (hds '+' rfl).1
    · exact absurd rfl (hds '-' rfl).2
    · rfl
  | plus => rfl
  | minus => rfl

/-- A number behind an optional sign is taken for the rounding of its value. -/
theorem float?_of_number {negative : Bool} {sign ds : List Char} {v : ℚ} {x : Float}
    (hsign : SignText negative sign) (hds : Number ds v) (hx : IsRounded negative v x) :
    float? (sign ++ ds) = some x := by
  obtain ⟨d, hd, rfl⟩ := exists_unsigned? hds
  obtain ⟨c, tail, rfl, hc⟩ := hds.exists_cons
  have hhead : ∀ a ∈ (c :: tail).head?, a ≠ '+' ∧ a ≠ '-' := by
    rintro a ⟨⟩
    rcases hc with hc | rfl
    · exact ⟨ne_of_isDigit hc rfl, ne_of_isDigit hc rfl⟩
    · decide
  rw [float?_append hsign hhead, hd, Option.map_some, hx.unique (d.isRounded_toFloat negative)]

/-- What is taken for a floating-point number without its sign is the rounding of a number. -/
theorem exists_number_of_map {ds : List Char} {negative : Bool} {x : Float}
    (h : (unsigned? ds).map (Decimal.toFloat negative) = some x) :
    ∃ v, Number ds v ∧ IsRounded negative v x := by
  obtain ⟨d, hd, rfl⟩ := Option.map_eq_some_iff.1 h
  exact ⟨d.value, number_of_unsigned? hd, d.isRounded_toFloat negative⟩

/-- What is taken for a floating-point number is a number behind an optional sign. -/
theorem exists_number_of_float? {cs : List Char} {x : Float} (h : float? cs = some x) :
    ∃ negative sign ds v, cs = sign ++ ds ∧ SignText negative sign ∧ Number ds v ∧
      IsRounded negative v x := by
  unfold float? at h
  split at h
  · obtain ⟨v, hv, hx⟩ := exists_number_of_map h
    exact ⟨false, ['+'], _, v, rfl, .plus, hv, hx⟩
  · obtain ⟨v, hv, hx⟩ := exists_number_of_map h
    exact ⟨true, ['-'], _, v, rfl, .minus, hv, hx⟩
  · obtain ⟨v, hv, hx⟩ := exists_number_of_map h
    exact ⟨false, [], _, v, rfl, .none, hv, hx⟩

/-- Every number has a correct rounding. -/
theorem Number.exists_isRounded {ds : List Char} {v : ℚ} (h : Number ds v) (negative : Bool) :
    ∃ x, IsRounded negative v x := by
  obtain ⟨d, -, rfl⟩ := exists_unsigned? h
  exact ⟨_, d.isRounded_toFloat negative⟩

/-! ## Exponents -/

/-- An exponent that fits is taken for one, with its value. -/
theorem exponent?_of_exponent {cs : List Char} {e : UInt32} (h : Exponent cs e) :
    exponent? cs = some e := by
  obtain ⟨hplus, hds, hvalue⟩ := h
  have hnatural := natural?_of_isDigits hds
  rw [hvalue] at hnatural
  have hfits : e.toNat < UInt32.size := e.toNat_lt
  cases hplus with
  | none =>
    obtain ⟨c, cs, rfl, hc, -⟩ := hds.exists_cons
    simp [exponent?, ne_of_isDigit hc (d := '+') rfl, hnatural, hfits]
  | plus => simp [exponent?, hnatural, hfits]

/-- What is taken for an exponent is one that fits. -/
theorem exponent_of_exponent? {cs : List Char} {e : UInt32} (h : exponent? cs = some e) :
    Exponent cs e := by
  unfold exponent? at h
  generalize hdigits : (if cs.head? = some '+' then cs.tail else cs) = ds at h
  split at h
  · rename_i n hn
    obtain ⟨hds, rfl⟩ := natural?_eq_some_iff.1 hn
    split at h
    · rename_i hfits
      cases h
      have hvalue := (UInt32.toNat_ofNat_of_lt hfits).symm
      split at hdigits
      · rename_i hplus
        obtain ⟨cs, rfl⟩ := List.head?_eq_some_iff.1 hplus
        subst hdigits
        exact .intro .plus hds hvalue
      · subst hdigits
        exact .intro .none hds hvalue
    · cases h
  · cases h

end Numeral

end SparsePoly
