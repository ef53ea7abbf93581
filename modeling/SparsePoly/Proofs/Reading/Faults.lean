import SparsePoly.Proofs.Reading.Language

/-!
# The places of faults

A fault in a text comes with a place, which is counted in the normal form of the text. Everything in
front of that place is a polynomial that would be read by itself, up to the `^` or `*` that may have
been taken behind it (`FaultAt`). So no place lies behind a character that the grammar does not have.
-/

namespace SparsePoly

namespace Reading

/-- A text that can be read. -/
def Accepted (cs : List Char) : Prop := ∃ p, Poly.parse (.ofList cs) = .ok p

/-- What is in front of a fault, and what stands at its place, in the characters `n` of a text. -/
inductive FaultAt (n : List Char) : Fault → ℕ → Prop where
  /-- No coefficient at the beginning. -/
  | start : FaultAt n (.coefficient 0) 0
  /-- No coefficient at a sign. -/
  | sign {k : ℕ} (hsign : n[k]? = some '+' ∨ n[k]? = some '-') (haccepted : Accepted (n.take k)) :
      FaultAt n (.coefficient k) k
  /-- No exponent behind `^`. -/
  | exponent {k : ℕ} (hx : n[k]? = some 'x') (hpower : n[k + 1]? = some '^')
      (haccepted : Accepted (n.take (k + 1))) : FaultAt n (.exponent (k + 2)) (k + 2)
  /-- Something else than a sign or `^` behind the variable. -/
  | behindVariable {k : ℕ} {c : Char} (hx : n[k]? = some 'x') (hc : n[k + 1]? = some c)
      (hne : c ∉ ['+', '-', '^']) (haccepted : Accepted (n.take (k + 1))) :
      FaultAt n (.operator (k + 1)) (k + 1)
  /-- Something else than the variable behind `*`, or nothing. -/
  | behindStar {k : ℕ} (hstar : n[k]? = some '*') (hx : n[k + 1]? ≠ some 'x')
      (haccepted : Accepted (n.take k)) : FaultAt n (.operator (k + 1)) (k + 1)

/-- A polynomial can be read by itself. -/
theorem PolyText.accepted {cs : List Char} {ss : List Summand} (h : PolyText cs ss) :
    Accepted cs := by
  obtain ⟨ts, hts⟩ := exists_denotes_of_polyText h
  rw [← h.normalize_eq] at h
  exact ⟨_, Poly.parse_of_polyText h hts⟩

/-- The part up to a character, with the character. -/
theorem take_length_add_one (front : List Char) (c : Char) (cs : List Char) :
    (front ++ c :: cs).take (front.length + 1) = front ++ [c] := by
  rw [List.append_cons, List.take_left' (by simp)]

/-- The characters in front of a fault, which are all of the alphabet, tell its place. -/
theorem PolyFault.exists_faultAt {n rest : List Char} {kind : FaultKind}
    (h : PolyFault n kind rest) :
    ∃ before, n = before ++ rest ∧ (∀ c ∈ before, inAlphabet c = true) ∧
      FaultAt n (kind.at before.length) before.length := by
  cases h with
  | start => exact ⟨[], rfl, by simp, .start⟩
  | sign hdone hc =>
    rename_i done cs ss c
    have hsign : c = '+' ∨ c = '-' := by simpa [isSign] using hc
    refine ⟨done, rfl, hdone.inAlphabet, .sign ?_ ?_⟩
    · simpa using hsign
    · simpa using hdone.accepted
  | exponent hdone =>
    rename_i front ss
    refine ⟨front ++ ['x'] ++ ['^'], by simp, ?_, ?_⟩
    · exact List.forall_mem_append.2 ⟨hdone.inAlphabet, List.forall_mem_singleton.2 rfl⟩
    · have haccepted := hdone.accepted
      rw [← take_length_add_one front 'x' ('^' :: rest)] at haccepted
      simpa [FaultKind.at] using FaultAt.exponent (by simp) (by simp) haccepted
  | behindVariable hdone hsign hpower =>
    rename_i front cs ss c
    refine ⟨front ++ ['x'], by simp, hdone.inAlphabet, ?_⟩
    have hne : c ∉ ['+', '-', '^'] := by simpa [isSign, and_assoc, hpower] using hsign
    have haccepted := hdone.accepted
    rw [← take_length_add_one front 'x' (c :: cs)] at haccepted
    simpa [FaultKind.at] using FaultAt.behindVariable (by simp) (by simp) hne haccepted
  | behindStar hdone hx =>
    rename_i done ss
    refine ⟨done ++ ['*'], by simp, ?_, ?_⟩
    · exact List.forall_mem_append.2 ⟨hdone.inAlphabet, List.forall_mem_singleton.2 rfl⟩
    · have hnext : (done ++ '*' :: rest)[done.length + 1]? ≠ some 'x' := by
        simpa [List.getElem?_append_right, List.head?_eq_getElem?] using hx
      have haccepted : Accepted ((done ++ '*' :: rest).take done.length) := by
        simpa using hdone.accepted
      simpa [FaultKind.at] using FaultAt.behindStar (by simp) hnext haccepted

end Reading

namespace Poly

open Reading Text

/-- A text that is not read has its fault exactly behind a part that can be read, and not behind a
character that is not of the alphabet. -/
theorem parse_eq_error {s : String} {f : Fault} (h : parse s = .error f) :
    ∃ k ≤ (normalize s).length, FaultAt (normalize s) f k ∧
      ∀ i c, (normalize s)[i]? = some c → inAlphabet c = false → k ≤ i := by
  rcases parse_run s with ⟨ss, ts, -, -, hread⟩ | ⟨kind, rest, hfault, hread⟩
  · rw [h] at hread
    cases hread
  · rw [h] at hread
    cases hread
    obtain ⟨before, hn, halphabet, hat⟩ := hfault.exists_faultAt
    have hlength : (normalize s).length - rest.length = before.length := by
      rw [hn, List.length_append, Nat.add_sub_cancel]
    rw [hlength]
    refine ⟨before.length, by rw [hn, List.length_append]; omega, hat, ?_⟩
    intro i c hi hc
    -- a character in front of the fault is one of those that were taken
    by_contra hlt
    rw [hn, List.getElem?_append_left (Nat.lt_of_not_le hlt)] at hi
    rw [halphabet c (List.mem_of_getElem? hi)] at hc
    cases hc

/-- The fault of `X^2 + x^y` lies behind the second `^`, and `x^2+x` can be read. -/
theorem parse_eq_error_power :
    parse "X^2 + x^y" = .error (.exponent 6) ∧
      ∃ k ≤ (normalize "X^2 + x^y").length, FaultAt (normalize "X^2 + x^y") (.exponent 6) k ∧
        ∀ i c, (normalize "X^2 + x^y")[i]? = some c → inAlphabet c = false → k ≤ i := by
  have hfirst : readTerm ['x', '^', '2', '+', 'x', '^', 'y'] =
      .ok (⟨2, 1⟩, ['+', 'x', '^', 'y']) := rfl
  have hsecond : readTerm ['+', 'x', '^', 'y'] = .error (.exponent, ['y']) := rfl
  have hnormal : normalize "X^2 + x^y" = ['x', '^', '2', '+', 'x', '^', 'y'] := by decide +kernel
  have herror : parse "X^2 + x^y" = .error (.exponent 6) := by
    rw [parse, ofText, hnormal, ofChars_of_ok hfirst rfl, ofRest, if_neg (by simp),
      ofChars_of_error hsecond]
    rfl
  exact ⟨herror, parse_eq_error herror⟩

end Poly

end SparsePoly
