import SparsePoly.Proofs.Reading.Faults
import SparsePoly.Proofs.Termwise.Sum

/-!
# Texts put together

A text that can be read may be followed by another one that begins with a sign. The reading of the first
one ends at that sign, as it does at the end of the text, and goes on as the second one is read by
itself (`Reading.ofText_append`). So both are read or there is the fault of the second one, further
behind by the characters of the first one in normal form (`Poly.parse_append_cases`).

The terms of the second text are added one by one to the polynomial of the first one. That is the sum of
both polynomials if the second text does not come to an exponent twice (`Poly.parse_append`). Otherwise
its terms would be added up among themselves first, and floating-point addition is not associative.
-/

namespace SparsePoly

/-- The normal form is taken character by character. -/
theorem Text.normalize_string_append (v w : String) :
    normalize (v ++ w) = normalize v ++ normalize w := by
  simp [normalize]

namespace Reading

open Text

/-- The text `w` begins with a sign. -/
def BeginsWithSign (w : String) : Prop :=
  (normalize w).head? = some '+' ∨ (normalize w).head? = some '-'

/-- A text that begins with a sign is not empty, and a term may end in front of it. -/
theorem BeginsWithSign.atBoundary {w : String} (h : BeginsWithSign w) :
    normalize w ≠ [] ∧ atBoundary (normalize w) = true := by
  rcases h with h | h
  · obtain ⟨cs, hcs⟩ := List.head?_eq_some_iff.1 h
    rw [hcs]
    exact ⟨List.cons_ne_nil _ _, rfl⟩
  · obtain ⟨cs, hcs⟩ := List.head?_eq_some_iff.1 h
    rw [hcs]
    exact ⟨List.cons_ne_nil _ _, rfl⟩

/-- Behind a polynomial, a text that begins with a sign is read as it is by itself. -/
theorem ofText_append {v w : String} {ss : List Summand} {ts : List (Term Float)}
    (hv : PolyText (normalize v) ss) (hts : List.Forall₂ Summand.Denotes ss ts)
    (hw : BeginsWithSign w) :
    (ofText (v ++ w)).terms.map Prod.fst = ts ++ (ofText w).terms.map Prod.fst ∧
      (ofText (v ++ w)).fault? = (ofText w).fault? := by
  obtain ⟨hne, hboundary⟩ := hw.atBoundary
  have happend := ofChars_append hv hts hboundary
  rwa [ofRest, if_neg hne, ← normalize_string_append] at happend

/-- What is left at a fault is an end of the text. -/
theorem length_le_of_fault? {cs rest : List Char} {kind : FaultKind}
    (h : (ofChars cs).fault? = some (kind, rest)) : rest.length ≤ cs.length := by
  -- a reading that has a fault has read a text in front of it
  rcases ofChars_run (.start : Continues [] [] cs) .nil with ⟨hnone, -⟩ | ⟨kind', rest', hsome, hpoly⟩
  · rw [h] at hnone
    cases hnone
  · rw [h] at hsome
    cases hsome
    obtain ⟨before, hbefore, -, -⟩ := hpoly.exists_faultAt
    rw [List.nil_append] at hbefore
    rw [hbefore, List.length_append]
    exact Nat.le_add_left _ _

end Reading

namespace Poly

open Reading Text

/-- Both texts are read, and the terms of the second one are added one by one, or the second one has a
fault and both together have it as well. -/
theorem parse_append_cases {v w : String} {p : Poly Float} (hv : parse v = .ok p)
    (hw : BeginsWithSign w) :
    (parse w = .ok (.ofTerms ((ofText w).terms.map Prod.fst)) ∧
        parse (v ++ w) = .ok (p.extend ((ofText w).terms.map Prod.fst))) ∨
      ∃ kind k, parse w = .error (FaultKind.at kind k) ∧
        parse (v ++ w) = .error (kind.at ((normalize v).length + k)) := by
  rcases parse_run v with ⟨ss, ts, hss, hts, hread⟩ | ⟨kind, rest, -, hread⟩
  · rw [hv] at hread
    cases hread
    obtain ⟨hterms, hfault⟩ := ofText_append hss hts hw
    unfold parse toPoly
    rw [hterms, hfault]
    cases h : (ofText w).fault? with
    | none => exact Or.inl ⟨rfl, congrArg Except.ok (List.foldl_append ..)⟩
    | some fault =>
      obtain ⟨kind, rest⟩ := fault
      have hle := length_le_of_fault? h
      -- what is left at the fault lies within the second text, so its place is counted from there
      have hlength : (normalize (v ++ w)).length - rest.length =
          (normalize v).length + ((normalize w).length - rest.length) := by
        rw [normalize_string_append, List.length_append, Nat.add_sub_assoc hle]
      exact Or.inr ⟨kind, _, rfl, by rw [← hlength]⟩
  · rw [hv] at hread
    cases hread

/-- A text `v` that can be read is followed by a text `w` that begins with a sign. Then both together
are read exactly if `w` is, a fault of `w` is the fault of both together, further behind by the length
of the normal form of `v`, and unless `w` has two terms of the same exponent, both together are read as
the sum of the two polynomials. -/
theorem parse_append {v w : String} {p : Poly Float} (hv : parse v = .ok p) (hw : BeginsWithSign w) :
    ((∃ r, parse (v ++ w) = .ok r) ↔ ∃ q, parse w = .ok q) ∧
      (∀ f, parse w = .error f → ∃ kind k, f = FaultKind.at kind k ∧
        parse (v ++ w) = .error (kind.at ((normalize v).length + k))) ∧
      ∀ q, parse w = .ok q → ((ofText w).terms.map (·.1.exponent)).Nodup →
        parse (v ++ w) = .ok (p + q) := by
  rcases parse_append_cases hv hw with ⟨hread, hboth⟩ | ⟨kind, k, hread, hboth⟩
  · rw [hread, hboth]
    refine ⟨iff_of_true ⟨_, rfl⟩ ⟨_, rfl⟩, by simp, fun q hq hnodup => ?_⟩
    cases hq
    rw [extend_eq_add_ofTerms p (by rwa [List.map_map])]
  · rw [hread, hboth]
    refine ⟨iff_of_false (by simp) (by simp), fun f hf => ?_, by simp⟩
    cases hf
    exact ⟨kind, k, rfl, rfl⟩

/-- A square and a linear term behind it. -/
theorem parse_append_square :
    parse "X^2" = .ok (ofTerms [⟨2, 1⟩]) ∧ BeginsWithSign " - x" ∧
      parse " - x" = .ok (ofTerms [⟨1, -1⟩]) ∧
      ((ofText " - x").terms.map (·.1.exponent)).Nodup ∧
      parse ("X^2" ++ " - x") = .ok (ofTerms [⟨2, 1⟩] + ofTerms [⟨1, -1⟩]) := by
  have hsquare : readTerm ['x', '^', '2'] = .ok (⟨2, 1⟩, []) := rfl
  have hlinear : readTerm ['-', 'x'] = .ok (⟨1, -1⟩, []) := rfl
  have hv : normalize "X^2" = ['x', '^', '2'] := by decide +kernel
  have hw : normalize " - x" = ['-', 'x'] := by decide +kernel
  have hsign : BeginsWithSign " - x" := Or.inr (by rw [hw]; rfl)
  have hparse : parse "X^2" = .ok (ofTerms [⟨2, 1⟩]) := by
    rw [parse, ofText, hv, ofChars_of_ok hsquare rfl]
    rfl
  have hofText : ofText " - x" = ⟨[(⟨1, -1⟩, [])], none⟩ := by
    rw [ofText, hw, ofChars_of_ok hlinear rfl]
    rfl
  have hparse' : parse " - x" = .ok (ofTerms [⟨1, -1⟩]) := by
    rw [parse, hofText]
    rfl
  have hnodup : ((ofText " - x").terms.map (·.1.exponent)).Nodup := by
    rw [hofText]
    exact List.nodup_singleton _
  obtain ⟨-, -, hsum⟩ := parse_append hparse hsign
  exact ⟨hparse, hsign, hparse', hnodup, hsum _ hparse' hnodup⟩

end Poly

end SparsePoly
