import SparsePoly.Proofs.Reading.Cursor

/-!
# The cursor gets on

A call for a term takes a character at least, wherever something is left of the text, or it comes to a
fault that is not behind the end of the text (`Cursor.term_advances`). So in a run of the cursor each
term ends further on than the one before, up to the end of the text or up to the fault
(`Cursor.advances_readFrom`, `Cursor.advances_read`). The events of reading a text tell these places
(`Poly.parse_by_cursor`).
-/

namespace SparsePoly

/-- The place up to which a text was read, if that is what happened. -/
def Event.stop? : Event → Option ℕ
  | termRead _ stop => some stop
  | _ => none

/-- The places behind the terms of a text, as the events of reading it tell them. -/
def Event.stopsOfText (s : String) : List ℕ := (ofText s).filterMap stop?

namespace Reading.Cursor

/-- The places behind the terms of a run. -/
def Run.stops (r : Run) : List ℕ := r.events.filterMap Event.stop?

/-- A run from the place `pos` on gets on with each term, and stays within the text. -/
structure Run.Advances (n : List Char) (pos : ℕ) (r : Run) : Prop where
  /-- Each term ends behind the place where it begins. -/
  increasing : (pos :: r.stops).Pairwise (· < ·)
  /-- Each term ends within the text. -/
  le_length : ∀ stop ∈ r.stops, stop ≤ n.length
  /-- There are not more terms than characters. -/
  length_le : pos + r.stops.length ≤ n.length
  /-- A reading without a fault comes to the end of the text. -/
  of_ok : ∀ p, r.result = .ok p → (pos :: r.stops).getLast? = some n.length
  /-- Nothing but a fault ends a reading early, and it is not in front of a term that was read. -/
  of_error : ∀ halt, r.result = .error halt → ∃ f k, halt = .fault f ∧ f.position? = some k ∧
    k ≤ n.length ∧ ∀ stop ∈ pos :: r.stops, stop ≤ k

section Advances

variable {n : List Char} {pos : ℕ}

/-- A fault in place of a term. -/
theorem advances_of_fault {f : Fault} {k : ℕ} (hk : f.position? = some k) (hpos : pos ≤ k)
    (hle : k ≤ n.length) : Run.Advances n pos ⟨[], .error (.fault f)⟩ where
  increasing := List.pairwise_singleton _ _
  le_length := by rintro stop ⟨⟩
  length_le := Nat.le_trans hpos hle
  of_ok := by rintro p ⟨⟩
  of_error := by
    rintro halt ⟨⟩
    exact ⟨f, k, rfl, hk, hle, List.forall_mem_singleton.2 hpos⟩

/-- The end of the text. -/
theorem advances_of_end (p : Poly Float) : Run.Advances n n.length ⟨[], .ok p⟩ where
  increasing := List.pairwise_singleton _ _
  le_length := by rintro stop ⟨⟩
  length_le := Nat.le_refl _
  of_ok := fun _ _ => rfl
  of_error := by rintro halt ⟨⟩

/-- A term that takes a character comes before. -/
theorem Run.Advances.cons {r : Run} {t : Term Float} {stop : ℕ} (h : r.Advances n stop)
    (hlt : pos < stop) (hle : stop ≤ n.length) :
    Run.Advances n pos ⟨.termRead t stop :: r.events, r.result⟩ := by
  have hstops : Run.stops ⟨.termRead t stop :: r.events, r.result⟩ = stop :: r.stops := rfl
  have hlater := h.length_le
  constructor
  · rw [hstops]
    refine List.pairwise_cons.2 ⟨List.forall_mem_cons.2 ⟨hlt, fun k hk => ?_⟩, h.increasing⟩
    exact Nat.lt_trans hlt ((List.pairwise_cons.1 h.increasing).1 k hk)
  · rw [hstops]
    exact List.forall_mem_cons.2 ⟨hle, h.le_length⟩
  · rw [hstops, List.length_cons]
    omega
  · intro p hp
    rw [hstops, List.getLast?_cons_cons]
    exact h.of_ok p hp
  · intro halt hhalt
    obtain ⟨f, k, hfault, hk, hkle, hstop⟩ := h.of_error halt hhalt
    rw [hstops]
    have hpos : pos ≤ k := Nat.le_trans (Nat.le_of_lt hlt) (hstop stop List.mem_cons_self)
    exact ⟨f, k, hfault, hk, hkle, List.forall_mem_cons.2 ⟨hpos, hstop⟩⟩

/-- A fault of a term has the place that it was given. -/
theorem position?_at (kind : FaultKind) (k : ℕ) : (kind.at k).position? = some k := by
  cases kind <;> rfl

/-- What is left at the fault of a term is an end of the text. -/
theorem length_le_of_readTerm {cs rest : List Char} {kind : FaultKind}
    (h : readTerm cs = .error (kind, rest)) : rest.length ≤ cs.length := by
  cases termFault_of_readTerm h with
  | coefficient => exact Nat.le_refl _
  | star _ _ =>
    simp only [List.length_append, List.length_cons]
    omega
  | exponent _ =>
    simp only [List.length_append, List.length_cons]
    omega

/-- One call for a term, wherever something is left: a term takes a character at least, or it has a
fault further on. -/
theorem term_advances (hpos : pos < n.length) :
    (∃ t stop, term n pos = .ok (t, stop) ∧ pos < stop ∧ stop ≤ n.length) ∨
      ∃ f k, term n pos = .error (.fault f) ∧ f.position? = some k ∧ pos ≤ k ∧ k ≤ n.length := by
  have hat : At n pos (n.drop pos) := ⟨Nat.le_of_lt hpos, rfl⟩
  have hlength := hat.add_length
  have hterm := term_eq hat (by simpa using hpos)
  cases hread : readTerm (n.drop pos) with
  | ok found =>
    obtain ⟨t, rest⟩ := found
    have hlt := length_of_readTerm hread
    rw [hread] at hterm
    exact Or.inl ⟨t, _, hterm, by omega, by omega⟩
  | error fault =>
    obtain ⟨kind, rest⟩ := fault
    have hle := length_le_of_readTerm hread
    rw [hread] at hterm
    exact Or.inr ⟨_, _, hterm, position?_at kind _, by omega, by omega⟩

/-- A run from a place at which something is left. -/
theorem advances_readFrom {calls : ℕ} {p : Poly Float} {r : Run} (hpos : pos < n.length)
    (hr : readFrom n calls pos p = some r) : r.Advances n pos := by
  -- one call is one term, and the run behind it advances from where the term ends
  induction calls generalizing pos p r with
  | zero => cases hr
  | succ calls ih =>
    rw [readFrom] at hr
    rcases term_advances hpos with ⟨t, stop, hterm, hlt, hle⟩ | ⟨f, k, hterm, hk, hposk, hkle⟩
    · rw [hterm] at hr
      dsimp only at hr
      split at hr
      · rename_i hnone
        cases hr
        obtain rfl : stop = n.length := Nat.le_antisymm hle (List.getElem?_eq_none_iff.1 hnone)
        exact (advances_of_end _).cons hlt hle
      · rename_i c hc
        obtain ⟨hstop, -⟩ := List.getElem?_eq_some_iff.1 hc
        split at hr
        · obtain ⟨later, hlater, rfl⟩ := Option.map_eq_some_iff.1 hr
          exact (ih hstop hlater).cons hlt hle
        · cases hr
          exact (advances_of_fault rfl (Nat.le_refl stop) hle).cons hlt hle
    · rw [hterm] at hr
      cases hr
      exact advances_of_fault hk hposk hkle

/-- A run from the beginning of a text. -/
theorem advances_read {calls : ℕ} {r : Run} (hr : read n calls = some r) : r.Advances n 0 := by
  rw [read] at hr
  split at hr
  · cases hr
    exact advances_of_fault rfl (Nat.le_refl 0) (Nat.zero_le _)
  · rename_i hne
    exact advances_readFrom (List.length_pos_of_ne_nil hne) hr

end Advances

end Reading.Cursor

namespace Poly

open Reading Text

/-- A text that can be read has a character. -/
theorem normalize_ne_nil_of_parse {s : String} {p : Poly Float} (h : parse s = .ok p) :
    normalize s ≠ [] := by
  intro hnil
  have hread : readTerm [] = .error (.coefficient, []) := rfl
  rw [parse, ofText, hnil, ofChars_of_error hread] at h
  cases h

/-- Wherever something is left of a text, a call for a term stays within the text and takes a character
at least, or comes to a fault. So the cursor reads the text, with the same events and the same outcome
as by what is left, in at most one call for each character, and no part that it asks for lies outside of
the text. The places that the events tell increase. The last one is the end of the text if that is read,
and otherwise it is not behind the fault. -/
theorem parse_by_cursor (s : String) :
    (∀ pos < (normalize s).length,
        (∃ t stop, Cursor.term (normalize s) pos = .ok (t, stop) ∧ pos < stop ∧
            stop ≤ (normalize s).length) ∨
          ∃ f k, Cursor.term (normalize s) pos = .error (.fault f) ∧ f.position? = some k ∧ pos ≤ k ∧
            k ≤ (normalize s).length) ∧
      (∃ r, (∀ spare, Cursor.read (normalize s) ((normalize s).length + spare) = some r) ∧
        r.events = Event.ofText s ∧ r.result = (parse s).mapError .fault) ∧
      (0 :: Event.stopsOfText s).Pairwise (· < ·) ∧
      (∀ stop ∈ Event.stopsOfText s, stop ≤ (normalize s).length) ∧
      (Event.stopsOfText s).length ≤ (normalize s).length ∧
      (∀ p, parse s = .ok p → (Event.stopsOfText s).getLast? = some (normalize s).length) ∧
      ∀ f, parse s = .error f → ∃ k, f.position? = some k ∧ k ≤ (normalize s).length ∧
        ∀ stop ∈ (Event.stopsOfText s).getLast?, stop ≤ k := by
  have hread := fun spare => Cursor.read_eq (normalize s) (Nat.le_add_right _ spare)
  have hadvances := Cursor.advances_read (hread 0)
  have hstops : (Cursor.Run.ofReading (normalize s) 0 (ofText s)).stops = Event.stopsOfText s := rfl
  have hresult : (Cursor.Run.ofReading (normalize s) 0 (ofText s)).result =
      (parse s).mapError .fault := by
    unfold parse toPoly Cursor.Run.ofReading
    cases (ofText s).fault? <;> rfl
  obtain ⟨hincreasing, hle, hlength, hok, herror⟩ := hadvances
  rw [← ofText, hstops] at hincreasing hle hlength hok herror
  rw [Nat.zero_add] at hlength
  refine ⟨fun pos hpos => Cursor.term_advances hpos, ⟨_, hread, rfl, hresult⟩, hincreasing, hle, hlength,
    fun p hp => ?ok, fun f hf => ?error⟩
  case ok =>
    rw [hp] at hresult
    have hlast := hok p hresult
    cases hall : Event.stopsOfText s with
    | nil =>
      -- without a term, the end of the text would be its beginning
      rw [hall] at hlast
      have hpos := List.length_pos_of_ne_nil (normalize_ne_nil_of_parse hp)
      exact absurd (Option.some.inj hlast) (Nat.ne_of_lt hpos)
    | cons stop stops => rwa [hall, List.getLast?_cons_cons] at hlast
  case error =>
    rw [hf] at hresult
    obtain ⟨g, k, hg, hk, hkle, hbefore⟩ := herror _ hresult
    cases hg
    exact ⟨k, hk, hkle, fun stop hstop =>
      hbefore stop (List.mem_cons_of_mem _ (List.mem_of_getLast? hstop))⟩

/-- A sign at the end of a text, which is taken as the first character of a coefficient, and a text that
is read. -/
theorem parse_by_cursor_trailing_sign :
    (3 < (normalize "X^2 -").length ∧ ∃ f k, Cursor.term (normalize "X^2 -") 3 = .error (.fault f) ∧
        f.position? = some k ∧ 3 ≤ k ∧ k ≤ (normalize "X^2 -").length) ∧
      (parse "X^2 -" = .error (.coefficient 3) ∧
        ∀ stop ∈ (Event.stopsOfText "X^2 -").getLast?, stop ≤ 3) ∧
      (parse "X^2" = .ok (ofTerms [⟨2, 1⟩]) ∧
        (Event.stopsOfText "X^2").getLast? = some (normalize "X^2").length) := by
  have hsquare : readTerm ['x', '^', '2'] = .ok (⟨2, 1⟩, []) := rfl
  have hfirst : readTerm ['x', '^', '2', '-'] = .ok (⟨2, 1⟩, ['-']) := rfl
  have hsign : readTerm ['-'] = .error (.coefficient, ['-']) := rfl
  have hv : normalize "X^2 -" = ['x', '^', '2', '-'] := by decide +kernel
  have hw : normalize "X^2" = ['x', '^', '2'] := by decide +kernel
  have herror : parse "X^2 -" = .error (.coefficient 3) := by
    rw [parse, ofText, hv, ofChars_of_ok hfirst rfl, ofRest, if_neg (by simp),
      ofChars_of_error hsign]
    rfl
  have hok : parse "X^2" = .ok (ofTerms [⟨2, 1⟩]) := by
    rw [parse, ofText, hw, ofChars_of_ok hsquare rfl]
    rfl
  have hpos : 3 < (normalize "X^2 -").length := by rw [hv]; decide
  obtain ⟨hterm, -, -, -, -, -, hfault⟩ := parse_by_cursor "X^2 -"
  obtain ⟨-, -, -, -, -, hend, -⟩ := parse_by_cursor "X^2"
  refine ⟨⟨hpos, (hterm 3 hpos).resolve_left ?_⟩, ⟨herror, ?_⟩, ⟨hok, hend _ hok⟩⟩
  · rintro ⟨t, stop, ht, -⟩
    have hat : Cursor.At (normalize "X^2 -") 3 ['-'] := ⟨Nat.le_of_lt hpos, by rw [hv]; rfl⟩
    rw [Cursor.term_eq hat (by simp), hsign] at ht
    cases ht
  · obtain ⟨k, hk, -, hstop⟩ := hfault _ herror
    cases hk
    exact hstop

end Poly

end SparsePoly
