import SparsePoly.Proofs.Termwise.Sum

/-!
# Terms added in any interleaving

Terms that are added one after the other are put in between others, summed, taken out and put in again. What
becomes of a coefficient hangs on nothing but its own history, which is the row of coefficients that come
with its exponent (`TermList.history`). So terms of different exponents may change places, while those of one
exponent may not, as sums of floating-point numbers hang on the order.

* `TermList.forall_history_eq_iff`: whether two rows of terms have the same histories is settled by the
  exponents that occur, so it can be decided.
* `extend_by_histories`: rows with the same histories give the same polynomial, also where each place is
  found by bisection.

No law of arithmetic is used, so all of this holds of floating-point numbers, NaN and infinities included.
-/

universe u

namespace SparsePoly

variable {α : Type u}

/-! ## Histories -/

namespace TermList

/-- The coefficients that come with the exponent `e`, in the order of the terms. -/
def history (e : UInt32) (ts : List (Term α)) : List α :=
  (ts.filter (·.exponent == e)).map (·.coefficient)

/-- An exponent that does not occur has no history. -/
theorem history_eq_nil {e : UInt32} {ts : List (Term α)} (h : ∀ t ∈ ts, t.exponent ≠ e) :
    history e ts = [] := by
  rw [history, List.map_eq_nil_iff, List.filter_eq_nil_iff]
  exact fun t ht he => h t ht (beq_iff_eq.1 he)

/-- Only the exponents that occur have to be looked at. -/
theorem forall_history_eq_iff {ts us : List (Term α)} :
    (∀ e, history e ts = history e us) ↔
      ∀ t ∈ ts ++ us, history t.exponent ts = history t.exponent us := by
  refine ⟨fun h t _ => h t.exponent, fun h e => ?_⟩
  by_cases hoccurs : ∃ t ∈ ts ++ us, t.exponent = e
  · obtain ⟨t, ht, rfl⟩ := hoccurs
    exact h t ht
  · -- both histories of an exponent that does not occur are empty
    have hne : ∀ t ∈ ts ++ us, t.exponent ≠ e := fun t ht he => hoccurs ⟨t, ht, he⟩
    rw [history_eq_nil fun t ht => hne t (List.mem_append_left _ ht),
      history_eq_nil fun t ht => hne t (List.mem_append_right _ ht)]

instance [DecidableEq α] (ts us : List (Term α)) : Decidable (∀ e, history e ts = history e us) :=
  decidable_of_iff _ forall_history_eq_iff.symm

end TermList

namespace Poly

open TermList

variable [Zero α] [BEq α] [Add α]

/-! ## Building term by term -/

/-- Rows of terms with the same histories come to the same polynomial. -/
theorem extend_congr (p : Poly α) {ts us : List (Term α)} (h : ∀ e, history e ts = history e us) :
    p.extend ts = p.extend us := by
  apply ext_coefficient?
  intro e
  rw [coefficient?_extend, coefficient?_extend]
  exact congrArg (List.foldl accumulate (p.coefficient? e)) (h e)

/-- Whatever the coefficients are and however they are added, a coefficient is what there was of it,
accumulated with its own history: zeros are passed over, and a sum that equals zero leaves nothing behind. So
rows of terms in which each exponent has the same history come to the same terms, from any polynomial on and
from nothing, also on a plain row in which each place is found by bisection. The terms of a polynomial in
any order come to the polynomial. -/
theorem extend_by_histories (p : Poly α) :
    (∀ ts e, (p.extend ts).coefficient? e = (history e ts).foldl accumulate (p.coefficient? e)) ∧
      (∀ ts us : List (Term α), (∀ e, history e ts = history e us) →
        p.extend ts = p.extend us ∧ ofTerms ts = ofTerms us ∧
          Storage.putAll p.terms ts = Storage.putAll p.terms us ∧
          Storage.putAll [] ts = Storage.putAll [] us) ∧
      ∀ ts : List (Term α), ts.Perm p.terms → ofTerms ts = p ∧ Storage.putAll [] ts = p.terms := by
  refine ⟨p.coefficient?_extend, fun ts us h => ?_, fun ts hperm => ?_⟩
  · have hextend := p.extend_congr h
    have hsum : ofTerms ts = ofTerms us := extend_congr 0 h
    refine ⟨hextend, hsum, ?_, ?_⟩
    · rw [Storage.putAll_terms, Storage.putAll_terms, hextend]
    · rw [Storage.putAll_nil_terms, Storage.putAll_nil_terms, hsum]
  · have hsum := ofTerms_of_perm hperm
    exact ⟨hsum, by rw [Storage.putAll_nil_terms, hsum]⟩

/-- Two interleavings of the same histories: at `x ^ 2` a term is taken out and put in again, and at `x` a
sum overflows and then becomes NaN. -/
theorem extend_by_histories_interleaved :
    ∃ p : Poly Float, p.terms = [⟨1, 1e308⟩, ⟨2, 5⟩] ∧
      (∀ e, history e [⟨2, -5⟩, ⟨1, 1e308⟩, ⟨2, 0⟩, ⟨1, -1 / 0⟩, ⟨2, 0.5⟩] =
        history e [⟨1, (1e308 : Float)⟩, ⟨1, -1 / 0⟩, ⟨2, -5⟩, ⟨2, 0⟩, ⟨2, 0.5⟩]) ∧
      p.extend [⟨2, -5⟩, ⟨1, 1e308⟩, ⟨2, 0⟩, ⟨1, -1 / 0⟩, ⟨2, 0.5⟩] =
        p.extend [⟨1, 1e308⟩, ⟨1, -1 / 0⟩, ⟨2, -5⟩, ⟨2, 0⟩, ⟨2, 0.5⟩] ∧
      (p.extend [⟨1, 1e308⟩, ⟨1, -1 / 0⟩, ⟨2, -5⟩, ⟨2, 0⟩, ⟨2, 0.5⟩]).terms =
        [⟨1, 0 / 0⟩, ⟨2, 0.5⟩] ∧
      ofTerms [⟨2, 5⟩, ⟨1, 1e308⟩] = p := by
  have hsame : ∀ e, history e [⟨2, -5⟩, ⟨1, 1e308⟩, ⟨2, 0⟩, ⟨1, -1 / 0⟩, ⟨2, 0.5⟩] =
      history e [⟨1, (1e308 : Float)⟩, ⟨1, -1 / 0⟩, ⟨2, -5⟩, ⟨2, 0⟩, ⟨2, 0.5⟩] := by
    decide +kernel
  have hterms : (ofTerms [⟨1, 1e308⟩, ⟨2, 5⟩] : Poly Float).terms = [⟨1, 1e308⟩, ⟨2, 5⟩] := by
    decide +kernel
  have hperm : [⟨2, 5⟩, ⟨1, 1e308⟩].Perm (ofTerms [⟨1, 1e308⟩, ⟨2, 5⟩] : Poly Float).terms := by
    rw [hterms]
    exact .swap _ _ _
  obtain ⟨-, hcongr, hback⟩ := extend_by_histories (ofTerms [⟨1, 1e308⟩, ⟨2, 5⟩] : Poly Float)
  exact ⟨_, hterms, hsame, (hcongr _ _ hsame).1, by decide +kernel, (hback _ hperm).1⟩

end Poly

end SparsePoly
