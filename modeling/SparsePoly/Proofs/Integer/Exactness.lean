import SparsePoly.Proofs.Binary64.Integer
import SparsePoly.Proofs.Exact.Division
import SparsePoly.Proofs.Exact.Ring
import SparsePoly.Proofs.Integer.Simulation

/-!
# Polynomials with integer coefficients

Floating-point arithmetic on polynomials with integer coefficients is exact, as long as no product and no
sum on the way is of a magnitude above `2 ^ 53` in exact arithmetic (`integer_runs_exact`).

Three runs are in step for this.

* The run on floating-point numbers keeps to the one on integers as long as that is within range
  (`tracks_isInteger`): the same terms are dropped, and the others stand for the same integers
  (`Represents`).
* The run on integers keeps to the one on rational numbers without limit (`tracks_isCast`), which obeys the
  laws of arithmetic. Hence the integers obey them as well (`mul_comm_int`, `add_sub_cancel_int`,
  `divideFrom_identity_int`).
* So both sides of a law represent the same integer polynomial, and such polynomials have the same terms
  (`Represents.beq`).
-/

namespace SparsePoly

open Binary64 (IsInteger isInteger_one isInteger_greatest)

instance : LawfulNegZero ℤ where
  neg_beq_zero a := by simp

namespace Poly

/-! ## Integers within rationals -/

/-- The rational number is the integer. -/
def IsCast (n : ℤ) (x : ℚ) : Prop := (n : ℚ) = x

/-- Exact arithmetic on rational numbers keeps to that on integers without limit. -/
theorem tracks_isCast : Tracks IsCast fun _ => True where
  beq_zero := by
    rintro n _ rfl
    rw [Bool.eq_iff_iff, beq_iff_eq, beq_iff_eq, Int.cast_eq_zero]
  neg := by
    rintro n _ rfl
    exact Int.cast_neg n
  add := by
    rintro n k _ _ rfl rfl _
    exact Int.cast_add n k
  mul := by
    rintro n k _ _ rfl rfl _
    exact Int.cast_mul n k

/-- An integer polynomial is a rational one. -/
theorem exists_related_isCast (p : Poly ℤ) : ∃ p' : Poly ℚ, Related IsCast p p' :=
  exists_related tracks_isCast.beq_zero fun t _ => ⟨t.coefficient, rfl⟩

/-- A rational polynomial is that of one integer polynomial at most. -/
theorem eq_of_related_isCast {p q : Poly ℤ} {p' : Poly ℚ} (hp : Related IsCast p p')
    (hq : Related IsCast q p') : p = q :=
  hp.unique (fun _ hc hd => Int.cast_injective (hc.trans hd.symm)) hq

variable (p q d : Poly ℤ)

/-- The product of integer polynomials does not hang on the order of the factors. -/
theorem mul_comm_int : p * q = q * p := by
  obtain ⟨p', hp⟩ := exists_related_isCast p
  obtain ⟨q', hq⟩ := exists_related_isCast q
  have hcomm : p' * q' = q' * p' := toAlgebra_injective (by rw [toAlgebra_mul, toAlgebra_mul, mul_comm])
  have hpq := hp.mul tracks_isCast hq (productInRange (fun _ => trivial) _ _)
  have hqp := hq.mul tracks_isCast hp (productInRange (fun _ => trivial) _ _)
  exact eq_of_related_isCast (hcomm ▸ hpq) hqp

/-- Taking away what was added gives the integer polynomial back. -/
theorem add_sub_cancel_int : p + q - q = p := by
  obtain ⟨p', hp⟩ := exists_related_isCast p
  obtain ⟨q', hq⟩ := exists_related_isCast q
  have hcancel : p' + q' - q' = p' := ext_coefficient fun e => by simp
  have hsum := hp.add tracks_isCast hq (sumInRange (fun _ => trivial) _ _)
  have hdiff := hsum.sub tracks_isCast hq (sumInRange (fun _ => trivial) _ _)
  exact eq_of_related_isCast (hcancel ▸ hdiff) hp

/-- A division of integer polynomials by a monic one gives the dividend back. -/
theorem divideFrom_identity_int {lead : Term ℤ} (hlead : d.leadingTerm? = some lead)
    (hmonic : lead.coefficient = 1) :
    (divideFrom d lead hlead 0 p).quotient * d + (divideFrom d lead hlead 0 p).remainder = p := by
  obtain ⟨p', hp⟩ := exists_related_isCast p
  obtain ⟨d', hd⟩ := exists_related_isCast d
  obtain ⟨lead', hlead', hrel⟩ := hd.leadingTerm?_right hlead
  have hmonic' : lead'.coefficient = 1 := by
    rw [← hrel.coefficient, hmonic, Int.cast_one]
  -- divided by one, integers are exact in both types
  have hdiv : ∀ {n : ℤ} {x : ℚ}, IsCast n x →
      IsCast (n / lead.coefficient) (x / lead'.coefficient) := by
    rintro n _ rfl
    rw [hmonic, hmonic', Int.ediv_one, div_one, IsCast]
  have hv := Related.divideFrom tracks_isCast hdiv hd hlead hlead'
    (divisionInRange (fun _ => trivial) hlead' 0 p') (above_zero _ _) related_zero hp
  have hproduct := hv.quotient.mul tracks_isCast hd (productInRange (fun _ => trivial) _ _)
  have hsum := hproduct.add tracks_isCast hv.remainder (sumInRange (fun _ => trivial) _ _)
  rw [(isDivision_divideFrom p' hlead').mul_add_eq] at hsum
  exact eq_of_related_isCast hsum hp

end Poly

/-! ## Floating-point numbers -/

namespace Binary64

/-- The magnitude of the integer is at most `2 ^ 53`. -/
def ExactRange (n : ℤ) : Prop := |n| ≤ 2 ^ 53

instance : DecidablePred ExactRange := fun n => inferInstanceAs (Decidable (|n| ≤ 2 ^ 53))

/-- Floating-point arithmetic on integers keeps to that on integers up to `2 ^ 53`. -/
theorem tracks_isInteger : Tracks IsInteger ExactRange where
  beq_zero hx := hx.beq_zero
  neg hx := hx.neg
  add hx hy h := hx.add hy h
  mul hx hy h := hx.mul hy h

end Binary64

namespace Poly

open Binary64 (ExactRange tracks_isInteger)

/-- All coefficients stand for integers. -/
def HasIntegers (p : Poly Float) : Prop := ∀ t ∈ p.terms, ∃ n, IsInteger t.coefficient n

/-- The terms are those of a polynomial with integer coefficients. -/
def Represents (p : Poly Float) (p' : Poly ℤ) : Prop := Related IsInteger p p'

/-- A polynomial has integer coefficients if it represents a polynomial over the integers. -/
theorem hasIntegers_iff {p : Poly Float} : p.HasIntegers ↔ ∃ p' : Poly ℤ, p.Represents p' := by
  refine ⟨exists_related fun hx => hx.beq_zero, ?_⟩
  rintro ⟨p', hp⟩ t ht
  have hrel := related_iff.1 hp t.exponent
  rw [mem_terms_iff.1 ht] at hrel
  generalize p'.coefficient? t.exponent = c? at hrel
  cases hrel with
  | some hc => exact ⟨_, hc⟩

/-- A polynomial with integer coefficients compares equal to itself, as it has no NaN. -/
theorem Represents.beq_self {p : Poly Float} {p' : Poly ℤ} (hp : p.Represents p') : (p == p) = true := by
  change (p.terms == p.terms) = true
  unfold Represents Related at hp
  generalize p.terms = ts at hp ⊢
  generalize p'.terms = ts' at hp
  induction hp with
  | nil => rfl
  | cons ht _ ih =>
    rw [List.cons_beq_cons, ih, Bool.and_true]
    exact Bool.and_eq_true_iff.2 ⟨beq_self_eq_true _, ht.coefficient.beq_self⟩

/-- Polynomials that represent the same one have the same terms, and so they compare equal. -/
theorem Represents.beq {p q : Poly Float} {p' : Poly ℤ} (hp : p.Represents p')
    (hq : q.Represents p') : (p == q) = true := by
  have heq : p = q :=
    Related.unique (fun hn hx hy => hx.unique hy (beq_eq_false_iff_ne.1 hn)) hp hq
  rw [← heq]
  exact hp.beq_self

/-- A polynomial represents one polynomial at most. -/
theorem Represents.eq_of_represents {p : Poly Float} {p' q' : Poly ℤ} (hp : p.Represents p')
    (hq : p.Represents q') : p' = q' :=
  hp.flip.unique (fun _ hn hk => hn.eq_of_isInteger hk) hq.flip

/-- A division by a polynomial with the leading coefficient one represents that of integers, as long as
it is within range. -/
theorem Represents.divide {a b : Poly Float} {a' b' : Poly ℤ} (ha : a.Represents a')
    (hb : b.Represents b') {lead : Term Float} (hlead : b.leadingTerm? = some lead)
    (hmonic : lead.coefficient = 1) (hrange : DivisionInRange ExactRange b' ⟨lead.exponent, 1⟩ a') :
    ∃ v v', a.divide b = .ok v ∧ a'.divide b' = .ok v' ∧ Division.Related IsInteger v v' ∧
      v'.quotient * b' + v'.remainder = a' := by
  obtain ⟨lead', hlead', hrel⟩ := Related.leadingTerm?_right hb hlead
  have hone := hmonic ▸ hrel.coefficient
  have hmonic' : lead'.coefficient = 1 := hone.eq_of_isInteger isInteger_one
  have hterm : (⟨lead.exponent, 1⟩ : Term ℤ) = lead' := Term.ext hrel.exponent hmonic'.symm
  rw [hterm] at hrange
  have hdiv : ∀ {x : Float} {n : ℤ}, IsInteger x n →
      IsInteger (x / lead.coefficient) (n / lead'.coefficient) := by
    intro x n hx
    rw [hmonic, hmonic', Int.ediv_one]
    exact hx.div_one isInteger_one
  exact ⟨_, _, divide_of_leadingTerm? a hlead, divide_of_leadingTerm? a' hlead',
    Related.divideFrom tracks_isInteger hdiv hb hlead hlead' hrange (above_zero _ _) related_zero ha,
    divideFrom_identity_int a' b' hlead' hmonic'⟩

/-- Arithmetic on floating-point polynomials with integer coefficients is exact as long as no product and
no partial sum of the same run on integers is of a magnitude above `2 ^ 53`: sums, differences, products and
divisions by a polynomial with the leading coefficient one have the terms of those of the integer
polynomials. So the laws of arithmetic hold of floating-point numbers where both sides stay within that
range. -/
theorem integer_runs_exact {a b : Poly Float} (ha : a.HasIntegers) (hb : b.HasIntegers) :
    ∃ a' b' : Poly ℤ, a.Represents a' ∧ b.Represents b' ∧
      (SumInRange ExactRange a' b' → (a + b).Represents (a' + b')) ∧
      (SumInRange ExactRange a' (-b') → (a - b).Represents (a' - b')) ∧
      (ProductInRange ExactRange a' b' → (a * b).Represents (a' * b')) ∧
      (ProductInRange ExactRange a' b' → ProductInRange ExactRange b' a' → (a * b == b * a) = true) ∧
      (SumInRange ExactRange a' b' → SumInRange ExactRange (a' + b') (-b') → (a + b - b == a) = true) ∧
      ∀ lead, b.leadingTerm? = some lead → lead.coefficient = 1 →
        DivisionInRange ExactRange b' ⟨lead.exponent, 1⟩ a' →
        ∃ v v', a.divide b = .ok v ∧ a'.divide b' = .ok v' ∧
          v.quotient.Represents v'.quotient ∧ v.remainder.Represents v'.remainder ∧
          (ProductInRange ExactRange v'.quotient b' →
            SumInRange ExactRange (v'.quotient * b') v'.remainder →
            (v.quotient * b + v.remainder == a) = true) := by
  obtain ⟨a', ha'⟩ := hasIntegers_iff.1 ha
  obtain ⟨b', hb'⟩ := hasIntegers_iff.1 hb
  refine ⟨a', b', ha', hb', ha'.add tracks_isInteger hb', ha'.sub tracks_isInteger hb',
    ha'.mul tracks_isInteger hb', fun hab hba => ?_, fun hsum hdiff => ?_, ?_⟩
  -- for each law, both sides represent the same integer polynomial
  · have hcomm := hb'.mul tracks_isInteger ha' hba
    rw [mul_comm_int] at hcomm
    exact Represents.beq (ha'.mul tracks_isInteger hb' hab) hcomm
  · have hcancel := (ha'.add tracks_isInteger hb' hsum).sub tracks_isInteger hb' hdiff
    rw [add_sub_cancel_int] at hcancel
    exact Represents.beq hcancel ha'
  · intro lead hlead hmonic hrange
    obtain ⟨v, v', hv, hv', hrel, hidentity⟩ := ha'.divide hb' hlead hmonic hrange
    refine ⟨v, v', hv, hv', hrel.quotient, hrel.remainder, fun hproduct hsum => ?_⟩
    have hback := (hrel.quotient.mul tracks_isInteger hb' hproduct).add tracks_isInteger
      hrel.remainder hsum
    rw [hidentity] at hback
    exact Represents.beq hback ha'

/-- `(2^53 - 1)*x - 1` and `x + 1`: the leading coefficient of the sum is `2 ^ 53`, and the remainder of
the division is `-2 ^ 53`. -/
theorem integer_runs_exact_limit :
    ∃ a b : Poly Float, a.terms = [⟨0, -1⟩, ⟨1, 9007199254740991⟩] ∧ b.terms = [⟨0, 1⟩, ⟨1, 1⟩] ∧
      a.HasIntegers ∧ b.HasIntegers ∧ (a * b == b * a) = true ∧ (a + b - b == a) = true ∧
      ∃ v, a.divide b = .ok v ∧ v.remainder.Represents (monomial ⟨0, -9007199254740992⟩) ∧
        (v.quotient * b + v.remainder == a) = true := by
  let a : Poly Float := ofTerms [⟨0, -1⟩, ⟨1, 9007199254740991⟩]
  let b : Poly Float := ofTerms [⟨0, 1⟩, ⟨1, 1⟩]
  let a₀ : Poly ℤ := ofTerms [⟨0, -1⟩, ⟨1, 9007199254740991⟩]
  let b₀ : Poly ℤ := ofTerms [⟨0, 1⟩, ⟨1, 1⟩]
  let top : Term ℤ := ⟨1, 9007199254740991⟩
  have haterms : a.terms = [⟨0, -1⟩, ⟨1, 9007199254740991⟩] := by decide +kernel
  have hbterms : b.terms = [⟨0, 1⟩, ⟨1, 1⟩] := by decide +kernel
  have ha₀terms : a₀.terms = [⟨0, -1⟩, top] := by decide +kernel
  have hb₀terms : b₀.terms = [⟨0, 1⟩, ⟨1, 1⟩] := by decide +kernel
  have ha₀ : a.Represents a₀ := by
    rw [Represents, Related, haterms, ha₀terms]
    exact .cons ⟨rfl, isInteger_one.neg⟩ (.cons ⟨rfl, isInteger_greatest⟩ .nil)
  have hb₀ : b.Represents b₀ := by
    rw [Represents, Related, hbterms, hb₀terms]
    exact .cons ⟨rfl, isInteger_one⟩ (.cons ⟨rfl, isInteger_one⟩ .nil)
  have ha : a.HasIntegers := hasIntegers_iff.2 ⟨a₀, ha₀⟩
  have hb : b.HasIntegers := hasIntegers_iff.2 ⟨b₀, hb₀⟩
  obtain ⟨a', b', ha', hb', -, -, -, hcomm, hcancel, hdivide⟩ := integer_runs_exact ha hb
  obtain rfl := ha'.eq_of_represents ha₀
  obtain rfl := hb'.eq_of_represents hb₀
  -- the division ends after one pass
  have htop : a₀.leadingTerm? = some top := by
    rw [leadingTerm?, ha₀terms]
    rfl
  have hlead : b.leadingTerm? = some ⟨1, 1⟩ := by
    rw [leadingTerm?, hbterms]
    rfl
  have hlead₀ : b₀.leadingTerm? = some ⟨1, 1⟩ := by
    rw [leadingTerm?, hb₀terms]
    rfl
  have hrest : reduce a₀ b₀ top ⟨1, 1⟩ = monomial ⟨0, -9007199254740992⟩ :=
    Poly.ext (by decide +kernel)
  have hdegree : ∀ e ∈ (monomial (⟨0, -9007199254740992⟩ : Term ℤ)).degree?, e < 1 := by
    intro e he
    obtain rfl : 0 = e := Option.some.inj he
    decide
  have hdivide₀ : a₀.divide b₀ = .ok ⟨0 + ratio top ⟨1, 1⟩, monomial ⟨0, -9007199254740992⟩⟩ := by
    rw [divide_of_leadingTerm? a₀ hlead₀, divideFrom_of_not_lt htop (by decide), hrest,
      divideFrom_of_degree_lt hlead₀ hdegree]
  have hrange : DivisionInRange ExactRange b₀ ⟨1, 1⟩ a₀ :=
    .pass htop (UInt32.le_refl _) (by decide +kernel) (by decide +kernel) (.stop (hrest ▸ hdegree))
  obtain ⟨v, v', hv, hv', -, hremainder, hidentity⟩ := hdivide _ hlead rfl hrange
  obtain rfl := Except.ok.inj (hv'.symm.trans hdivide₀)
  exact ⟨a, b, haterms, hbterms, ha, hb, hcomm (by decide +kernel) (by decide +kernel),
    hcancel (by decide +kernel) (by decide +kernel), v, hv, hremainder,
    hidentity (by decide +kernel) (by decide +kernel)⟩

/-- Beyond `2 ^ 53` a sum is rounded, and the difference does not give the summand back. -/
example : (monomial ⟨0, 9007199254740992⟩ + monomial ⟨0, 1⟩ - monomial ⟨0, 1⟩ ==
    (monomial ⟨0, 9007199254740992⟩ : Poly Float)) = false := by
  decide +kernel

end Poly

end SparsePoly
