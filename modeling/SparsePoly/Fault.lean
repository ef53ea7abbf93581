/-!
# Faults

What can go wrong, as causes: three kinds of fault in a text, each with its place, and two in
arithmetic. The wording of all of them is in `Fault.message`.
-/

namespace SparsePoly

/-- Why a text is not a polynomial, or an operation has no result. -/
inductive Fault where
  /-- Between two terms, or behind `*`, another character is needed at this place. -/
  | operator (position : Nat)
  /-- The coefficient that begins at this place is not a number. -/
  | coefficient (position : Nat)
  /-- The exponent that begins at this place is not a number that fits. -/
  | exponent (position : Nat)
  /-- The divisor is the zero polynomial. -/
  | divisionByZero
  /-- The sum of two exponents does not fit. -/
  | exponentOverflow (left right : UInt32)
deriving DecidableEq, Repr

namespace Fault

/-- The place of a fault in a text, counted in the characters that are left when blanks are dropped
and letters lower-cased. -/
def position? : Fault → Option Nat
  | operator n => some n
  | coefficient n => some n
  | exponent n => some n
  | divisionByZero => none
  | exponentOverflow _ _ => none

/-- Whether the fault is one of a text. -/
def isSyntax (f : Fault) : Bool := f.position?.isSome

/-- The wording of a fault. -/
def message : Fault → String
  | operator n => s!"Syntax error at {n}."
  | coefficient n => s!"Coefficient syntax error at {n}."
  | exponent n => s!"Exponent syntax error at {n}."
  | divisionByZero => "Division by the zero polynomial"
  | exponentOverflow d e => s!"Exponent overflow: x^{d} * x^{e} does not fit in u32"

end Fault

end SparsePoly
