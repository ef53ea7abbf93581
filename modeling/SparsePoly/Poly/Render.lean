import SparsePoly.Decimal.Layout
import SparsePoly.Poly.Basic
import SparsePoly.Text.Superscript

/-!
# Polynomials as text

Two ways of writing a polynomial with floating-point coefficients, both from the highest exponent
down, and both `0` for the polynomial without terms:

* `render`, which can be read back: `9*x^6-x^3+7*x^2+x`. A coefficient of magnitude one is left out
  in front of the variable, and an exponent of one is left out behind it.
* `typeset`, in which each term shows its coefficient and a raised exponent: `9x⁶ + -1x³ + 7x² + 1x`.
-/

namespace SparsePoly

/-- Coefficients are written without an exponent, and whole numbers without a fraction. -/
def coefficientLayout : Layout where
  isPositional _ := true
  wholeFraction := false

namespace Term

/-- The variable with its exponent, as it can be read back. -/
def powerText (e : UInt32) : List Char :=
  if e = 0 then [] else if e = 1 then ['x'] else 'x' :: '^' :: Nat.toDigits 10 e.toNat

/-- The term without its sign. -/
def magnitudeText (t : Term Float) : List Char :=
  let factor :=
    if t.coefficient.abs == 1 then
      if t.exponent = 0 then ['1'] else []
    else coefficientLayout.float t.coefficient.abs ++ if t.exponent = 0 then [] else ['*']
  factor ++ powerText t.exponent

/-- Whether the term is written with a minus sign. -/
def isNegative (t : Term Float) : Bool := t.coefficient < 0

/-- The characters of `render`. -/
def text (t : Term Float) : List Char :=
  if t.isNegative then '-' :: t.magnitudeText else t.magnitudeText

/-- The text of the term behind another term. -/
def laterText (t : Term Float) : List Char :=
  if t.isNegative then t.text else '+' :: t.text

/-- The characters of `typeset`. -/
def typesetText (t : Term Float) : List Char :=
  coefficientLayout.float t.coefficient ++
    if t.exponent = 0 then []
    else if t.exponent = 1 then ['x']
    else 'x' :: Text.superscript t.exponent.toNat

/-- The term as it can be read back. -/
def render (t : Term Float) : String := String.ofList t.text

/-- The term with a raised exponent. -/
def typeset (t : Term Float) : String := String.ofList t.typesetText

end Term

namespace Poly

/-- The characters of `render`. -/
def text (p : Poly Float) : List Char :=
  match p.terms.reverse with
  | [] => ['0']
  | t :: ts => t.text ++ ts.flatMap Term.laterText

/-- The characters of `typeset`. -/
def typesetText (p : Poly Float) : List Char :=
  if p.terms = [] then ['0']
  else [' ', '+', ' '].intercalate (p.terms.reverse.map Term.typesetText)

/-- The polynomial as it can be read back. -/
def render (p : Poly Float) : String := String.ofList p.text

/-- The polynomial with raised exponents. -/
def typeset (p : Poly Float) : String := String.ofList p.typesetText

end Poly

end SparsePoly
