/-!
# Decimal numbers

A decimal number is a whole number of units of some power of ten. `Decimal.trim` gives each value
one representation, without trailing zeros, so that a number is the same whether it comes from a
text or from the digits chosen for a text.
-/

namespace SparsePoly

/-- The number `digits * 10 ^ exponent`. -/
structure Decimal where
  /-- The significant digits, as a whole number. -/
  digits : Nat
  /-- The power of ten that counts as one unit. -/
  exponent : Int
deriving DecidableEq, Repr

namespace Decimal

/-- The number `digits * 10 ^ exponent`, with trailing zeros moved into the exponent. -/
def trim (digits : Nat) (exponent : Int) : Decimal :=
  if digits = 0 then ⟨0, 0⟩
  else if digits % 10 = 0 then trim (digits / 10) (exponent + 1)
  else ⟨digits, exponent⟩
termination_by digits
decreasing_by omega

end Decimal

end SparsePoly
