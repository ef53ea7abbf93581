import SparsePoly.Decimal.Basic

/-!
# The floating-point number nearest to a decimal

Magnitudes of binary64 numbers are words below `infinityWord`: the word `w` stands for
`significand w * 2 ^ unit w`, and the words are in the order of the magnitudes that they stand for.
A quotient of natural numbers is rounded to the nearest such word (`nearestWord`), ties to the even
one, and to `infinityWord` if it is too large.

The unit of the result is found first. A significand that is rounded up to `2 ^ 53` needs no
correction: it carries over into the exponent field of the word.
-/

namespace SparsePoly

/-- The power of natural numbers, as an instance that no import replaces. -/
local instance natPow : Pow Nat Nat := instPowNat

namespace Binary64

/-- The word of infinity, one above the word of the greatest finite magnitude. -/
def infinityWord : Nat := 0x7FF0000000000000

/-- The least unit, which is that of the subnormal numbers. -/
def leastUnit : Int := -1074

/-- The whole number of units that a word stands for. -/
def significand (w : Nat) : Nat :=
  if w < 2 ^ (52 : Nat) then w else 2 ^ (52 : Nat) + w % 2 ^ (52 : Nat)

/-- The power of two that counts as one unit of a word. -/
def unit (w : Nat) : Int :=
  if w < 2 ^ (52 : Nat) then leastUnit else leastUnit + ((w / 2 ^ (52 : Nat) : Nat) - 1)

/-- The numerator of the value of a word. -/
def numerator (w : Nat) : Nat := significand w * 2 ^ (unit w).toNat

/-- The denominator of the value of a word. -/
def denominator (w : Nat) : Nat := 2 ^ (-unit w).toNat

/-- The quotient rounded to the nearest whole number, ties to the even one. -/
def roundQuotient (num den : Nat) : Nat :=
  let q := num / den
  let r := num % den
  if 2 * r < den ∨ 2 * r = den ∧ q % 2 = 0 then q else q + 1

/-- The binary logarithm of a quotient, rounded down. -/
def floorLog2 (num den : Nat) : Int :=
  let e : Int := (num.log2 : Int) - den.log2
  if num * 2 ^ (-e).toNat < den * 2 ^ e.toNat then e - 1 else e

/-- The word of the magnitude nearest to a quotient. -/
def nearestWord (num den : Nat) : Nat :=
  let q := max leastUnit (floorLog2 num den - 52)
  min infinityWord
    ((q - leastUnit).toNat * 2 ^ (52 : Nat) +
      roundQuotient (num * 2 ^ (-q).toNat) (den * 2 ^ q.toNat))

/-- The number with the given sign and magnitude. -/
def ofWord (negative : Bool) (w : Nat) : Float :=
  Float.ofBits (UInt64.ofNat (if negative then 2 ^ (63 : Nat) + w else w))

/-- The word of the magnitude of a number. -/
def magnitudeWord (x : Float) : Nat := x.toBits.toNat % 2 ^ (63 : Nat)

/-- Whether the sign of a number is negative. Zeros have a sign. -/
def isNegative (x : Float) : Bool := 2 ^ (63 : Nat) ≤ x.toBits.toNat

end Binary64

namespace Decimal

/-- The word of the magnitude nearest to a decimal. Exponents that are out of reach are settled
before any power of ten is taken: a positive number of units of `10 ^ 309` is too large, and
`digits < 2 ^ (digits.log2 + 1)` units are below half of the least magnitude if the exponent is below
`-(325 + digits.log2)`. -/
def nearestWord (d : Decimal) : Nat :=
  if d.digits = 0 then 0
  else if 309 ≤ d.exponent then Binary64.infinityWord
  else if d.exponent < -(325 + (d.digits.log2 : Int)) then 0
  else Binary64.nearestWord (d.digits * 10 ^ d.exponent.toNat) (10 ^ (-d.exponent).toNat)

/-- The floating-point number nearest to a decimal, with the given sign. -/
def toFloat (negative : Bool) (d : Decimal) : Float := Binary64.ofWord negative d.nearestWord

end Decimal

end SparsePoly
