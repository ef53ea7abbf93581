import SparsePoly.Decimal.Shortest

/-!
# Layout of numbers

Which digits a number has is settled by `Binary64.shortest`. How they are laid out is a `Layout`:
where a number is written without an exponent, and whether a whole number shows a fraction.
-/

namespace SparsePoly

/-- How the digits of a number are laid out. -/
structure Layout where
  /-- Whether a number whose leading digit has this place is written without an exponent. -/
  isPositional : Int → Bool
  /-- Whether a whole number without an exponent ends in `.0`. -/
  wholeFraction : Bool

namespace Layout

/-- Digits without an exponent. The zeros in front leave one digit before the point. -/
def positional (wholeFraction : Bool) (digits : List Char) (exponent : Int) : List Char :=
  if 0 ≤ exponent then
    digits ++ List.replicate exponent.toNat '0' ++ if wholeFraction then ['.', '0'] else []
  else
    let places := (-exponent).toNat
    let padded := List.replicate (places + 1 - digits.length) '0' ++ digits
    padded.take (padded.length - places) ++ '.' :: padded.drop (padded.length - places)

/-- An integer in decimal digits. -/
def integer (n : Int) : List Char :=
  if n < 0 then '-' :: Nat.toDigits 10 n.natAbs else Nat.toDigits 10 n.natAbs

/-- Digits with the point behind the first of them, and the place of that one as an exponent. -/
def scientific (digits : List Char) (place : Int) : List Char :=
  let fraction := if digits.length ≤ 1 then [] else '.' :: digits.drop 1
  digits.take 1 ++ fraction ++ 'e' :: integer place

/-- The text of a decimal. -/
def decimal (l : Layout) (d : Decimal) : List Char :=
  let digits := Nat.toDigits 10 d.digits
  let place := d.exponent + (digits.length - 1)
  if l.isPositional place then positional l.wholeFraction digits d.exponent
  else scientific digits place

/-- The text of the magnitude of a number. -/
def magnitude (l : Layout) (x : Float) : List Char :=
  if x.isNaN then ['N', 'a', 'N']
  else if x.isInf then ['i', 'n', 'f']
  else l.decimal (Binary64.shortest (Binary64.magnitudeWord x))

/-- The text of a number. What is not a number has no sign. -/
def float (l : Layout) (x : Float) : List Char :=
  if Binary64.isNegative x && !x.isNaN then '-' :: l.magnitude x else l.magnitude x

end Layout

end SparsePoly
