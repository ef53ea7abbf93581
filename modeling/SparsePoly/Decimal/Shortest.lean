import SparsePoly.Decimal.Nearest

/-!
# The shortest decimal that reads back

Of the decimals whose nearest floating-point magnitude is a given one, `shortest` picks one with the
fewest digits, and of those the nearest to the exact value; a tie goes to the larger.

The search goes from the place of the leading digit down, one place at a time. On the grid of a
place only the two neighbours of the exact value can be picked: if any point of the grid reads back,
one of them does. Seventeen digits are always enough; were they not, the exact value would be
written, which has finitely many digits.
-/

namespace SparsePoly.Binary64

attribute [local instance] natPow

/-- The place of the leading digit of a positive quotient: the greatest `k` such that `10 ^ k` does
not exceed it. -/
def leadingPlace (num den : Nat) : Int :=
  if den ≤ num then (Nat.toDigits 10 (num / den)).length - 1
  else -(Nat.toDigits 10 ((den - 1) / num)).length

/-- The decimal with whole units of `10 ^ place` that is nearest to the value of the word `w` among
the two neighbours of that value that read back as `w`, if any does. -/
def nearestAt (w : Nat) (place : Int) : Option Decimal :=
  let num := numerator w * 10 ^ (-place).toNat
  let den := denominator w * 10 ^ place.toNat
  let below := Decimal.trim (num / den) place
  let above := Decimal.trim (num / den + 1) place
  if below.nearestWord = w then
    if above.nearestWord = w ∧ den ≤ 2 * (num % den) then some above else some below
  else if above.nearestWord = w then some above
  else none

/-- The value of a word, written out in full. -/
def exactDecimal (w : Nat) : Decimal :=
  if 0 ≤ unit w then .trim (numerator w) 0
  else .trim (significand w * 5 ^ (-unit w).toNat) (unit w)

/-- The shortest decimal that reads back as the word `w`. -/
def shortest (w : Nat) : Decimal :=
  let place := leadingPlace (numerator w) (denominator w)
  ((List.range 17).findSome? fun (n : Nat) => nearestAt w (place - n)).getD (exactDecimal w)

end SparsePoly.Binary64
