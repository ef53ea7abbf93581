import SparsePoly.Decimal.Nearest

/-!
# Numerals

The numbers that a text may hold:

* a decimal numeral is an optional sign, digits with an optional point among, before or behind them
  (one digit at least), and an optional exponent, which is `e`, an optional sign and digits;
* an exponent of the variable is an optional `+` and digits, with a value that fits in 32 bits.

Digits are those of ASCII, of any number, and leading zeros are allowed.
-/

namespace SparsePoly.Numeral

/-- The number that some digits stand for, if there are any and nothing else. -/
def natural? (cs : List Char) : Option Nat :=
  if cs ≠ [] ∧ cs.all Char.isDigit then some (Nat.ofDigitChars 10 cs 0) else none

/-- The number behind an optional sign. -/
def integer? : List Char → Option Int
  | '+' :: cs => (natural? cs).map Int.ofNat
  | '-' :: cs => (natural? cs).map fun n => -Int.ofNat n
  | cs => (natural? cs).map Int.ofNat

/-- The exponent of a decimal numeral, which is `0` if it is left out. -/
def scale? : List Char → Option Int
  | [] => some 0
  | 'e' :: cs => integer? cs
  | _ => none

/-- A decimal numeral without a sign. -/
def unsigned? (cs : List Char) : Option Decimal :=
  let whole := cs.takeWhile Char.isDigit
  let behind := cs.dropWhile Char.isDigit
  let fraction := if behind.head? = some '.' then behind.tail.takeWhile Char.isDigit else []
  let rest := if behind.head? = some '.' then behind.tail.dropWhile Char.isDigit else behind
  if whole ++ fraction = [] then none
  else (scale? rest).map fun e =>
    .trim (Nat.ofDigitChars 10 (whole ++ fraction) 0) (e - fraction.length)

/-- The floating-point number nearest to a decimal numeral. -/
def float? : List Char → Option Float
  | '+' :: cs => (unsigned? cs).map (Decimal.toFloat false)
  | '-' :: cs => (unsigned? cs).map (Decimal.toFloat true)
  | cs => (unsigned? cs).map (Decimal.toFloat false)

/-- An exponent of the variable. -/
def exponent? (cs : List Char) : Option UInt32 :=
  match natural? (if cs.head? = some '+' then cs.tail else cs) with
  | some n => if n < UInt32.size then some (UInt32.ofNat n) else none
  | none => none

end SparsePoly.Numeral
