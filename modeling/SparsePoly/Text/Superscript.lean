/-!
# Superscript numbers

Raised decimal digits, in which exponents are typeset.
-/

namespace SparsePoly.Text

/-- The raised form of a digit. Other characters stay as they are. -/
def superscriptDigit : Char → Char
  | '0' => '⁰'
  | '1' => '¹'
  | '2' => '²'
  | '3' => '³'
  | '4' => '⁴'
  | '5' => '⁵'
  | '6' => '⁶'
  | '7' => '⁷'
  | '8' => '⁸'
  | '9' => '⁹'
  | c => c

/-- A natural number in raised decimal digits. -/
def superscript (n : Nat) : List Char := (Nat.toDigits 10 n).map superscriptDigit

end SparsePoly.Text
