import SparsePoly.Text.Blank
import SparsePoly.Text.Lowercase

/-!
# Normal form of a text

Before a text is read, its blanks are dropped and its letters are made lower-case. Places in a text
are counted in the characters that this leaves.
-/

namespace SparsePoly.Text

/-- The characters of a text that count. -/
def normalize (s : String) : List Char :=
  (s.toList.filter fun c => !isBlank c).flatMap lowercase

end SparsePoly.Text
