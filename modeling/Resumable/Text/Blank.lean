import Resumable.Text.Ranges

/-!
Blank characters, and texts without blank ends.
-/

namespace Resumable.Text

/-- Boundaries of the characters with the `White_Space` property. -/
def blankBounds : List Nat := [
  9, 14, 32, 33, 133, 134, 160, 161, 5760, 5761, 8192, 8203, 8232, 8234, 8239, 8240, 8287, 8288,
  12288, 12289]

/-- A character that counts as white space. -/
def isBlank (c : Char) : Bool :=
  within blankBounds c

/-- The characters without the blanks at either end. -/
def trimChars (cs : List Char) : List Char :=
  ((cs.dropWhile isBlank).reverse.dropWhile isBlank).reverse

/-- The text without the blanks at either end. -/
def trim (s : String) : String :=
  String.ofList (trimChars s.toList)

end Resumable.Text
