/-!
# Blank characters

White space in a score and around the words of a configuration: the characters with the Unicode
property White_Space, and the four information separators U+001C to U+001F.
-/

namespace Monody.Text

/-- The ranges of blank code points. -/
def blankRanges : List (Nat × Nat) :=
  [(9, 13), (28, 32), (133, 133), (160, 160), (5760, 5760), (8192, 8202), (8232, 8233),
   (8239, 8239), (8287, 8287), (12288, 12288)]

/-- Whether a character is white space. -/
def isBlank (c : Char) : Bool :=
  blankRanges.any fun r => r.1 ≤ c.toNat && c.toNat ≤ r.2

end Monody.Text
