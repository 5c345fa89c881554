import Pseudocode.Text.Ranges

/-!
# Blanks

The characters that separate words and are trimmed from the ends of a line: the
horizontal and vertical spaces of Unicode, the four ASCII separators and the
next-line control.
-/
namespace Pseudocode.Text

def blankRanges : Ranges :=
  [(0x9, 0xD), (0x1C, 0x20), (0x85, 0x85), (0xA0, 0xA0), (0x1680, 0x1680), (0x2000, 0x200A),
   (0x2028, 0x2029), (0x202F, 0x202F), (0x205F, 0x205F), (0x3000, 0x3000)]

/-- A blank separates words. -/
def isBlank (c : Char) : Bool := blankRanges.contains c

def trim (cs : List Char) : List Char :=
  ((cs.dropWhile isBlank).reverse.dropWhile isBlank).reverse

end Pseudocode.Text
