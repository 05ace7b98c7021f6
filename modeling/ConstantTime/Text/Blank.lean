/-
# Blanks

The characters that separate words in any language: the blanks and line ends of
ASCII and those of Unicode.
-/

import ConstantTime.Text.Ranges

namespace ConstantTime
namespace Text

/-- The blanks and line ends, as ranges. -/
def blankRanges : List (Nat × Nat) := [
  (0x09, 0x0D), (0x20, 0x20), (0x85, 0x85), (0xA0, 0xA0), (0x1680, 0x1680), (0x2000, 0x200A),
  (0x2028, 0x2029), (0x202F, 0x202F), (0x205F, 0x205F), (0x3000, 0x3000)]

/-- Is the character a blank or a line end? -/
def isBlank (c : Char) : Bool := inRanges blankRanges c.toNat

end Text
end ConstantTime
