/-
# Small letters

Names that a user may write in any case are compared in small letters.  The
names themselves are ASCII, so only what becomes an ASCII letter matters: the
capitals, the sign for kelvin, and the I with a dot.
-/

namespace ConstantTime
namespace Text

/-- The small letter of a character, if that is an ASCII letter. -/
def smallLetter (c : Char) : Char :=
  if c.toNat = 0x212A then 'k'
  else if c.toNat = 0x130 then 'i'
  else c.toLower

/-- The text in small letters, as far as they are ASCII. -/
def small (s : String) : String := s.map smallLetter

end Text
end ConstantTime
