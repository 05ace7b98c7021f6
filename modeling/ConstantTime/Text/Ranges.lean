/-
# Ranges of characters

Tables list the characters of a class as ranges of their numbers.
-/

namespace ConstantTime
namespace Text

/-- Is a number in one of the ranges? -/
def inRanges (ranges : List (Nat × Nat)) (n : Nat) : Bool :=
  ranges.any fun (lo, hi) => lo ≤ n && n ≤ hi

end Text
end ConstantTime
