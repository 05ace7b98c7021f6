/-
# Ranges of access counts

"Single-Path Constant-Time Transformation Engine", §3 and §4.4.

How many memory accesses happen at least and at most.  Counts are 64-bit words:
sums and products that leave the range of a word wrap around.
-/

namespace ConstantTime

/-- Least and greatest number of accesses. -/
structure AccessRange where
  min : Int64
  max : Int64
deriving DecidableEq, Repr, Inhabited

namespace AccessRange

/-- Exactly so many. -/
def exactly (n : Int64) : AccessRange := ⟨n, n⟩

/-- The smallest range around two. -/
def join (a b : AccessRange) : AccessRange :=
  ⟨if b.min < a.min then b.min else a.min, if a.max < b.max then b.max else a.max⟩

/-- One after the other. -/
def add (a b : AccessRange) : AccessRange := ⟨a.min + b.min, a.max + b.max⟩

/-- By how much the count may differ. -/
def width (r : AccessRange) : Int64 := r.max - r.min

/-- The range as text. -/
def text (r : AccessRange) : String := s!"[{r.min}, {r.max}]"

/-- The smallest range around several, if there is one at all. -/
def joinAll : List AccessRange → Option AccessRange
  | [] => none
  | r :: rest => some (rest.foldl join r)

end AccessRange
end ConstantTime
