/-
# Numbers in text

Digits in any base up to sixteen, and the range of integers of 64 bits.
-/

namespace ConstantTime
namespace Text

/-- The value of a digit, if it is one in the base. -/
def digit? (base : Nat) (c : Char) : Option Nat :=
  let n :=
    if '0' ≤ c && c ≤ '9' then some (c.toNat - '0'.toNat)
    else if 'a' ≤ c && c ≤ 'f' then some (c.toNat - 'a'.toNat + 10)
    else if 'A' ≤ c && c ≤ 'F' then some (c.toNat - 'A'.toNat + 10)
    else none
  n.filter fun d => d < base

/-- The number that digits write, with at least one of them. -/
def natural? (base : Nat) (cs : List Char) : Option Nat :=
  if cs.isEmpty then none
  else cs.foldlM (fun n c => (digit? base c).map fun d => base * n + d) 0

/-- Does the integer fit into 64 bits? -/
def fits (n : Int) : Bool := Int64.minValue.toInt ≤ n && n ≤ Int64.maxValue.toInt

/-- The integer as a word, if it fits. -/
def int64? (n : Int) : Option Int64 := if fits n then some (Int64.ofInt n) else none

/-- The sign in front and the rest: is it a minus? -/
def takeSign : List Char → Bool × List Char
  | '-' :: rest => (true, rest)
  | '+' :: rest => (false, rest)
  | cs => (false, cs)

/-- A number with its sign. -/
def signed (negative : Bool) (n : Nat) : Int := if negative then -n else n

/-- The character with a number, if there is one. -/
def char? (n : Nat) : Option Char := if n.isValidChar then some (Char.ofNat n) else none

end Text
end ConstantTime
