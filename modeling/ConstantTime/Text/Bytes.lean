/-
# Text in bytes

Bytes are read as UTF-8.  Whatever is no character becomes a mark that stands
for something unreadable, one for each byte.
-/

namespace ConstantTime
namespace Text

/-- Stands for what cannot be read. -/
def unreadable : Char := Char.ofNat 0xFFFD

/-- Is it a byte that goes on a character? -/
def isContinuation (b : Nat) : Bool := 0x80 ≤ b && b < 0xC0

/-- The character with a number that is written in `count` bytes, if it is not
written in more than it needs. -/
def wellFormed? (least n : Nat) : Option Char :=
  if least ≤ n && n.isValidChar then some (Char.ofNat n) else none

/-- The character in front, with the number of its bytes. -/
def charOfBytes? : List Nat → Option (Char × Nat)
  | a :: rest =>
    if a < 0x80 then some (Char.ofNat a, 1)
    else
      match rest with
      | b :: rest =>
        if !isContinuation b then none
        else if 0xC0 ≤ a && a < 0xE0 then
          (wellFormed? 0x80 (a % 32 * 64 + b % 64)).map fun c => (c, 2)
        else
          match rest with
          | c :: rest =>
            if !isContinuation c then none
            else if 0xE0 ≤ a && a < 0xF0 then
              (wellFormed? 0x800 (a % 16 * 4096 + b % 64 * 64 + c % 64)).map fun c => (c, 3)
            else
              match rest with
              | d :: _ =>
                if !isContinuation d || a < 0xF0 || 0xF8 ≤ a then none
                else
                  (wellFormed? 0x10000
                    (a % 8 * 262144 + b % 64 * 4096 + c % 64 * 64 + d % 64)).map fun c => (c, 4)
              | [] => none
          | [] => none
      | [] => none
  | [] => none

/-- The characters of bytes, after the next `skip` of them. -/
def decodeFrom (skip : Nat) : List Nat → List Char
  | [] => []
  | b :: rest =>
    match skip with
    | k + 1 => decodeFrom k rest
    | 0 =>
      match charOfBytes? (b :: rest) with
      | some (c, n) => c :: decodeFrom (n - 1) rest
      | none => unreadable :: decodeFrom 0 rest

/-- The characters of bytes. -/
def ofBytes (bytes : List Nat) : List Char := decodeFrom 0 bytes

end Text
end ConstantTime
