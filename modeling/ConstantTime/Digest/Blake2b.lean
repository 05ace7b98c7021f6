/-
# BLAKE2b

"Single-Path Constant-Time Transformation Engine", §12.8.

The hash function BLAKE2b with a digest of 32 bytes and no key.  The message is
cut into blocks of 128 bytes, the last one filled up with zeros; every block is
mixed into a chain of eight words, together with the number of bytes so far and
a mark on the last block.
-/

import ConstantTime.Text.Quoted

namespace ConstantTime
namespace Blake2b

/-- The initial chain, before the parameters are mixed in. -/
def initial : Array UInt64 := #[
  0x6a09e667f3bcc908, 0xbb67ae8584caa73b, 0x3c6ef372fe94f82b, 0xa54ff53a5f1d36f1,
  0x510e527fade682d1, 0x9b05688c2b3e6c1f, 0x1f83d9abfb41bd6b, 0x5be0cd19137e2179]

/-- In which order the rounds take the words of a block; after ten rounds the
orders come again. -/
def orders : List (List Nat) := [
  [0, 1, 2, 3, 4, 5, 6, 7, 8, 9, 10, 11, 12, 13, 14, 15],
  [14, 10, 4, 8, 9, 15, 13, 6, 1, 12, 0, 2, 11, 7, 5, 3],
  [11, 8, 12, 0, 5, 2, 15, 13, 10, 14, 3, 6, 7, 1, 9, 4],
  [7, 9, 3, 1, 13, 12, 11, 14, 2, 6, 5, 10, 4, 0, 15, 8],
  [9, 0, 5, 7, 2, 4, 10, 15, 14, 1, 11, 12, 6, 8, 3, 13],
  [2, 12, 6, 10, 0, 11, 8, 3, 4, 13, 7, 5, 15, 14, 1, 9],
  [12, 5, 1, 15, 14, 13, 4, 10, 0, 7, 6, 3, 9, 2, 8, 11],
  [13, 11, 7, 14, 12, 1, 3, 9, 5, 0, 15, 4, 8, 6, 2, 10],
  [6, 15, 14, 9, 11, 3, 0, 8, 12, 2, 13, 7, 1, 4, 10, 5],
  [10, 2, 8, 4, 7, 6, 1, 5, 15, 11, 9, 14, 3, 12, 13, 0]]

/-- The orders of the twelve rounds. -/
def rounds : List (List Nat) := orders ++ orders.take 2

/-- The four columns and then the four diagonals of the sixteen words. -/
def quarters : List (Nat × Nat × Nat × Nat) := [
  (0, 4, 8, 12), (1, 5, 9, 13), (2, 6, 10, 14), (3, 7, 11, 15),
  (0, 5, 10, 15), (1, 6, 11, 12), (2, 7, 8, 13), (3, 4, 9, 14)]

/-- The length of a block in bytes. -/
def blockSize : Nat := 128

/-- The length of the digest in bytes. -/
def digestSize : Nat := 32

/-- A word turned to the right by `n` bits, `0 < n < 64`. -/
def rotateRight (x n : UInt64) : UInt64 := (x >>> n) ||| (x <<< (64 - n))

/-- Mixes two words of a block into four words of the state. -/
def mix (v : Array UInt64) (q : Nat × Nat × Nat × Nat) (x y : UInt64) : Array UInt64 :=
  let (ia, ib, ic, id) := q
  let a := v.getD ia 0 + v.getD ib 0 + x
  let d := rotateRight (v.getD id 0 ^^^ a) 32
  let c := v.getD ic 0 + d
  let b := rotateRight (v.getD ib 0 ^^^ c) 24
  let a := a + b + y
  let d := rotateRight (d ^^^ a) 16
  let c := c + d
  let b := rotateRight (b ^^^ c) 63
  ((v.setIfInBounds ia a).setIfInBounds ib b).setIfInBounds ic c |>.setIfInBounds id d

/-- The pairs that a list falls into. -/
def pairs {α : Type} : List α → List (α × α)
  | a :: b :: rest => (a, b) :: pairs rest
  | _ => []

/-- One round. -/
def round (m : Array UInt64) (v : Array UInt64) (order : List Nat) : Array UInt64 :=
  (quarters.zip (pairs order)).foldl
    (fun v (q, i, j) => mix v q (m.getD i 0) (m.getD j 0)) v

/-- Mixes a block into the chain; `count` bytes have been taken with it. -/
def compress (h m : Array UInt64) (count : Nat) (last : Bool) : Array UInt64 :=
  let v := h ++ initial
  let v := v.modify 12 (· ^^^ UInt64.ofNat count)
  let v := v.modify 13 (· ^^^ UInt64.ofNat (count >>> 64))
  let v := if last then v.modify 14 (fun x => ~~~x) else v
  let v := rounds.foldl (round m) v
  h.mapIdx fun i x => x ^^^ v.getD i 0 ^^^ v.getD (i + 8) 0

/-- The word that eight bytes write, the lowest first. -/
def word (bytes : List UInt8) : UInt64 :=
  bytes.foldr (fun b w => (w <<< 8) ||| b.toUInt64) 0

/-- The words of a block. -/
def words (bytes : List UInt8) : Array UInt64 :=
  ((List.range 16).map fun i => word ((bytes.drop (8 * i)).take 8)).toArray

/-- Takes the rest of a message, `count` bytes of which have been taken; `fuel`
need not exceed the number of blocks. -/
def absorb : (fuel : Nat) → (h : Array UInt64) → (count : Nat) → List UInt8 → Array UInt64
  | 0, h, _, _ => h
  | fuel + 1, h, count, bytes =>
    if bytes.length ≤ blockSize then
      compress h (words bytes) (count + bytes.length) true
    else
      absorb fuel (compress h (words (bytes.take blockSize)) (count + blockSize) false)
        (count + blockSize) (bytes.drop blockSize)

/-- The chain with the length of the digest and the plain mode mixed in. -/
def seeded : Array UInt64 := initial.modify 0 (· ^^^ (0x01010000 ^^^ UInt64.ofNat digestSize))

/-- The bytes of a word, the lowest first. -/
def bytesOf (w : UInt64) : List UInt8 :=
  (List.range 8).map fun i => (w >>> UInt64.ofNat (8 * i)).toUInt8

/-- The digest of a message. -/
def digest (bytes : List UInt8) : List UInt8 :=
  let h := absorb (bytes.length / blockSize + 1) seeded 0 bytes
  (h.toList.flatMap bytesOf).take digestSize

/-- The digest of a text, two hexadecimal digits for each byte. -/
def hexDigest (s : String) : String :=
  String.join ((digest s.toUTF8.toList).map fun b => Text.hex 2 b.toNat)

end Blake2b
end ConstantTime
