/-
# What scalars mean

A scalar without quotes may be nothing at all, a flag or a number, and always
its own text; one in quotes is a text.  A number with a fraction is rounded to
53 bits and counts as an integer without what is left of the fraction.  The
words `yes`, `no`, `on` and `off` are flags even in quotes.

A tag in front makes a scalar what it says, if it can be that.
-/

import ConstantTime.Text.Number
import ConstantTime.Yaml.Moment

namespace ConstantTime
namespace Yaml

/-- What a scalar means. -/
inductive Meaning where
  | null
  | flag (b : Bool)
  | int (n : Int)
  /-- A number with a fraction, and the integer that it counts as. -/
  | decimal (n : Option Int64)
  | moment
  /-- The sign that another table is to be merged in. -/
  | merge
  | text (s : String)
deriving DecidableEq, Repr, Inhabited

/-! ### Numbers -/

/-- The number without a sign, in the base that it begins with. -/
def magnitude? : List Char → Option Nat
  | '0' :: k :: rest =>
    if k = 'x' || k = 'X' then Text.natural? 16 rest
    else if k = 'b' || k = 'B' then Text.natural? 2 rest
    else if k = 'o' || k = 'O' then Text.natural? 8 rest
    else Text.natural? 8 (k :: rest)
  | cs => Text.natural? 10 cs

/-- The number after a base, which may have a sign of its own. -/
def basedInteger? (base : Nat) (cs : List Char) : Option Int :=
  let (negative, ds) := Text.takeSign cs
  ((Text.natural? base ds).map (Text.signed negative)).filter Text.fits

/-- The number of 64 bits that is written as an integer.  Only without a sign may it
need all of the bits. -/
def integer? (cs : List Char) : Option Int :=
  let (negative, ds) := Text.takeSign cs
  match magnitude? ds with
  | some n =>
    let v := Text.signed negative n
    if Text.fits v || (ds = cs && n < Nat.pow 2 64) then some v else none
  | none => none

/-- The exponent after the digits of a number; nothing else may follow. -/
def exponent? : List Char → Option Int
  | [] => some 0
  | e :: rest =>
    if e = 'e' || e = 'E' then
      let (negative, ds) := Text.takeSign rest
      (Text.natural? 10 ds).map (Text.signed negative)
    else none

/-- The number of significant bits of a number with a fraction. -/
def precision : Nat := 53

/-- Numbers with more bits in front of the point are too large. -/
def largestWidth : Nat := 1024

/-- The number of bits that a number takes. -/
def bitCount (n : Nat) : Nat := if n = 0 then 0 else n.log2 + 1

/-- The quotient, rounded to the nearest integer; a half goes to the even one. -/
def roundedQuotient (p q : Nat) : Nat :=
  let k := p / q
  let r := p % q
  if 2 * r < q then k else if q < 2 * r then k + 1 else k + k % 2

/-- The whole part of `p / q` rounded to the nearest number of `precision` bits. -/
def wholeOfRounded (p q : Nat) : Nat :=
  let bits := bitCount (p / q)
  let dropped := bits - precision
  let added := precision - bits
  (roundedQuotient (p <<< added) (q <<< dropped) <<< dropped) >>> added

/-- The whole part of `n · 10 ^ e`, if that is not too large; `digits` is the number
of digits in which `n` is written. -/
def wholePart? (n digits : Nat) (e : Int) : Option Nat :=
  if n = 0 || (digits : Int) + e < 0 then some 0
  else if (largestWidth : Int) < e then none
  else
    let whole := if 0 ≤ e then wholeOfRounded (n * Nat.pow 10 e.toNat) 1
      else wholeOfRounded n (Nat.pow 10 (-e).toNat)
    if bitCount whole ≤ largestWidth then some whole else none

/-- The word that a whole part becomes: too large is no number, too small is the
least one. -/
def clamped? (n : Int) : Option Int64 :=
  if Int64.maxValue.toInt + 1 < n then none
  else some (if Text.fits n then Int64.ofInt n else Int64.minValue)

/-- The whole part of a number with a fraction or an exponent. -/
def truncated? (cs : List Char) : Option Int :=
  let (negative, cs) := Text.takeSign cs
  let (whole, rest) := cs.span Char.isDigit
  let (fraction, rest) :=
    match rest with
    | '.' :: rest => rest.span Char.isDigit
    | rest => ([], rest)
  let digits := whole ++ fraction
  match Text.natural? 10 digits, exponent? rest with
  | some n, some e =>
    (wholePart? n digits.length (e - fraction.length)).map (Text.signed negative)
  | _, _ => none

/-- Does every underscore stand between two digits? -/
def isGrouped (before : Bool) : List Char → Bool
  | [] => true
  | ['_'] => false
  | '_' :: c :: rest => before && c.isDigit && isGrouped true rest
  | c :: rest => isGrouped c.isDigit rest

/-- A number that begins with a point. -/
def pointed? (cs : List Char) : Option Int :=
  if isGrouped false cs then truncated? (cs.filter (· ≠ '_')) else none

/-- The meaning of what begins with a digit or a sign, in which underscores do not
count. -/
def number? (s : List Char) : Option Meaning :=
  let cs := s.filter (· ≠ '_')
  match integer? cs with
  | some n => some (.int n)
  | none =>
    match truncated? cs with
    | some n => some (.decimal (clamped? n))
    | none =>
      match cs with
      | '0' :: 'b' :: rest => (basedInteger? 2 rest).map .int
      | '0' :: 'o' :: rest => (basedInteger? 8 rest).map .int
      | _ => none

/-! ### Words -/

/-- Words with a meaning. -/
def word? (s : String) : Option Meaning :=
  if s ∈ ["", "~", "null", "Null", "NULL"] then some .null
  else if s ∈ ["true", "True", "TRUE"] then some (.flag true)
  else if s ∈ ["false", "False", "FALSE"] then some (.flag false)
  else if s ∈ [".nan", ".NaN", ".NAN", ".inf", ".Inf", ".INF", "+.inf", "+.Inf", "+.INF"] then
    some (.decimal none)
  else if s ∈ ["-.inf", "-.Inf", "-.INF"] then some (.decimal (some Int64.minValue))
  else if s = "<<" then some .merge
  else none

/-- Texts that are flags where a flag is wanted. -/
def wordFlag? (s : String) : Option Bool :=
  if s ∈ ["y", "Y", "yes", "Yes", "YES", "on", "On", "ON"] then some true
  else if s ∈ ["n", "N", "no", "No", "NO", "off", "Off", "OFF"] then some false
  else none

/-- The meaning of a scalar without quotes; `moments` says whether it may be a date
or a time. -/
def plainMeaning (moments : Bool) (s : String) : Meaning :=
  match word? s with
  | some m => m
  | none =>
    match s.toList with
    | [] => .null
    | c :: rest =>
      let found :=
        if c = '.' then (pointed? (c :: rest)).map fun n => Meaning.decimal (clamped? n)
        else if c.isDigit || c = '+' || c = '-' then
          if moments && isMoment (c :: rest) then some .moment else number? (c :: rest)
        else none
      found.getD (.text s)

/-! ### Tags -/

/-- The tag of a meaning. -/
def Meaning.tag : Meaning → String
  | .null => "!!null"
  | .flag _ => "!!bool"
  | .int _ => "!!int"
  | .decimal _ => "!!float"
  | .moment => "!!timestamp"
  | .merge => "!!merge"
  | .text _ => "!!str"

/-- The value of a digit of base 64. -/
def digit64? (c : Char) : Option Nat :=
  if 'A' ≤ c && c ≤ 'Z' then some (c.toNat - 'A'.toNat)
  else if 'a' ≤ c && c ≤ 'z' then some (c.toNat - 'a'.toNat + 26)
  else if '0' ≤ c && c ≤ '9' then some (c.toNat - '0'.toNat + 52)
  else if c = '+' then some 62
  else if c = '/' then some 63
  else none

/-- The bytes that groups of four digits write; only the last one may be filled. -/
def bytes64? : List Char → Option (List Nat)
  | [] => some []
  | [a, b, '=', '='] => do
    let a ← digit64? a
    let b ← digit64? b
    return [a * 4 + b / 16]
  | [a, b, c, '='] => do
    let a ← digit64? a
    let b ← digit64? b
    let c ← digit64? c
    return [a * 4 + b / 16, b % 16 * 16 + c / 4]
  | a :: b :: c :: d :: rest => do
    let a ← digit64? a
    let b ← digit64? b
    let c ← digit64? c
    let d ← digit64? d
    let more ← bytes64? rest
    return [a * 4 + b / 16, b % 16 * 16 + c / 4, c % 4 * 64 + d] ++ more
  | _ => none

/-- The text that digits of base 64 write; line ends between them do not count. -/
def text64? (s : String) : Option String :=
  (bytes64? (s.toList.filter fun c => c ≠ '\n' && c ≠ '\r')).map fun bytes =>
    String.ofList (Text.ofBytes bytes)

/-- The word that an integer becomes as a number with a fraction. -/
def inexact (n : Int) : Option Int64 :=
  clamped? (Text.signed (n < 0) (wholeOfRounded n.natAbs 1))

/-- The meaning of a scalar, if it can be what its tag says. -/
def meaning? (tag : Option String) (plain : Bool) (s : String) : Option Meaning :=
  match tag with
  | none => some (if plain then plainMeaning true s else .text s)
  | some t =>
    if t = "!!str" then some (.text s)
    else if t = "!!binary" then (text64? s).map .text
    else
      let m := plainMeaning (t = "!!timestamp") s
      if m.tag = t then some m
      else
        match m with
        | .int n => if t = "!!float" && Text.fits n then some (.decimal (inexact n)) else none
        | _ => none

end Yaml
end ConstantTime
