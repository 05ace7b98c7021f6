/-
# Scalars as they are written

A scalar without quotes goes on over several lines; between double quotes there
are escapes; after a bar or an angle the lines are kept or folded.  Where lines
are folded, a line end becomes a blank, and of several line ends the first one
is dropped.
-/

import ConstantTime.Text.Number
import ConstantTime.Yaml.Stream

namespace ConstantTime
namespace Yaml

/-- A text being read, with the blanks and line ends after it, of which it is not
clear yet whether they belong to it. -/
structure Passage where
  /-- The text so far, last character first. -/
  done : List Char := []
  blanks : List Char := []
  /-- Has there been a line end since the last word? -/
  broken : Bool := false
  firstBreak : List Char := []
  moreBreaks : List Char := []
deriving Repr, Inhabited

namespace Passage

/-- The text with one more character. -/
def push (d : Passage) (c : Char) : Passage := { d with done := c :: d.done }

/-- What line ends become between two words. -/
def folded (d : Passage) : List Char :=
  if d.firstBreak = ['\n'] then (if d.moreBreaks.isEmpty then [' '] else d.moreBreaks)
  else d.firstBreak ++ d.moreBreaks

/-- The text with the blanks and line ends after it. -/
def join (d : Passage) : Passage :=
  if d.broken then { done := d.folded.reverse ++ d.done }
  else { d with done := d.blanks.reverse ++ d.done, blanks := [] }

/-- The text. -/
def text (d : Passage) : String := String.ofList d.done.reverse

end Passage

/-- Reads blanks and line ends.  In the first `margin` columns of a new line no tab
may stand. -/
def gap (margin : Nat) : (fuel : Nat) → Passage → Lexing Passage
  | 0, d => return d
  | fuel + 1, d => do
    let c ← here
    if isBlank c then
      if d.broken && c = '\t' && (← column) < margin then failure
      skip
      need 1
      gap margin fuel (if d.broken then d else { d with blanks := d.blanks ++ [c] })
    else if isBreak c then
      need 2
      let b ← takeBreak
      need 1
      gap margin fuel
        (if d.broken then { d with moreBreaks := d.moreBreaks ++ b }
         else { d with blanks := [], firstBreak := b, broken := true })
    else return d

/-! ### Without quotes -/

/-- Does a character end a scalar without quotes, with the one after it? -/
def endsPlain (inFlow : Bool) (c next : Char) : Bool :=
  (c = ':' && isWordEnd next) || (inFlow && ",?[]\x7b\x7d".toList.contains c)

/-- Reads the characters up to the next blank. -/
def plainWord (inFlow : Bool) : (fuel : Nat) → Passage → Lexing Passage
  | 0, d => return d
  | fuel + 1, d => do
    let c ← here
    if isWordEnd c || endsPlain inFlow c (← ahead 1) then return d
    skip
    need 2
    plainWord inFlow fuel (d.join.push c)

/-- Reads a scalar without quotes, and what is blank after it.  Outside of brackets
its lines have to be indented by `margin` columns. -/
def plain (inFlow : Bool) (margin : Nat) : (fuel : Nat) → Passage → Lexing Passage
  | 0, d => return d
  | fuel + 1, d => do
    need 4
    if (← atSeparator) || (← here) = '#' then return d
    let d ← plainWord inFlow (← stepsLeft) d
    let c ← here
    if !(isBlank c || isBreak c) then return d
    need 1
    let d ← gap margin (← stepsLeft) d
    if !inFlow && (← column) < margin then return d
    plain inFlow margin fuel d

/-! ### Between quotes -/

/-- What a letter after a backslash stands for. -/
def escape? (c : Char) : Option Char :=
  if c = '0' then some '\x00'
  else if c = 'a' then some '\x07'
  else if c = 'b' then some '\x08'
  else if c = 't' || c = '\t' then some '\t'
  else if c = 'n' then some '\n'
  else if c = 'v' then some '\x0b'
  else if c = 'f' then some '\x0c'
  else if c = 'r' then some '\r'
  else if c = 'e' then some '\x1b'
  else if c = ' ' || c = '\x22' || c = '\x27' || c = '\\' then some c
  else if c = 'N' then some (Char.ofNat 0x85)
  else if c = '_' then some (Char.ofNat 0xA0)
  else if c = 'L' then some (Char.ofNat 0x2028)
  else if c = 'P' then some (Char.ofNat 0x2029)
  else none

/-- How many digits follow a letter after a backslash. -/
def codeLength (c : Char) : Nat :=
  if c = 'x' then 2 else if c = 'u' then 4 else if c = 'U' then 8 else 0

/-- Skips some characters. -/
def skipMany : Nat → Lexing Unit
  | 0 => return
  | n + 1 => do
    skip
    skipMany n

/-- Reads an escape with its backslash. -/
def escape : Lexing Char := do
  let c ← ahead 1
  match codeLength c with
  | 0 =>
    match escape? c with
    | none => failure
    | some x =>
      skipMany 2
      return x
  | n =>
    skipMany 2
    need n
    match (Text.natural? 16 ((← get).rest.take n)).bind Text.char? with
    | none => failure
    | some x =>
      skipMany n
      return x

/-- Reads the characters up to the next blank or the closing quote. -/
def quotedWord (quote : Char) : (fuel : Nat) → Passage → Lexing Passage
  | 0, d => return d
  | fuel + 1, d => do
    let c ← here
    let next ← ahead 1
    if isWordEnd c then return d
    else if c = '\x27' && quote = c && next = c then
      skipMany 2
      need 2
      quotedWord quote fuel (d.push c)
    else if c = quote then return d
    else if c = '\\' && quote ≠ '\x27' then
      if isBreak next then
        need 3
        skip
        skipBreak
        return { d with broken := true }
      else
        let x ← escape
        need 2
        quotedWord quote fuel (d.push x)
    else
      skip
      need 2
      quotedWord quote fuel (d.push c)

/-- Reads the rest of a scalar between quotes. -/
def quoted (quote : Char) : (fuel : Nat) → Passage → Lexing Passage
  | 0, _ => failure
  | fuel + 1, d => do
    need 4
    if (← atSeparator) || (← here) = ending then failure
    let d ← quotedWord quote (← stepsLeft) d
    need 1
    if (← here) = quote then
      skip
      return d
    let d ← gap 0 (← stepsLeft) d
    quoted quote fuel d.join

/-! ### Lines that are kept or folded -/

/-- What becomes of the line ends after the last line. -/
inductive Tail where
  | strip
  | clip
  | keep
deriving DecidableEq, Repr, Inhabited

/-- The sign for what becomes of the last line ends. -/
def tail : Lexing Tail := do
  let c ← here
  if c = '+' || c = '-' then
    skip
    need 1
    return if c = '+' then .keep else .strip
  else return .clip

/-- The number of columns by which the lines are indented; none if it is not
given. -/
def indentation : Lexing Nat := do
  let c ← here
  if c = '0' then failure
  else if c.isDigit then
    skip
    need 1
    return c.toNat - '0'.toNat
  else return 0

/-- The two signs after the bar or angle, in any order. -/
def blockSigns : Lexing (Tail × Nat) := do
  need 1
  if (← here).isDigit then
    let n ← indentation
    return (← tail, n)
  else
    match ← tail with
    | .clip => return (.clip, 0)
    | t => return (t, ← indentation)

/-- Skips blanks up to a column; all of them if there is none. -/
def indent (margin : Nat) : (fuel : Nat) → Lexing Unit
  | 0 => return
  | fuel + 1 => do
    if (margin = 0 || (← column) < margin) && (← here) = ' ' then
      skip
      need 1
      indent margin fuel

/-- Reads empty lines and the blanks in front of the next line.  If the margin is not
known, it becomes the widest of those blanks, but at least `least`. -/
def emptyLines (least margin : Nat) : (fuel widest : Nat) → (breaks : List Char) →
    Lexing (Nat × List Char)
  | 0, _, breaks => return (margin, breaks)
  | fuel + 1, widest, breaks => do
    need 1
    indent margin (← stepsLeft)
    let col ← column
    let widest := max widest col
    if (margin = 0 || col < margin) && (← here) = '\t' then failure
    if isBreak (← here) then
      need 2
      let b ← takeBreak
      emptyLines least margin fuel widest (breaks ++ b)
    else return (if margin = 0 then max widest (max least 1) else margin, breaks)

/-- Lines being read. -/
structure Block where
  /-- The text so far, last character first. -/
  done : List Char := []
  /-- Did the last line begin with a blank? -/
  blank : Bool := false
  /-- The end of the last line, and of the empty lines after it. -/
  lineEnd : List Char := []
  empties : List Char := []
deriving Repr, Inhabited

/-- What stands between the last line and one that begins with a blank or not. -/
def Block.between (literal blank : Bool) (b : Block) : List Char :=
  if !literal && !b.blank && !blank && b.lineEnd = ['\n'] then
    (if b.empties.isEmpty then [' '] else b.empties)
  else b.lineEnd ++ b.empties

/-- Reads lines as long as they are indented by the margin. -/
def blockLines (literal : Bool) (margin : Nat) : (fuel : Nat) → Block → Lexing Block
  | 0, b => return b
  | fuel + 1, b => do
    if (← column) = margin && (← here) ≠ ending then
      let blank := isBlank (← here)
      let line ← takeWhile (fun c => !isLineEnd c) (← stepsLeft) []
      need 2
      let lineEnd ← takeBreak
      let (_, empties) ← emptyLines 0 margin (← stepsLeft) 0 []
      let done := line.reverse ++ ((b.between literal blank).reverse ++ b.done)
      blockLines literal margin fuel { done, blank, lineEnd, empties }
    else return b

/-- The text of lines. -/
def Block.text (t : Tail) (b : Block) : String :=
  String.ofList (b.done.reverse ++
    (if t = .strip then [] else b.lineEnd) ++ (if t = .keep then b.empties else []))

/-- Reads a scalar after a bar or an angle, where the columns up to `base` belong to
what is around it. -/
def block (literal : Bool) (base : Int) : Lexing String := do
  skip
  let (t, n) ← blockSigns
  endLine
  let margin := if n = 0 then 0 else (max base 0).toNat + n
  let (margin, empties) ← emptyLines (base + 1).toNat margin (← stepsLeft) 0 []
  need 1
  let b ← blockLines literal margin (← stepsLeft) { empties }
  return b.text t

end Yaml
end ConstantTime
