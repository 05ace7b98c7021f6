/-
# Names, tags and directives

Anchors and aliases name a part of a document.  A tag says what a part is; it
begins with a handle, or stands between angles as a whole.  Directives in front
of a document say which version it has and what its handles stand for.
-/

import ConstantTime.Text.Bytes
import ConstantTime.Yaml.Lexeme
import ConstantTime.Yaml.Token

namespace ConstantTime
namespace Yaml

/-- Reads the name after the sign for an anchor or an alias. -/
def anchorName : Lexing String := do
  skip
  need 1
  let name ← takeWhile isNamePart (← stepsLeft) []
  let c ← here
  if name.isEmpty || !(isWordEnd c || "?:,]\x7d%@\x60".toList.contains c) then failure
  return String.ofList name

/-! ### Tags -/

/-- May a character stand in a tag, apart from escapes? -/
def isTagPart (c : Char) : Bool :=
  isNamePart c || ";/?:@&=+$,.!~*\x27()[]".toList.contains c

/-- The byte that two digits after a percent sign stand for. -/
def escapedByte : Lexing Nat := do
  need 3
  match (← get).rest with
  | '%' :: a :: b :: _ =>
    match Text.natural? 16 [a, b] with
    | none => failure
    | some n =>
      skipMany 3
      return n
  | _ => failure

/-- The number of bytes of a character that begins with a byte. -/
def bytesOf (first : Nat) : Nat :=
  if first < 0x80 then 1
  else if 0xC0 ≤ first && first < 0xE0 then 2
  else if 0xE0 ≤ first && first < 0xF0 then 3
  else if 0xF0 ≤ first && first < 0xF8 then 4
  else 0

/-- The bytes after the first one of a character. -/
def escapedMore : (count : Nat) → (done : List Nat) → Lexing (List Nat)
  | 0, done => return done.reverse
  | count + 1, done => do
    let n ← escapedByte
    if 0x80 ≤ n && n < 0xC0 then escapedMore count (n :: done) else failure

/-- A character whose bytes are escaped. -/
def escapedChar : Lexing (List Char) := do
  let first ← escapedByte
  match bytesOf first with
  | 0 => failure
  | n + 1 => return Text.ofBytes (first :: (← escapedMore n []))

/-- Reads a tag as far as it goes. -/
def tagRest : (fuel : Nat) → (done : List Char) → Lexing (List Char)
  | 0, done => return done
  | fuel + 1, done => do
    let c ← here
    if c = '%' then
      let cs ← escapedChar
      need 1
      tagRest fuel (done ++ cs)
    else if isTagPart c then
      skip
      need 1
      tagRest fuel (done ++ [c])
    else return done

/-- Reads a tag that has to have at least one character. -/
def tagText : Lexing (List Char) := do
  need 1
  let start := (← get).index
  let cs ← tagRest (← stepsLeft) []
  if (← get).index = start then failure
  return cs

/-- Reads a handle: a name between two marks, or a mark and what may be a name. -/
def tagHandle : Lexing (List Char) := do
  need 1
  if (← here) ≠ '!' then failure
  skip
  need 1
  let name ← takeWhile isNamePart (← stepsLeft) []
  if (← here) = '!' then
    skip
    return '!' :: name ++ ['!']
  else return '!' :: name

/-- Is it a name between two marks? -/
def isHandle (cs : List Char) : Bool := 1 < cs.length && cs.getLast? = some '!'

/-- A tag in its two forms. -/
def tagBody : Lexing (List Char × List Char) := do
  need 2
  if (← ahead 1) = '<' then
    skipMany 2
    let cs ← tagText
    if (← here) ≠ '>' then failure
    skip
    return ([], cs)
  else
    let handle ← tagHandle
    if isHandle handle then return (handle, ← tagText)
    else
      need 1
      let cs ← tagRest (← stepsLeft) handle.tail
      return if cs.isEmpty then ([], handle) else (['!'], cs)

/-- Reads a tag. -/
def tag : Lexing Token := do
  let (handle, suffix) ← tagBody
  need 1
  if !isWordEnd (← here) then failure
  return .tag (String.ofList handle) (String.ofList suffix)

/-! ### Directives -/

/-- Reads a number of a version, of at most two digits. -/
def versionNumber : Lexing Nat := do
  need 1
  let ds ← takeWhile Char.isDigit (← stepsLeft) []
  if 2 < ds.length then failure
  match Text.natural? 10 ds with
  | none => failure
  | some n => return n

/-- Reads a version. -/
def version : Lexing Token := do
  need 1
  skipWhile isBlank (← stepsLeft)
  let major ← versionNumber
  if (← here) ≠ '.' then failure
  skip
  let minor ← versionNumber
  return .version major minor

/-- Reads what a handle stands for. -/
def handleRoot : Lexing Token := do
  need 1
  skipWhile isBlank (← stepsLeft)
  let handle ← tagHandle
  if handle ≠ ['!'] && !isHandle handle then failure
  need 1
  if !isBlank (← here) then failure
  skipWhile isBlank (← stepsLeft)
  let root ← tagText
  need 1
  if !isWordEnd (← here) then failure
  return .handle (String.ofList handle) (String.ofList root)

/-- Reads a directive with its line. -/
def directive : Lexing Token := do
  skip
  need 1
  let name ← takeWhile isNamePart (← stepsLeft) []
  if !isWordEnd (← here) then failure
  let t ←
    match String.ofList name with
    | "YAML" => version
    | "TAG" => handleRoot
    | _ => failure
  endLine
  return t

end Yaml
end ConstantTime
