/-
# The characters of a YAML text

A text is read from left to right with a little looking ahead.  It comes in
pieces of at most 512 bytes, and a piece is only looked into when a character
of it is asked for; a character that may stand nowhere makes the whole piece
unreadable, but what is never asked for does no harm.

Whenever a piece has to be fetched, it is noted whether the next character is
a byte order mark.  After the end there are only `\x00` characters.
-/

namespace ConstantTime
namespace Yaml

/-! ### Characters -/

/-- The character after the last one. -/
def ending : Char := '\x00'

/-- The mark that tells the order of bytes. -/
def orderMark : Char := Char.ofNat 0xFEFF

/-- Is it a blank within a line? -/
def isBlank (c : Char) : Bool := c = ' ' || c = '\t'

/-- Does it end a line? -/
def isBreak (c : Char) : Bool :=
  c = '\n' || c = '\r' || c.toNat = 0x85 || c.toNat = 0x2028 || c.toNat = 0x2029

/-- Does it end a line or the text? -/
def isLineEnd (c : Char) : Bool := isBreak c || c = ending

/-- Does it end a word? -/
def isWordEnd (c : Char) : Bool := isBlank c || isLineEnd c

/-- May it stand in a name? -/
def isNamePart (c : Char) : Bool := c.isAlphanum || c = '_' || c = '-'

/-- May it stand in a text at all? -/
def isAllowed (c : Char) : Bool :=
  let n := c.toNat
  c = '\t' || c = '\n' || c = '\r' || (0x20 ≤ n && n ≤ 0x7E) || n = 0x85 ||
    (0xA0 ≤ n && n ≤ 0xFFFD) || 0x10000 ≤ n

/-! ### Pieces -/

/-- A piece of a text: how many characters it has, and whether all are allowed. -/
structure Piece where
  size : Nat
  sound : Bool
deriving DecidableEq, Repr, Inhabited

/-- The size of a piece in bytes. -/
def pieceBytes : Nat := 512

/-- The pieces of a text; the first has `room` for more bytes after what is in it. -/
def cut (room : Nat) (p : Piece) : List Char → List Piece
  | [] => if p.size = 0 then [] else [p]
  | c :: rest =>
    let bytes := c.utf8Size
    if bytes ≤ room then cut (room - bytes) ⟨p.size + 1, p.sound && isAllowed c⟩ rest
    else p :: cut (pieceBytes - bytes) ⟨1, isAllowed c⟩ rest

/-! ### The place in a text -/

/-- How far a text has been read. -/
structure Cursor where
  /-- The characters that follow. -/
  rest : List Char
  /-- The pieces that have not been fetched. -/
  pieces : List Piece
  /-- The number of characters in the text. -/
  size : Nat := rest.length
  /-- How many of the characters have been fetched. -/
  fetched : Nat := 0
  /-- Was there a byte order mark when the last piece was fetched? -/
  marked : Bool := false
  /-- The number of characters before. -/
  index : Nat := 0
  line : Nat := 0
  column : Nat := 0
  /-- The line ends since the last character that was no blank. -/
  newlines : Nat := 0
deriving Repr, Inhabited

/-- The beginning of a text.  One byte order mark in front does not count. -/
def Cursor.ofText (s : String) : Cursor :=
  match s.toList with
  | c :: rest =>
    if c = orderMark then { rest, pieces := cut (pieceBytes - c.utf8Size) ⟨0, true⟩ rest }
    else { rest := c :: rest, pieces := cut pieceBytes ⟨0, true⟩ (c :: rest) }
  | [] => { rest := [], pieces := [] }

/-- A step of reading, which may fail. -/
abbrev Lexing := StateT Cursor Option

/-- Fetches pieces until there are `n` characters; at the end one more is made up. -/
def fetch (n : Nat) : (fetched : Nat) → List Piece → Option (Nat × List Piece)
  | fetched, [] => some (fetched + 1, [])
  | fetched, p :: rest =>
    if !p.sound then none
    else if n ≤ fetched + p.size then some (fetched + p.size, rest)
    else fetch n (fetched + p.size) rest

/-- Makes sure that the next `n` characters can be looked at. -/
def need (n : Nat) : Lexing Unit := do
  let c ← get
  if n ≤ c.fetched then return
  match fetch n c.fetched c.pieces with
  | none => failure
  | some (fetched, pieces) =>
    set { c with fetched, pieces, marked := c.rest.head? = some orderMark }

/-- The next character but `k`. -/
def ahead (k : Nat) : Lexing Char := do return (← get).rest[k]?.getD ending

/-- The next character. -/
def here : Lexing Char := ahead 0

/-- The column. -/
def column : Lexing Nat := do return (← get).column

/-- As many steps as suffice to read the rest of the text, each a character. -/
def stepsLeft : Lexing Nat := do
  let c ← get
  return c.size - c.index + 4

/-- The place after a character that ends no line. -/
def Cursor.next (c : Cursor) : Cursor :=
  { c with
    rest := c.rest.tail
    fetched := c.fetched - 1
    index := c.index + 1
    column := c.column + 1
    newlines := if c.rest.head?.any isBlank then c.newlines else 0 }

/-- The place after a line end of some characters. -/
def Cursor.nextLine (c : Cursor) (count : Nat) : Cursor :=
  { c with
    rest := c.rest.drop count
    fetched := c.fetched - count
    index := c.index + count
    line := c.line + 1
    column := 0
    newlines := c.newlines + 1 }

/-- Skips a character. -/
def skip : Lexing Unit := modify Cursor.next

/-- Takes a character. -/
def take : Lexing Char := do
  let c ← here
  skip
  return c

/-- Takes a line end, if there is one, and makes it the simplest of its kind. -/
def takeBreak : Lexing (List Char) := do
  let c ← here
  if c = '\r' && (← ahead 1) = '\n' then
    modify fun c => c.nextLine 2
    return ['\n']
  else if c = '\n' || c = '\r' || c.toNat = 0x85 then
    modify fun c => c.nextLine 1
    return ['\n']
  else if isBreak c then
    modify fun c => c.nextLine 1
    return [c]
  else return []

/-- Skips a line end, if there is one. -/
def skipBreak : Lexing Unit := do
  let _ ← takeBreak
  return

/-- Skips characters as long as they are of a kind. -/
def skipWhile (kind : Char → Bool) : (fuel : Nat) → Lexing Unit
  | 0 => return
  | fuel + 1 => do
    if kind (← here) then
      skip
      need 1
      skipWhile kind fuel

/-- Takes characters as long as they are of a kind. -/
def takeWhile (kind : Char → Bool) : (fuel : Nat) → (done : List Char) → Lexing (List Char)
  | 0, done => return done.reverse
  | fuel + 1, done => do
    if kind (← here) then
      let c ← take
      need 1
      takeWhile kind fuel (c :: done)
    else return done.reverse

/-- Skips the rest of a line and its end, of which only blanks and a comment may be
left. -/
def endLine : Lexing Unit := do
  let fuel ← stepsLeft
  need 1
  skipWhile isBlank fuel
  if (← here) = '#' then skipWhile (fun c => !isLineEnd c) fuel
  if !isLineEnd (← here) then failure
  if isBreak (← here) then
    need 2
    skipBreak

/-- Does one of the two lines stand here that separate documents? -/
def atSeparator : Lexing Bool := do
  if (← column) ≠ 0 then return false
  let c ← here
  return (c = '-' || c = '.') && (← ahead 1) = c && (← ahead 2) = c && isWordEnd (← ahead 3)

end Yaml
end ConstantTime
