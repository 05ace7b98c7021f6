/-
# Texts and numbers in TOML

Texts between quotes, with escapes in double quotes and without in single ones;
three quotes open a text of several lines.  Numbers are taken as they stand and
only understood when somebody asks for an integer.
-/

import ConstantTime.Text.Number

namespace ConstantTime
namespace Toml

/-- Is the character a blank within a line? -/
def isBlank (c : Char) : Bool := c = ' ' || c = '\t'

/-- Is it a control character, which may stand nowhere? -/
def isControl (c : Char) : Bool := (c.toNat < 0x20 && c ≠ '\t') || c.toNat = 0x7F

/-- The characters after leading blanks. -/
def skipBlanks (cs : List Char) : List Char := cs.dropWhile isBlank

/-- The characters after a line end. -/
def newline? : List Char → Option (List Char)
  | '\n' :: rest => some rest
  | '\r' :: '\n' :: rest => some rest
  | _ => none

/-- What a letter after a backslash stands for. -/
def escape? (c : Char) : Option Char :=
  if c = '\x22' || c = '\\' then some c
  else if c = 'b' then some '\x08'
  else if c = 't' then some '\t'
  else if c = 'n' then some '\n'
  else if c = 'f' then some '\x0c'
  else if c = 'r' then some '\r'
  else if c = 'e' then some '\x1b'
  else none

/-- The character whose number is written in hexadecimal. -/
def coded? (digits : List Char) : Option Char := (Text.natural? 16 digits).bind Text.char?

/-- The rest of a text in double quotes; `done` was read before, last first. -/
def basic (done : List Char) : List Char → Option (String × List Char)
  | [] => none
  | '\\' :: 'u' :: a :: b :: c :: d :: rest =>
    match coded? [a, b, c, d] with
    | some x => basic (x :: done) rest
    | none => none
  | '\\' :: 'U' :: a :: b :: c :: d :: e :: f :: g :: h :: rest =>
    match coded? [a, b, c, d, e, f, g, h] with
    | some x => basic (x :: done) rest
    | none => none
  | '\\' :: e :: rest =>
    match escape? e with
    | some x => basic (x :: done) rest
    | none => none
  | c :: rest =>
    if c = '\x22' then some (String.ofList done.reverse, rest)
    else if isControl c then none
    else basic (c :: done) rest

/-- The rest of a text in single quotes; `done` was read before, last first. -/
def literal (done : List Char) : List Char → Option (String × List Char)
  | [] => none
  | c :: rest =>
    if c = '\x27' then some (String.ofList done.reverse, rest)
    else if isControl c then none
    else literal (c :: done) rest

/-- May a quote character stand in a text of several lines?  Three of them end it;
one or two more before the end belong to the text. -/
def closes (quote : Char) : List Char → Option (List Char × List Char)
  | a :: b :: c :: rest =>
    if a = quote && b = quote && c = quote then
      match rest with
      | d :: e :: tail =>
        if d = quote && e = quote then some ([quote, quote], tail)
        else if d = quote then some ([quote], e :: tail)
        else some ([], rest)
      | [d] => if d = quote then some ([quote], []) else some ([], rest)
      | [] => some ([], [])
    else none
  | _ => none

/-- Does a line end after blanks only? -/
def endsLine (cs : List Char) : Bool := (newline? (skipBlanks cs)).isSome

/-- The rest of a text of several lines in double quotes.  After a backslash at
the end of a line everything up to the next word is skipped. -/
def longBasic (skipping : Bool) (done : List Char) : List Char → Option (String × List Char)
  | [] => none
  | '\\' :: 'u' :: a :: b :: c :: d :: rest =>
    match coded? [a, b, c, d] with
    | some x => longBasic false (x :: done) rest
    | none => none
  | '\\' :: 'U' :: a :: b :: c :: d :: e :: f :: g :: h :: rest =>
    match coded? [a, b, c, d, e, f, g, h] with
    | some x => longBasic false (x :: done) rest
    | none => none
  | '\\' :: e :: rest =>
    if endsLine (e :: rest) then longBasic true done rest
    else
      match escape? e with
      | some x => longBasic false (x :: done) rest
      | none => none
  | c :: rest =>
    match closes '\x22' (c :: rest) with
    | some (more, tail) => some (String.ofList (done.reverse ++ more), tail)
    | none =>
      let isSpace := isBlank c || (newline? (c :: rest)).isSome || c = '\n'
      if skipping && isSpace then longBasic true done rest
      else if isControl c && !isSpace then none
      else longBasic false (c :: done) rest

/-- The rest of a text of several lines in single quotes. -/
def longLiteral (done : List Char) : List Char → Option (String × List Char)
  | [] => none
  | c :: rest =>
    match closes '\x27' (c :: rest) with
    | some (more, tail) => some (String.ofList (done.reverse ++ more), tail)
    | none =>
      if isControl c && (newline? (c :: rest)).isNone then none
      else longLiteral (c :: done) rest

/-- A text with its quotes. -/
def text? : List Char → Option (String × List Char)
  | '\x22' :: '\x22' :: '\x22' :: rest => longBasic false [] ((newline? rest).getD rest)
  | '\x27' :: '\x27' :: '\x27' :: rest => longLiteral [] ((newline? rest).getD rest)
  | '\x22' :: rest => basic [] rest
  | '\x27' :: rest => literal [] rest
  | _ => none

/-! ### Numbers -/

/-- Digits without the underscores between them; each has to have a digit on both
sides. -/
def ungrouped? (cs : List Char) : Option (List Char) :=
  let isJoint (p : Char × Char) : Bool := p.1 = '_' && p.2 = '_'
  if cs.head? = some '_' || cs.getLast? = some '_' || (cs.zip cs.tail).any isJoint then none
  else some (cs.filter (· ≠ '_'))

/-- A number in a base. -/
def grouped? (base : Nat) (cs : List Char) : Option Nat :=
  (ungrouped? cs).bind (Text.natural? base)

/-- The integer that a number writes, if it is one of 64 bits. -/
def integer? : List Char → Option Int64
  | '0' :: 'x' :: digits => (grouped? 16 digits).bind fun n => Text.int64? n
  | '0' :: 'o' :: digits => (grouped? 8 digits).bind fun n => Text.int64? n
  | '0' :: 'b' :: digits => (grouped? 2 digits).bind fun n => Text.int64? n
  | cs =>
    let (negative, digits) := Text.takeSign cs
    if 1 < digits.length && digits.head? = some '0' then none
    else (grouped? 10 digits).bind fun n => Text.int64? (Text.signed negative n)

/-- The characters that go on a number after its prefix. -/
def numberPart (kind : Char) (c : Char) : Bool :=
  c = '_' || (Text.digit? (if kind = 'x' then 16 else if kind = 'o' then 8 else 2) c).isSome

/-- A decimal number as it stands, or the name of one that digits cannot write. -/
def decimal (cs : List Char) : List Char × List Char :=
  match cs.span fun x => x.isDigit || "+-_.eE".toList.contains x with
  | (ds, 'i' :: 'n' :: 'f' :: rest) => (ds ++ ['i', 'n', 'f'], rest)
  | (ds, 'n' :: 'a' :: 'n' :: rest) => (ds ++ ['n', 'a', 'n'], rest)
  | (ds, rest) => (ds, rest)

/-- A number as it stands.  A zero in front of another digit is a number of its
own. -/
def number : List Char → List Char × List Char
  | '0' :: k :: c :: rest =>
    if k = 'x' || k = 'o' || k = 'b' then
      let (digits, tail) := (c :: rest).span (numberPart k)
      ('0' :: k :: digits, tail)
    else if k = '.' || k = 'e' || k = 'E' then decimal ('0' :: k :: c :: rest)
    else (['0'], k :: c :: rest)
  | cs => decimal cs

/-- Does a date or a time begin here? -/
def looksLikeDate : List Char → Bool
  | a :: b :: ':' :: _ => a.isDigit && b.isDigit
  | a :: b :: c :: d :: '-' :: _ => a.isDigit && b.isDigit && c.isDigit && d.isDigit
  | _ => false

/-- May the character stand in a date or a time? -/
def isDatePart (c : Char) : Bool := c.isDigit || "TtZz:.+-".toList.contains c

/-- The characters after a date or a time.  One blank may stand in front of a digit,
and `spaced` says that it was there; after it one more character is taken, if it is
one of ASCII, whatever it is. -/
def skipDate (spaced : Bool) : List Char → List Char
  | [] => []
  | [' ', d] => if spaced || !d.isDigit then [' ', d] else []
  | ' ' :: d :: x :: rest =>
    if spaced || !d.isDigit then ' ' :: d :: x :: rest
    else if x.toNat < 0x80 then skipDate true rest
    else x :: rest
  | c :: rest => if isDatePart c then skipDate spaced rest else c :: rest

end Toml
end ConstantTime
