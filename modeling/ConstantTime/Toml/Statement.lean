/-
# Statements of TOML

A TOML document is a list of statements, one on a line: the header of a table,
the header of an element of a list of tables, or a key with its value.
-/

import ConstantTime.Toml.Text

namespace ConstantTime
namespace Toml

/-- Keys from the outermost table inwards. -/
abbrev Path := List String

/-- A value; a table of its own is still a list of keys with values. -/
inductive Value where
  | text (s : String)
  | flag (b : Bool)
  /-- A number as it stands. -/
  | number (digits : List Char)
  /-- A date or a time, which belongs nowhere here. -/
  | date
  | list (items : List Value)
  | inline (pairs : List (Path × Value))
deriving Repr, Inhabited

/-- A statement. -/
inductive Statement where
  | table (path : Path)
  | element (path : Path)
  | pair (path : Path) (value : Value)
deriving Repr, Inhabited

/-! ### Blanks, comments and line ends -/

/-- The characters after a comment, the line end not included. -/
def skipComment : List Char → Option (List Char)
  | [] => some []
  | c :: rest =>
    if (newline? (c :: rest)).isSome then some (c :: rest)
    else if isControl c then none
    else skipComment rest

/-- The characters after blanks, comments and line ends. -/
def skipSpace (inComment : Bool) : List Char → Option (List Char)
  | [] => some []
  | '\r' :: '\n' :: rest => skipSpace false rest
  | c :: rest =>
    if c = '\n' then skipSpace false rest
    else if inComment then (if isControl c then none else skipSpace true rest)
    else if c = '#' then skipSpace true rest
    else if isBlank c then skipSpace false rest
    else some (c :: rest)

/-- The characters from the end of the line on, of which only blanks and a comment
may be left. -/
def endOfLine (cs : List Char) : Option (List Char) :=
  match skipBlanks cs with
  | '#' :: rest => skipComment rest
  | rest => some rest

/-! ### Keys -/

/-- May the character stand in a key without quotes? -/
def isBare (c : Char) : Bool := c.isAlphanum || c = '_' || c = '-'

/-- One key. -/
def simpleKey : List Char → Option (String × List Char)
  | '\x22' :: rest => basic [] rest
  | '\x27' :: rest => literal [] rest
  | cs =>
    match cs.span isBare with
    | ([], _) => none
    | (name, rest) => some (String.ofList name, rest)

/-- Keys with points between them; `fuel` need not exceed their number. -/
def path : (fuel : Nat) → List Char → Option (Path × List Char)
  | 0, _ => none
  | fuel + 1, cs =>
    match simpleKey cs with
    | none => none
    | some (k, rest) =>
      match skipBlanks rest with
      | '.' :: rest => (path fuel (skipBlanks rest)).map fun (ks, rest) => (k :: ks, rest)
      | rest => some ([k], rest)

/-- Keys and the sign after them. -/
def keyAndSign (cs : List Char) : Option (Path × List Char) :=
  match path (cs.length + 1) cs with
  | some (ks, rest) =>
    match skipBlanks rest with
    | '=' :: rest => some (ks, skipBlanks rest)
    | _ => none
  | none => none

/-! ### Values -/

/-- A value that holds no other. -/
def scalar : List Char → Option (Value × List Char)
  | 't' :: 'r' :: 'u' :: 'e' :: rest => some (.flag true, rest)
  | 'f' :: 'a' :: 'l' :: 's' :: 'e' :: rest => some (.flag false, rest)
  | cs =>
    match cs.head? with
    | none => none
    | some c =>
      if c = '\x22' || c = '\x27' then (text? cs).map fun (s, rest) => (.text s, rest)
      else if looksLikeDate cs then some (.date, skipDate false cs)
      else
        match number cs with
        | ([], _) => none
        | (ds, rest) => some (.number ds, rest)

mutual

/-- One value; every level of nesting and every item takes one of `fuel`. -/
def value : (fuel : Nat) → List Char → Option (Value × List Char)
  | 0, _ => none
  | fuel + 1, '[' :: rest => items fuel [] rest
  | fuel + 1, '\x7b' :: rest =>
    match skipBlanks rest with
    | '\x7d' :: rest => some (.inline [], rest)
    | rest => pairs fuel [] rest
  | _ + 1, cs => scalar cs

/-- The items of a list up to its end; `done` are those before, last first. -/
def items : (fuel : Nat) → (done : List Value) → List Char → Option (Value × List Char)
  | 0, _, _ => none
  | fuel + 1, done, cs =>
    match skipSpace false cs with
    | some (']' :: rest) => some (.list done.reverse, rest)
    | some cs =>
      match value fuel cs with
      | none => none
      | some (v, rest) =>
        match skipSpace false rest with
        | some (',' :: rest) => items fuel (v :: done) rest
        | some (']' :: rest) => some (.list (v :: done).reverse, rest)
        | _ => none
    | none => none

/-- The pairs of a table within a line, at least one; `done` are those before, last
first. -/
def pairs : (fuel : Nat) → (done : List (Path × Value)) → List Char →
    Option (Value × List Char)
  | 0, _, _ => none
  | fuel + 1, done, cs =>
    match keyAndSign cs with
    | none => none
    | some (ks, rest) =>
      match value fuel rest with
      | none => none
      | some (v, rest) =>
        match skipBlanks rest with
        | ',' :: rest => pairs fuel ((ks, v) :: done) (skipBlanks rest)
        | '\x7d' :: rest => some (.inline ((ks, v) :: done).reverse, rest)
        | _ => none

end

/-! ### Statements -/

/-- Keys between brackets; `closing` is what has to follow. -/
def header (closing : List Char) (cs : List Char) : Option (Path × List Char) :=
  match path (cs.length + 1) (skipBlanks cs) with
  | none => none
  | some (ks, rest) =>
    let rest := skipBlanks rest
    if closing.isPrefixOf rest then some (ks, rest.drop closing.length) else none

/-- One statement. -/
def statement : List Char → Option (Statement × List Char)
  | '[' :: '[' :: rest => (header [']', ']'] rest).map fun (ks, rest) => (.element ks, rest)
  | '[' :: rest => (header [']'] rest).map fun (ks, rest) => (.table ks, rest)
  | cs =>
    match keyAndSign cs with
    | none => none
    | some (ks, rest) => (value (cs.length + 1) rest).map fun (v, rest) => (.pair ks v, rest)

/-- The statements from the beginning of a line on; `done` are those before, last
first, and `fuel` need not exceed the number of lines. -/
def statementsFrom : (fuel : Nat) → (done : List Statement) → List Char →
    Option (List Statement)
  | 0, _, _ => none
  | fuel + 1, done, cs =>
    let next (done : List Statement) (rest : List Char) : Option (List Statement) :=
      match endOfLine rest with
      | none => none
      | some [] => some done.reverse
      | some rest =>
        match newline? rest with
        | none => none
        | some rest => statementsFrom fuel done rest
    match skipBlanks cs with
    | [] => some done.reverse
    | c :: rest =>
      if c = '#' || (newline? (c :: rest)).isSome then next done (c :: rest)
      else
        match statement (c :: rest) with
        | none => none
        | some (s, rest) => next (s :: done) rest

/-- The statements of a text. -/
def statements (s : String) : Option (List Statement) :=
  let cs := s.toList
  statementsFrom (cs.length + 1) [] cs

end Toml
end ConstantTime
