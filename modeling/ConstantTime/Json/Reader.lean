/-
# Reading JSON

A text is read against a schema into what is there.  `null` leaves a place
alone, except that it empties lists and optional places.  Members of an object
are read one after the other, so that a member given twice is read into what
the first one left; a list that is given twice goes back to the items it held.
A name matches a field in any case of letters.  What belongs to no field is
skipped.

A read step takes the characters left and returns those after what it read.
-/

import ConstantTime.Document.Schema
import ConstantTime.Json.Value
import ConstantTime.Text.Number

namespace ConstantTime
namespace JsonReader

/-- The characters after leading blanks. -/
def skipBlanks (cs : List Char) : List Char :=
  cs.dropWhile fun c => c = ' ' || c = '\t' || c = '\n' || c = '\r'

/-! ### Texts -/

/-- What a single letter after a backslash stands for. -/
def shortEscape? (c : Char) : Option Char :=
  if c = '\x22' || c = '\\' || c = '/' then some c
  else if c = 'b' then some '\x08'
  else if c = 'f' then some '\x0c'
  else if c = 'n' then some '\n'
  else if c = 'r' then some '\r'
  else if c = 't' then some '\t'
  else none

/-- Stands for half of a pair of escapes whose other half is missing. -/
def replacement : Char := Char.ofNat 0xFFFD

/-- Is the number the first half of a pair? -/
def isFirstHalf (n : Nat) : Bool := 0xD800 ≤ n && n < 0xDC00

/-- Is the number the second half of a pair? -/
def isSecondHalf (n : Nat) : Bool := 0xDC00 ≤ n && n < 0xE000

/-- The character of a number that is not half of a pair. -/
def unitChar (n : Nat) : Char :=
  if isFirstHalf n || isSecondHalf n then replacement else Char.ofNat n

/-- The character of a pair. -/
def pairChar (hi lo : Nat) : Char := Char.ofNat (0x10000 + (hi - 0xD800) * 0x400 + (lo - 0xDC00))

/-- The characters of a text, in which escapes may come in pairs. -/
def joinPairs : List Nat → List Char
  | [] => []
  | [n] => [unitChar n]
  | hi :: lo :: rest =>
    if isFirstHalf hi && isSecondHalf lo then pairChar hi lo :: joinPairs rest
    else unitChar hi :: joinPairs (lo :: rest)

/-- The rest of a text whose opening quote has been read, as numbers; `done` is
what was read so far, last one first. -/
def units (done : List Nat) : List Char → Option (List Nat × List Char)
  | [] => none
  | '\\' :: 'u' :: a :: b :: c :: d :: rest =>
    match Text.natural? 16 [a, b, c, d] with
    | some n => units (n :: done) rest
    | none => none
  | '\\' :: e :: rest =>
    match shortEscape? e with
    | some c => units (c.toNat :: done) rest
    | none => none
  | c :: rest =>
    if c = '\x22' then some (done.reverse, rest)
    else if c.toNat < 0x20 then none
    else units (c.toNat :: done) rest

/-- The rest of a text whose opening quote has been read. -/
def text (cs : List Char) : Option (String × List Char) :=
  (units [] cs).map fun (ns, rest) => (String.ofList (joinPairs ns), rest)

/-! ### Numbers -/

/-- The digits in front. -/
def digits (cs : List Char) : List Char × List Char := cs.span Char.isDigit

/-- The characters after a fraction, if there is one. -/
def skipFraction : List Char → Option (List Char)
  | '.' :: rest =>
    match digits rest with
    | ([], _) => none
    | (_, rest) => some rest
  | cs => some cs

/-- The characters after the sign of an exponent. -/
def skipSign : List Char → List Char
  | '+' :: rest => rest
  | '-' :: rest => rest
  | cs => cs

/-- The characters after an exponent, if there is one. -/
def skipExponent : List Char → Option (List Char)
  | [] => some []
  | c :: rest =>
    if c = 'e' || c = 'E' then
      match digits (skipSign rest) with
      | ([], _) => none
      | (_, rest) => some rest
    else some (c :: rest)

/-- The characters after the whole part of a number; nothing but a fraction or an
exponent goes on a zero. -/
def skipWhole : List Char → Option (List Char)
  | '0' :: rest => some rest
  | cs =>
    match digits cs with
    | ([], _) => none
    | (_, rest) => some rest

/-- The characters after a number. -/
def skipNumber (cs : List Char) : Option (List Char) :=
  let unsigned :=
    match cs with
    | '-' :: rest => rest
    | cs => cs
  ((skipWhole unsigned).bind skipFraction).bind skipExponent

/-- The integer with one more digit.  Going past the largest one starts again from
the least, but only as long as the integer grows by it. -/
def appendDigit? (n : Int64) (c : Char) : Option Int64 :=
  let next := n * 10 + Int64.ofNat (c.toNat - '0'.toNat)
  if next < n then none else some next

/-- The integer of a sign and digits. -/
def integer? (negative : Bool) (ds : List Char) : Option Int64 :=
  if ds.isEmpty || (ds.head? = some '0' && 1 < ds.length) then none
  else if negative then (Text.natural? 10 ds).bind fun n => Text.int64? (Text.signed true n)
  else ds.foldlM appendDigit? 0

/-- Does a number go on as one that is no integer? -/
def isDecimal : List Char → Bool
  | c :: _ => c = '.' || c = 'e' || c = 'E'
  | [] => false

/-- An integer of 64 bits. -/
def integer (cs : List Char) : Option (Int64 × List Char) :=
  let (negative, cs) :=
    match cs with
    | '-' :: rest => (true, rest)
    | cs => (false, cs)
  let (ds, rest) := digits cs
  if isDecimal rest then none else (integer? negative ds).map fun n => (n, rest)

/-! ### Names -/

/-- The small letter that a character stands for in a name with characters beyond
ASCII: the next character that differs only in case, as a small letter. -/
def foldedChar (c : Char) : Char :=
  if c = 'k' then Char.ofNat 0x212A
  else if c = 's' then Char.ofNat 0x17F
  else if c.toNat = 0x212A then 'k'
  else if c.toNat = 0x17F then 's'
  else c.toLower

/-- A name in small letters. -/
def folded (name : String) : String :=
  if name.toList.all fun c => c.toNat < 0x80 then name.toLower else name.map foldedChar

/-- The field that a name belongs to, and what belongs there. -/
def field? (name : String) (fields : List (String × Schema)) : Option (String × Schema) :=
  (fields.find? fun f => f.1 = name).or (fields.find? fun f => f.1 = folded name)

/-- The name of a member with its colon. -/
def key (cs : List Char) : Option (String × List Char) :=
  match cs with
  | '\x22' :: rest => do
    let (k, rest) ← text rest
    match skipBlanks rest with
    | ':' :: rest => some (k, skipBlanks rest)
    | _ => none
  | _ => none

/-- The characters after the comma that has to stand in front of every item but the
first. -/
def comma (first : Bool) (cs : List Char) : Option (List Char) :=
  if first then some cs
  else
    match cs with
    | ',' :: rest => some (skipBlanks rest)
    | _ => none

/-! ### What belongs nowhere -/

mutual

/-- The characters after a value; every level of nesting and every item takes one
of `fuel`. -/
def skip : (fuel : Nat) → List Char → Option (List Char)
  | 0, _ => none
  | fuel + 1, cs =>
    match cs with
    | '[' :: rest => skipItems fuel true (skipBlanks rest)
    | '\x7b' :: rest => skipMembers fuel true (skipBlanks rest)
    | '\x22' :: rest => (text rest).map Prod.snd
    | 'n' :: 'u' :: 'l' :: 'l' :: rest => some rest
    | 't' :: 'r' :: 'u' :: 'e' :: rest => some rest
    | 'f' :: 'a' :: 'l' :: 's' :: 'e' :: rest => some rest
    | cs => skipNumber cs

/-- The characters after the items of a list and its end. -/
def skipItems : (fuel : Nat) → (first : Bool) → List Char → Option (List Char)
  | 0, _, _ => none
  | fuel + 1, first, cs =>
    match cs with
    | ']' :: rest => some rest
    | cs =>
      match (comma first cs).bind (skip fuel) with
      | none => none
      | some rest => skipItems fuel false (skipBlanks rest)

/-- The characters after the members of an object and its end. -/
def skipMembers : (fuel : Nat) → (first : Bool) → List Char → Option (List Char)
  | 0, _, _ => none
  | fuel + 1, first, cs =>
    match cs with
    | '\x7d' :: rest => some rest
    | cs =>
      match (comma first cs).bind key with
      | none => none
      | some (_, rest) =>
        match skip fuel rest with
        | none => none
        | some rest => skipMembers fuel false (skipBlanks rest)

end

/-- The characters after the end of a list of which enough has been read; the rest
of its items need no commas between them. -/
def skipRest : (fuel : Nat) → List Char → Option (List Char)
  | 0, _ => none
  | fuel + 1, cs =>
    match skipBlanks cs with
    | [] => none
    | ']' :: rest => some rest
    | c :: rest =>
      match skip fuel (if c = ',' then skipBlanks rest else c :: rest) with
      | none => none
      | some rest => skipRest fuel rest

/-! ### Places -/

/-- What `null` makes of a place. -/
def emptied (old : Draft) : Schema → Draft
  | .list _ => .absent
  | .optional _ => .absent
  | _ => old

/-- What a place holds after a value that holds no other. -/
def atom : Schema → List Char → Option (Draft × List Char)
  | .text, '\x22' :: rest => (text rest).map fun (s, rest) => (.text s, rest)
  | .flag, 't' :: 'r' :: 'u' :: 'e' :: rest => some (.flag true, rest)
  | .flag, 'f' :: 'a' :: 'l' :: 's' :: 'e' :: rest => some (.flag false, rest)
  | .int, cs => (integer cs).map fun (n, rest) => (.int n, rest)
  | _, _ => none

mutual

/-- What a place holds after a value; every level of nesting and every item takes
one of `fuel`. -/
def place : (fuel : Nat) → Schema → (old : Draft) → List Char → Option (Draft × List Char)
  | 0, _, _, _ => none
  | _ + 1, s, old, 'n' :: 'u' :: 'l' :: 'l' :: rest => some (emptied old s, rest)
  | fuel + 1, .optional item, old, cs => place fuel item (old.orBlank item) cs
  | fuel + 1, .list item, old, '[' :: rest => items fuel item [] old.slots (skipBlanks rest)
  | fuel + 1, .record fields, old, '\x7b' :: rest =>
    members fuel fields true old (skipBlanks rest)
  | fuel + 1, .pair item, old, '[' :: rest =>
    match old with
    | .pair a b => pair fuel item a b (skipBlanks rest)
    | _ => none
  | _ + 1, s, _, cs => atom s cs

/-- The items of a list and its end.  `done` are those before, last first, and each
of the next ones is read into one of `slots`, as long as there are any. -/
def items : (fuel : Nat) → (item : Schema) → (done slots : List Draft) → List Char →
    Option (Draft × List Char)
  | 0, _, _, _, _ => none
  | fuel + 1, item, done, slots, cs =>
    match cs with
    | ']' :: rest => some (.list done.reverse slots, rest)
    | cs =>
      match (comma done.isEmpty cs).bind (place fuel item (slots.head?.getD item.blank)) with
      | none => none
      | some (d, rest) => items fuel item (d :: done) slots.tail (skipBlanks rest)

/-- The two items of a pair and its end; the second may be missing. -/
def pair : (fuel : Nat) → (item : Schema) → (a b : Draft) → List Char →
    Option (Draft × List Char)
  | 0, _, _, _, _ => none
  | fuel + 1, item, a, b, cs =>
    match place fuel item a cs with
    | none => none
    | some (a, rest) =>
      match skipBlanks rest with
      | ']' :: rest => some (.pair a b, rest)
      | ',' :: rest =>
        match place fuel item b (skipBlanks rest) with
        | none => none
        | some (b, rest) => (skipRest fuel rest).map fun rest => (.pair a b, rest)
      | _ => none

/-- The members of an object and its end. -/
def members : (fuel : Nat) → (fields : List (String × Schema)) → (first : Bool) →
    (old : Draft) → List Char → Option (Draft × List Char)
  | 0, _, _, _, _ => none
  | fuel + 1, fields, first, old, cs =>
    match cs with
    | '\x7d' :: rest => some (old, rest)
    | cs =>
      match (comma first cs).bind key with
      | none => none
      | some (k, rest) =>
        match field? k fields with
        | none =>
          match skip fuel rest with
          | none => none
          | some rest => members fuel fields false old (skipBlanks rest)
        | some (name, s) =>
          match place fuel s (old.get name) rest with
          | none => none
          | some (d, rest) => members fuel fields false (old.put name d) (skipBlanks rest)

end

end JsonReader

/-- The draft that a JSON text makes of a place. -/
def Draft.ofJson? (s : Schema) (text : String) : Option Draft :=
  let cs := text.toList
  match JsonReader.place (4 * cs.length + 4) s s.blank (JsonReader.skipBlanks cs) with
  | some (d, rest) => if (JsonReader.skipBlanks rest).isEmpty then some d else none
  | none => none

end ConstantTime
