/-
# JSON

A JSON value as a tree, and its text.  The members of an object keep their
order.  Numbers are integers.

There are two layouts: `compact` without any blanks, and `indented` with every
item on a line of its own.  In both, the characters that mean something to a
web page or a script are written as escapes.
-/

import ConstantTime.Text.Quoted

namespace ConstantTime

/-- A JSON value. -/
inductive JsonValue where
  | null
  | bool (b : Bool)
  | int (n : Int)
  | text (s : String)
  | list (items : List JsonValue)
  | object (members : List (String × JsonValue))
deriving Repr, Inhabited

namespace JsonValue

/-- Does the character mean something to a web page or end a line of a script? -/
def isMarked (c : Char) : Bool :=
  c = '<' || c = '>' || c = '&' || c.toNat = 0x2028 || c.toNat = 0x2029

/-- A character inside a JSON text. -/
def escapeChar (c : Char) : String :=
  if c = '\x22' then "\\\""
  else if c = '\\' then "\\\\"
  else if c = '\n' then "\\n"
  else if c = '\r' then "\\r"
  else if c = '\t' then "\\t"
  else if c.toNat < 0x20 || isMarked c then "\\u" ++ Text.hex 4 c.toNat
  else c.toString

/-- A JSON text with its quotes. -/
def quote (s : String) : String := "\"" ++ String.join (s.toList.map escapeChar) ++ "\""

/-- The text of a value that holds no other. -/
def atom : JsonValue → String
  | .null => "null"
  | .bool b => toString b
  | .int n => toString n
  | .text s => quote s
  | .list _ => "[]"
  | .object _ => "\x7b\x7d"

/-! ### Without blanks -/

mutual

/-- The text of a value without blanks. -/
def compact : JsonValue → String
  | .list items => "[" ++ String.intercalate "," (compactItems items) ++ "]"
  | .object members => "\x7b" ++ String.intercalate "," (compactMembers members) ++ "\x7d"
  | v => atom v

/-- The texts of several values. -/
def compactItems : List JsonValue → List String
  | [] => []
  | v :: rest => compact v :: compactItems rest

/-- The texts of several members. -/
def compactMembers : List (String × JsonValue) → List String
  | [] => []
  | (k, v) :: rest => (quote k ++ ":" ++ compact v) :: compactMembers rest

end

/-! ### A line for each item -/

/-- Items between brackets, each on its own line; on one line if there is none. -/
def bracket (depth : Nat) (opening closing : String) (items : List String) : String :=
  if items.isEmpty then opening ++ closing
  else
    let margin (n : Nat) : String := "\n" ++ String.ofList (List.replicate (2 * n) ' ')
    opening ++ String.intercalate "," (items.map (margin (depth + 1) ++ ·)) ++
      margin depth ++ closing

mutual

/-- The text of a value at some depth, with a line for each item. -/
def indentedAt (depth : Nat) : JsonValue → String
  | .list items => bracket depth "[" "]" (indentedItems (depth + 1) items)
  | .object members => bracket depth "\x7b" "\x7d" (indentedMembers (depth + 1) members)
  | v => atom v

/-- The texts of several values. -/
def indentedItems (depth : Nat) : List JsonValue → List String
  | [] => []
  | v :: rest => indentedAt depth v :: indentedItems depth rest

/-- The texts of several members. -/
def indentedMembers (depth : Nat) : List (String × JsonValue) → List String
  | [] => []
  | (k, v) :: rest => (quote k ++ ": " ++ indentedAt depth v) :: indentedMembers depth rest

end

/-- The text of a value with a line for each item. -/
def indented (v : JsonValue) : String := indentedAt 0 v

/-! ### Making values -/

/-- A list of texts. -/
def texts (l : List String) : JsonValue := .list (l.map .text)

/-- A list that may not be there. -/
def listOrNull {α : Type} (one : α → JsonValue) : Option (List α) → JsonValue
  | none => .null
  | some l => .list (l.map one)

/-- A member that is always written. -/
def always (key : String) (v : JsonValue) : List (String × JsonValue) := [(key, v)]

/-- A member that is left out when the condition fails. -/
def onlyIf (condition : Bool) (key : String) (v : JsonValue) : List (String × JsonValue) :=
  if condition then [(key, v)] else []

/-- A list member that is left out when empty. -/
def unlessEmpty {α : Type} (key : String) (one : α → JsonValue) (l : List α) :
    List (String × JsonValue) :=
  onlyIf (!l.isEmpty) key (.list (l.map one))

/-- A member that is left out when it is not there. -/
def ifSome {α : Type} (key : String) (one : α → JsonValue) (v : Option α) :
    List (String × JsonValue) :=
  match v with
  | none => []
  | some a => [(key, one a)]

/-- A flag that is left out when it is not set. -/
def flag (key : String) (b : Bool) : List (String × JsonValue) := onlyIf b key (.bool true)

end JsonValue
end ConstantTime
