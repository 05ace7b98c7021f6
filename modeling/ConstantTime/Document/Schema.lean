/-
# What documents are expected to hold

"Single-Path Constant-Time Transformation Engine", §12.8.

A `Schema` says what belongs at a place of a document.  A `Draft` is what the
places hold so far.  Documents of every format are read into a draft, one place
after the other, and what a document does not mention keeps what it held; only
at the end is the draft taken for a description, a configuration or a report.

A list that was read before and is read again may go back to the items it held:
those beyond its end are kept as `spare`.
-/

namespace ConstantTime

/-- What belongs at a place. -/
inductive Schema where
  | text
  | int
  | flag
  | list (item : Schema)
  /-- A list of two. -/
  | pair (item : Schema)
  /-- Something that need not be there. -/
  | optional (item : Schema)
  | record (fields : List (String × Schema))
deriving Repr, Inhabited

/-- What a place holds. -/
inductive Draft where
  | text (s : String)
  | int (n : Int64)
  | flag (b : Bool)
  /-- A list, or something that need not be there, and is not. -/
  | absent
  | list (items : List Draft) (spare : List Draft)
  | pair (first second : Draft)
  | record (fields : List (String × Draft))
deriving Repr, Inhabited

namespace Schema

/-- The schema of a field. -/
def field? (name : String) (fields : List (String × Schema)) : Option Schema :=
  (fields.find? fun f => f.1 = name).map Prod.snd

mutual

/-- What a place holds before anything is read. -/
def blank : Schema → Draft
  | .text => .text ""
  | .int => .int 0
  | .flag => .flag false
  | .list _ => .absent
  | .pair item => .pair item.blank item.blank
  | .optional _ => .absent
  | .record fields => .record (blankFields fields)

/-- What fields hold before anything is read. -/
def blankFields : List (String × Schema) → List (String × Draft)
  | [] => []
  | (name, s) :: rest => (name, s.blank) :: blankFields rest

end

end Schema

namespace Draft

/-- Is nothing there? -/
def isAbsent : Draft → Bool
  | .absent => true
  | _ => false

/-- What is there, or else what a place of that kind holds at first. -/
def orBlank (s : Schema) (d : Draft) : Draft := if d.isAbsent then s.blank else d

/-- The items of a list. -/
def items : Draft → List Draft
  | .list items _ => items
  | _ => []

/-- Everything that a list holds or has held. -/
def slots : Draft → List Draft
  | .list items spare => items ++ spare
  | _ => []

/-- What a field holds. -/
def get (name : String) : Draft → Draft
  | .record fields => ((fields.find? fun f => f.1 = name).map Prod.snd).getD .absent
  | _ => .absent

/-- Fields with one of them changed. -/
def putField (name : String) (new : Draft) : List (String × Draft) → List (String × Draft)
  | [] => []
  | (k, old) :: rest =>
    if k = name then (k, new) :: rest else (k, old) :: putField name new rest

/-- A record with a field changed. -/
def put (d : Draft) (name : String) (new : Draft) : Draft :=
  match d with
  | .record fields => .record (putField name new fields)
  | d => d

/-- Changes what a field holds. -/
def modify? (name : String) (change : Draft → Option Draft) (d : Draft) : Option Draft :=
  (change (d.get name)).map fun new => d.put name new

/-! ### Taking a draft for what it describes -/

/-- A text. -/
def toText : Draft → String
  | .text s => s
  | _ => ""

/-- An integer. -/
def toInt64 : Draft → Int64
  | .int n => n
  | _ => 0

/-- A flag. -/
def toFlag : Draft → Bool
  | .flag b => b
  | _ => false

/-- Something that need not be there. -/
def toOption {α : Type} (one : Draft → α) (d : Draft) : Option α :=
  if d.isAbsent then none else some (one d)

/-- A list that need not be there. -/
def toList? {α : Type} (one : Draft → α) (d : Draft) : Option (List α) :=
  d.toOption fun d => d.items.map one

/-- A list. -/
def toList {α : Type} (one : Draft → α) (d : Draft) : List α := d.items.map one

/-- The text in a field. -/
def textAt (d : Draft) (name : String) : String := (d.get name).toText

/-- The integer in a field. -/
def intAt (d : Draft) (name : String) : Int64 := (d.get name).toInt64

/-- The flag in a field. -/
def flagAt (d : Draft) (name : String) : Bool := (d.get name).toFlag

/-- The texts in a field. -/
def textsAt (d : Draft) (name : String) : List String := (d.get name).toList toText

end Draft
end ConstantTime
