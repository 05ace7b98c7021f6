/-
# Reading TOML into what is there

Statements are followed one after the other.  A header leads to a place: on the
way, a list stands for its last item, and what need not be there comes into
being.  The header of an element puts a new item at the end of a list.  A key
with a value changes a place below the last header.

Names match fields in any case of letters.  A name that belongs nowhere is an
error if the reading is strict; otherwise a key is passed over, and so is a
header with everything below it, in which names may then be given twice.
-/

import ConstantTime.Document.Schema
import ConstantTime.Text.Small
import ConstantTime.Toml.Ledger

namespace ConstantTime
namespace Toml

/-- How a place changes. -/
abbrev Change := Schema → Draft → Option Draft

/-- The field that a name belongs to, and what belongs there. -/
def field? (name : String) (fields : List (String × Schema)) : Option (String × Schema) :=
  (fields.find? fun f => f.1 = name).or (fields.find? fun f => f.1 = Text.small name)

/-! ### The way to a place -/

/-- Changes what need not be there; after that it is. -/
def through (change : Change) : Change
  | .optional s, d => change s (d.orBlank s)
  | s, d => change s d

/-- Changes the last item of a list; what is no list changes itself. -/
def inLast (change : Change) : Change
  | .list item, d =>
    match d.items.reverse with
    | [] => none
    | last :: before => (change item last).map fun new => .list (before.reverse ++ [new]) []
  | s, d => change s d

/-- Changes a field. -/
def inField (name : String) (change : Change) : Change
  | .record fields, d =>
    (field? name fields).bind fun (k, s) => d.modify? k (through change s)
  | _, _ => none

/-- Changes the table of a header. -/
def inTable (change : Change) : Path → Change
  | [], s, d => inLast change s d
  | k :: rest, s, d => inLast (through (inField k (inTable change rest))) s d

/-- A list with a new item; a list under a new name starts afresh. -/
def append (fresh : Bool) : Change
  | .list item, d => some (.list ((if fresh then [] else d.items) ++ [item.blank]) [])
  | _, _ => none

/-- Puts a new item at the end of the list of a header. -/
def inElement (fresh : Bool) : Path → Change
  | [], _, _ => none
  | [k], s, d => through (inField k (append fresh)) s d
  | k :: rest, s, d => through (inField k (inLast (inElement fresh rest))) s d

/-- Do the names of a header belong somewhere? -/
def leads : Path → Schema → Bool
  | [], _ => true
  | k :: rest, .record fields => (field? k fields).any fun (_, s) => leads rest (bare s)
  | _ :: _, _ => true
where
  /-- What belongs in a list or need not be there. -/
  bare : Schema → Schema
    | .optional s => bare s
    | .list s => bare s
    | s => s

/-! ### Values -/

/-- Changes the place of a key with points. -/
def inKey (strict : Bool) (change : Change) : Path → Change
  | [], s, d => change s d
  | k :: rest, s, d =>
    through (fun s d =>
      match s with
      | .record fields =>
        match field? k fields with
        | none => if strict then none else some d
        | some (name, s) => d.modify? name (through (inKey strict change rest) s)
      | _ => none) s d

/-- What a place becomes after a value that holds no other. -/
def settle : Value → Schema → Option Draft
  | .text t, .text => some (.text t)
  | .flag b, .flag => some (.flag b)
  | .number ds, .int => (integer? ds).map .int
  | _, _ => none

mutual

/-- Puts a value in a place. -/
def Value.intake (strict : Bool) : Value → Change
  | .list vs => through fun s _ =>
    match s with
    | .list item => (intakeItems strict vs item).map fun ds => .list ds []
    | _ => none
  | .inline ps => through fun s d =>
    match s with
    | .record _ => intakePairs strict ps s d
    | _ => none
  | .text t => through fun s _ => settle (.text t) s
  | .flag b => through fun s _ => settle (.flag b) s
  | .number ds => through fun s _ => settle (.number ds) s
  | .date => fun _ _ => none

/-- Values as new items of a list. -/
def intakeItems (strict : Bool) : List Value → Schema → Option (List Draft)
  | [], _ => some []
  | v :: rest, item =>
    match v.intake strict item item.blank, intakeItems strict rest item with
    | some d, some ds => some (d :: ds)
    | _, _ => none

/-- Puts the values of a table within a line in their places. -/
def intakePairs (strict : Bool) : List (Path × Value) → Change
  | [], _, d => some d
  | (ks, v) :: rest, s, d =>
    match inKey strict (v.intake strict) ks s d with
    | none => none
    | some d => intakePairs strict rest s d

end

/-! ### Statements -/

/-- What has been read so far. -/
structure Intake where
  ledger : Ledger := {}
  draft : Draft
  /-- The last header. -/
  header : Path := []
  /-- Does the last header belong nowhere? -/
  astray : Bool := false
deriving Inhabited

namespace Intake

/-- Takes a header that changes the draft, if it belongs somewhere. -/
def enter (strict : Bool) (schema : Schema) (i : Intake) (ks : Path) (ledger : Ledger)
    (change : Change) : Option Intake :=
  if leads ks schema then
    (change schema i.draft).map fun d => { ledger, draft := d, header := ks }
  else if strict then none
  else some { i with ledger, header := ks, astray := true }

/-- Takes a statement. -/
def add (strict : Bool) (schema : Schema) (i : Intake) (statement : Statement) : Option Intake :=
  match statement with
  | .table ks =>
    (i.ledger.add statement).bind fun l =>
      i.enter strict schema ks l (inTable (fun _ d => some d) ks)
  | .element ks =>
    (i.ledger.add statement).bind fun l =>
      i.enter strict schema ks l (inElement (!i.ledger.knows ks) ks)
  | .pair ks v =>
    if i.astray then some i
    else
      (i.ledger.add statement).bind fun l =>
        (inTable (inKey strict (v.intake strict) ks) i.header schema i.draft).map fun d =>
          { i with ledger := l, draft := d }

end Intake

/-- The draft after a text has been read into it. -/
def read? (strict : Bool) (schema : Schema) (draft : Draft) (s : String) : Option Draft := do
  let ss ← statements s
  let i ← ss.foldlM (Intake.add strict schema) { draft }
  return i.draft

end Toml
end ConstantTime
