/-
# Names that TOML statements give

Headers and keys with points name tables one inside the other.  A table that a
header opens may not be opened again; one that keys with points opened may only
be extended until the next header; and no name may be given twice.  The ledger
keeps the names that are taken.
-/

import ConstantTime.Toml.Statement

namespace ConstantTime
namespace Toml

/-- How a table came about. -/
inductive Opening where
  /-- A longer header went through it. -/
  | implied
  /-- It has a header. -/
  | header
  /-- Keys with points went through it, below the header with this number. -/
  | dotted (ordinal : Nat)
deriving DecidableEq, Repr, Inhabited

/-- What a name was given to. -/
inductive Entry where
  | value
  | table (opening : Opening) (members : List (String × Entry))
  /-- A list of tables; only the names in its last one count. -/
  | tables (members : List (String × Entry))
deriving Repr, Inhabited

/-- The names in a table. -/
abbrev Members := List (String × Entry)

/-- What a name was given to. -/
def find? (name : String) (m : Members) : Option Entry :=
  (m.find? fun p => p.1 = name).map Prod.snd

/-- Gives a name to something else, or for the first time. -/
def put (name : String) (e : Entry) : Members → Members
  | [] => [(name, e)]
  | (k, old) :: rest => if k = name then (k, e) :: rest else (k, old) :: put name e rest

/-- Changes the entry at the end of a path that a header writes.  Tables on the way
that are missing are implied. -/
def openPath (change : Option Entry → Option Entry) : Path → Members → Option Members
  | [], _ => none
  | [k], m => (change (find? k m)).map fun e => put k e m
  | k :: rest, m =>
    match find? k m with
    | none => (openPath change rest []).map fun ms => put k (.table .implied ms) m
    | some (.table o ms) => (openPath change rest ms).map fun ms => put k (.table o ms) m
    | some (.tables ms) => (openPath change rest ms).map fun ms => put k (.tables ms) m
    | some .value => none

/-- The entry at the end of a path. -/
def seek? : Path → Members → Option Entry
  | [], _ => none
  | [k], m => find? k m
  | k :: rest, m =>
    match find? k m with
    | some (.table _ ms) => seek? rest ms
    | some (.tables ms) => seek? rest ms
    | _ => none

/-- The table that a header opens. -/
def openTable : Option Entry → Option Entry
  | none => some (.table .header [])
  | some (.table .implied ms) => some (.table .header ms)
  | _ => none

/-- The list of tables with one more. -/
def openElement : Option Entry → Option Entry
  | none => some (.tables [])
  | some (.tables _) => some (.tables [])
  | _ => none

/-- May keys with points below a header extend the table? -/
def Opening.isOpen (ordinal : Nat) : Opening → Bool
  | .implied => true
  | .header => false
  | .dotted s => s = ordinal

/-- Takes a name for a value. -/
def take (ordinal : Nat) : Path → Members → Option Members
  | [], _ => none
  | [k], m => if (find? k m).isSome then none else some (put k .value m)
  | k :: rest, m =>
    match find? k m with
    | none => (take ordinal rest []).map fun ms => put k (.table (.dotted ordinal) ms) m
    | some (.table o ms) =>
      if o.isOpen ordinal then (take ordinal rest ms).map fun ms => put k (.table o ms) m
      else none
    | some _ => none

/-- Changes the table that the last header opened. -/
def within (change : Members → Option Members) : Path → Members → Option Members
  | [], m => change m
  | k :: rest, m =>
    match find? k m with
    | some (.table o ms) => (within change rest ms).map fun ms => put k (.table o ms) m
    | some (.tables ms) => (within change rest ms).map fun ms => put k (.tables ms) m
    | _ => none

mutual

/-- Is no name given twice within a value? -/
def Value.isSound : Value → Bool
  | .list vs => areSound vs
  | .inline ps => (takeAll ps []).isSome
  | _ => true

/-- Is no name given twice within one of several values? -/
def areSound : List Value → Bool
  | [] => true
  | v :: rest => v.isSound && areSound rest

/-- Takes the names of a table within a line, added to those before. -/
def takeAll : List (Path × Value) → Members → Option Members
  | [], m => some m
  | (ks, v) :: rest, m =>
    match take 0 ks m with
    | none => none
    | some m => if v.isSound then takeAll rest m else none

end

/-- The names so far, the table of the last header, and its number. -/
structure Ledger where
  members : Members := []
  current : Path := []
  ordinal : Nat := 0
deriving Inhabited

namespace Ledger

/-- Was the name of a header given before? -/
def knows (l : Ledger) (ks : Path) : Bool := (seek? ks l.members).isSome

/-- Takes a statement into account. -/
def add (l : Ledger) : Statement → Option Ledger
  | .table ks => (openPath openTable ks l.members).map fun m => ⟨m, ks, l.ordinal + 1⟩
  | .element ks => (openPath openElement ks l.members).map fun m => ⟨m, ks, l.ordinal + 1⟩
  | .pair ks v =>
    if v.isSound then
      (within (take l.ordinal ks) l.current l.members).map fun m => { l with members := m }
    else none

end Ledger
end Toml
end ConstantTime
