/-
# Reading YAML into what is there

A document is read against a schema into a draft.  Nothing at all leaves a place
alone, except that it empties lists and optional places; an item that leaves its
place alone is no item.  Every key of a table has to belong to a field, and no
field may be given twice.

The key `<<` merges other tables into the one it stands in: they give what the
table and the tables before do not give themselves.

An alias is read like the part it stands for, unless it stands within that part.
A short document may stand for a long one that way; one which is too long for
what it holds itself is refused.
-/

import ConstantTime.Document.Schema
import ConstantTime.Yaml.Node
import ConstantTime.Yaml.Scalar

namespace ConstantTime
namespace Yaml

/-! ### Counting -/

/-- The number of parts that were read, and of those among them that an alias stood
for. -/
structure Tally where
  total : Nat := 0
  aliased : Nat := 0
deriving DecidableEq, Repr, Inhabited

namespace Tally

/-- Up to so many parts, as good as all may be aliased. -/
def low : Nat := 400000

/-- From so many parts on, only a tenth may be aliased. -/
def high : Nat := 4000000

/-- The aliased parts allowed among so many, in `100 * (high - low)` shares of
one. -/
def allowance (total : Nat) : Nat :=
  total * (99 * (high - low) - 89 * (min total high - low))

/-- Are too many of the parts aliased? -/
def isExcessive (t : Tally) : Bool :=
  100 < t.aliased && 1000 < t.total &&
    allowance t.total < t.aliased * (100 * (high - low))

/-- Counts a part. -/
def add (inAlias : Bool) (t : Tally) : Tally :=
  { total := t.total + 1, aliased := if inAlias then t.aliased + 1 else t.aliased }

end Tally

/-- A step of reading into a draft, which may fail. -/
abbrev Intaking := StateT Tally Option

/-- Counts a part that is about to be read. -/
def count (inAlias : Bool) : Intaking Unit := do
  modify (Tally.add inAlias)
  if (← get).isExcessive then failure

/-! ### Scalars -/

/-- What a place becomes after a scalar; `none` within if it stays as it is. -/
def settle (text : String) : Meaning → Schema → Option (Option Draft)
  | .null, .list _ => some (some .absent)
  | .null, .optional _ => some (some .absent)
  | .null, _ => some none
  | .text s, .text => some (some (.text s))
  | _, .text => some (some (.text text))
  | .flag b, .flag => some (some (.flag b))
  | .text s, .flag => (wordFlag? s).map fun b => some (.flag b)
  | .int n, .int => (Text.int64? n).map fun w => some (.int w)
  | .decimal w?, .int => w?.map fun w => some (.int w)
  | _, _ => none

/-! ### Tables -/

/-- Are two keys written the same way? -/
def sameKey : Node → Node → Bool
  | .scalar _ _ a, .scalar _ _ b => a = b
  | .alias a _ _, .alias b _ _ => a = b
  | _, _ => false

/-- Is a key written twice? -/
def repeatsKey : List Node → Bool
  | [] => false
  | k :: rest => rest.any (sameKey k) || repeatsKey rest

/-- Is it the key that merges? -/
def isMerge : Node → Bool
  | .scalar tag plain text =>
    text = "<<" && (tag = some "!!merge" || (tag = none && plain))
  | _ => false

/-- What is merged into a table. -/
def merged? (ms : List (Node × Node)) : Option Node :=
  (ms.find? fun m => isMerge m.1).map Prod.snd

/-- A record in the course of reading: what it holds and the names of the fields that
are given. -/
structure Filling where
  draft : Draft
  given : List String := []
deriving Inhabited

/-! ### Parts -/

/-- Does it say that there is nothing? -/
def Node.isNull : Node → Bool
  | .scalar tag plain text => meaning? tag plain text = some .null
  | .list tag _ => tag = some "!!null"
  | .table tag _ => tag = some "!!null"
  | .alias _ _ _ => false

/-- The part that an alias stands for. -/
def Document.part? (doc : Document) (k : Nat) : Option Node :=
  (doc.parts.find? fun p => p.1 = k).map Prod.snd

mutual

/-- Reads a part into a place; `none` if the place stays as it is.  `within` are the
marks of the aliases that it stands within.  Every step inwards and every item takes
one of `fuel`. -/
def readPart (doc : Document) : (fuel : Nat) → (within : List Nat) → Node → Schema → Draft →
    Intaking (Option Draft)
  | 0, _, _, _, _ => failure
  | fuel + 1, within, n, s, d => do
    count !within.isEmpty
    match n with
    | .alias _ k mark =>
      if within.contains mark then failure
      match doc.part? k with
      | none => failure
      | some target => readPart doc fuel (mark :: within) target s d
    | n =>
      match s with
      | .optional item =>
        if n.isNull then readContent doc fuel within n s d
        else return some ((← readContent doc fuel within n item (d.orBlank item)).getD .absent)
      | s => readContent doc fuel within n s d

/-- Reads a part that is no alias. -/
def readContent (doc : Document) : (fuel : Nat) → (within : List Nat) → Node → Schema → Draft →
    Intaking (Option Draft)
  | 0, _, _, _, _ => failure
  | fuel + 1, within, n, s, d =>
    match n, s with
    | .scalar tag plain text, s => (meaning? tag plain text).bind fun m => settle text m s
    | .list _ ns, .list item => do
      return some (.list (← readItems doc fuel within item ns []) [])
    | .table _ ms, .record fields => do
      return some (← readTable doc fuel within false fields ms { draft := d }).draft
    | _, _ => failure

/-- Reads the items of a list; `done` are those before, last first. -/
def readItems (doc : Document) : (fuel : Nat) → (within : List Nat) → (item : Schema) →
    List Node → (done : List Draft) → Intaking (List Draft)
  | 0, _, _, _, _ => failure
  | _ + 1, _, _, [], done => return done.reverse
  | fuel + 1, within, item, n :: rest, done => do
    match ← readPart doc fuel within n item item.blank with
    | none => readItems doc fuel within item rest done
    | some d => readItems doc fuel within item rest (d :: done)

/-- Reads a table, and then those that are merged into it. -/
def readTable (doc : Document) : (fuel : Nat) → (within : List Nat) → (merging : Bool) →
    (fields : List (String × Schema)) → List (Node × Node) → Filling → Intaking Filling
  | 0, _, _, _, _, _ => failure
  | fuel + 1, within, merging, fields, ms, f => do
    if repeatsKey (ms.map Prod.fst) then failure
    let f ← readMembers doc fuel within merging fields ms f
    match merged? ms with
    | none => return f
    | some n =>
      if !merging then readKeys doc fuel within (ms.map Prod.fst)
      match n with
      | .list _ ns => mergeAll doc fuel within fields ns f
      | n => merge doc fuel within fields n f

/-- Reads the members of a table.  A field that is given before is skipped in a table
that is merged into another. -/
def readMembers (doc : Document) : (fuel : Nat) → (within : List Nat) → (merging : Bool) →
    (fields : List (String × Schema)) → List (Node × Node) → Filling → Intaking Filling
  | 0, _, _, _, _, _ => failure
  | _ + 1, _, _, _, [], f => return f
  | fuel + 1, within, merging, fields, (k, v) :: rest, f => do
    if isMerge k then readMembers doc fuel within merging fields rest f
    else
      match ← readPart doc fuel within k .text (.text "") with
      | none => readMembers doc fuel within merging fields rest f
      | some name =>
        let name := name.toText
        if f.given.contains name then
          if merging then readMembers doc fuel within merging fields rest f else failure
        else
          match Schema.field? name fields with
          | none => failure
          | some s =>
            let old := f.draft.get name
            let new := (← readPart doc fuel within v s old).getD old
            readMembers doc fuel within merging fields rest
              { draft := f.draft.put name new, given := name :: f.given }

/-- Looks at the keys of a table, in search of what is given. -/
def readKeys (doc : Document) : (fuel : Nat) → (within : List Nat) → List Node → Intaking Unit
  | 0, _, _ => failure
  | _ + 1, _, [] => return
  | fuel + 1, within, k :: rest => do
    let _ ← readPart doc fuel within k .text (.text "")
    readKeys doc fuel within rest

/-- Merges a table, or an alias for one. -/
def merge (doc : Document) : (fuel : Nat) → (within : List Nat) →
    (fields : List (String × Schema)) → Node → Filling → Intaking Filling
  | 0, _, _, _, _ => failure
  | fuel + 1, within, fields, n, f => do
    count !within.isEmpty
    match n with
    | .table _ ms => readTable doc fuel within true fields ms f
    | .alias _ k mark =>
      if within.contains mark then failure
      match doc.part? k with
      | some (.table _ ms) =>
        count true
        readTable doc fuel (mark :: within) true fields ms f
      | _ => failure
    | _ => failure

/-- Merges tables, one after the other. -/
def mergeAll (doc : Document) : (fuel : Nat) → (within : List Nat) →
    (fields : List (String × Schema)) → List Node → Filling → Intaking Filling
  | 0, _, _, _, _ => failure
  | _ + 1, _, _, [], f => return f
  | fuel + 1, within, fields, n :: rest, f => do
    let f ← merge doc fuel within fields n f
    mergeAll doc fuel within fields rest f

end

/-- The draft after a text has been read into it. -/
def read? (schema : Schema) (draft : Draft) (s : String) : Option Draft := do
  let doc ← Document.ofText? s
  let reading : Intaking (Option Draft) := do
    count false
    readPart doc (8 * (s.length + 2) * (doc.aliases + 2)) [] doc.root schema draft
  let (d, _) ← reading {}
  return d.getD draft

end Yaml
end ConstantTime
