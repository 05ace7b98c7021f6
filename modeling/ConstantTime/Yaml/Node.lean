/-
# From tokens to a document

A document is a tree of scalars, lists and tables.  A part of it may have an
anchor, and an alias stands for the part that last had its name; the parts are
kept beside the tree, by number, because a part may hold an alias for itself.

Only the first document of a text is read, and of what follows only as much as
is needed to see that it ends.
-/

import ConstantTime.Yaml.Scanner

namespace ConstantTime
namespace Yaml

/-- A part of a document. -/
inductive Node where
  | scalar (tag : Option String) (plain : Bool) (text : String)
  | list (tag : Option String) (items : List Node)
  | table (tag : Option String) (members : List (Node × Node))
  /-- Stands for the part with a number; no two aliases have the same mark. -/
  | alias (name : String) (part mark : Nat)
deriving Repr, Inhabited

/-- A document under construction. -/
structure Composer where
  scanner : Scanner
  /-- What the handles of tags stand for. -/
  handles : List (String × String) := []
  /-- The numbers of the parts with anchors, the last one first. -/
  anchors : List (String × Nat) := []
  /-- The parts with anchors that are complete. -/
  parts : List (Nat × Node) := []
  /-- The number of anchors and of aliases so far. -/
  named : Nat := 0
  aliased : Nat := 0
deriving Inhabited

/-- A step of reading a document, which may fail. -/
abbrev Composing := StateT Composer Option

/-- Reads tokens. -/
def scan {α : Type} (step : Scanning α) : Composing α := fun c =>
  (step c.scanner).map fun (a, s) => (a, { c with scanner := s })

/-- The next token. -/
def token : Composing Token := scan peek

/-- Skips a token. -/
def pass : Composing Unit := scan advance

/-- What is there where nothing is written. -/
def emptyNode : Node := .scalar none true ""

/-! ### What comes in front of a part -/

/-- The beginning of the tags that are always known. -/
def standardHandles : List (String × String) := [("!", "!"), ("!!", "tag:yaml.org,2002:")]

/-- A tag as it is meant: the standard ones are shortened, and the one that says
nothing does not count. -/
def shortTag (t : String) : Option String :=
  let standard := "tag:yaml.org,2002:"
  if t = "" || t = "!" then none
  else if t.startsWith standard then some ("!!" ++ (t.drop standard.length).toString)
  else some t

/-- A tag with its handle replaced. -/
def fullTag (handle suffix : String) : Composing String := do
  if handle = "" then return suffix
  match (← get).handles.find? fun h => h.1 = handle with
  | some (_, root) => return root ++ suffix
  | none => failure

/-- The anchor and the tag of a part. -/
structure Label where
  anchor : Option String := none
  tag : Option String := none
deriving Repr, Inhabited

/-- Reads a tag, if there is one. -/
def tag? : Composing (Option String) := do
  match ← token with
  | .tag handle suffix =>
    pass
    let _ ← token
    return some (← fullTag handle suffix)
  | _ => return none

/-- Reads an anchor, if there is one. -/
def anchor? : Composing (Option String) := do
  match ← token with
  | .anchor name =>
    pass
    let _ ← token
    return some name
  | _ => return none

/-- Reads an anchor and a tag, in any order. -/
def label : Composing Label := do
  match ← anchor? with
  | some a => return { anchor := some a, tag := ← tag? }
  | none =>
    match ← tag? with
    | none => return {}
    | some t => return { anchor := ← anchor?, tag := some t }

/-- Gives a part its number before it is read, so that it can be named within. -/
def announce (l : Label) : Composing (Option Nat) := do
  match l.anchor with
  | none => return none
  | some name =>
    let c ← get
    set { c with anchors := (name, c.named) :: c.anchors, named := c.named + 1 }
    return some c.named

/-- Keeps a part that has a number. -/
def keep (number : Option Nat) (n : Node) : Composing Node := do
  match number with
  | none => return n
  | some k =>
    modify fun c => { c with parts := (k, n) :: c.parts }
    return n

/-- Reads an alias. -/
def aliasNode (name : String) : Composing Node := do
  pass
  let c ← get
  match c.anchors.find? fun a => a.1 = name with
  | none => failure
  | some (_, part) =>
    set { c with aliased := c.aliased + 1 }
    return .alias name part c.aliased

/-! ### Parts -/

/-- Does a token end an item that has nothing? -/
def endsItem (indentless : Bool) : Token → Bool
  | .item => true
  | .blockEnd => true
  | .key => indentless
  | .value => indentless
  | _ => false

/-- Does a token end a member in the block style that has nothing? -/
def endsMember : Token → Bool
  | .key => true
  | .value => true
  | .blockEnd => true
  | _ => false

/-- Does a token end a key or value between brackets that has nothing? -/
def endsEntry (closing : Token) (t : Token) : Bool := t = .comma || t = closing

mutual

/-- Reads a part.  In the block style, a list may stand in the column of the table
around it.  Every level of nesting and every item takes one of `fuel`. -/
def node (inBlock indentless : Bool) : (fuel : Nat) → Composing Node
  | 0 => failure
  | fuel + 1 => do
    match ← token with
    | .alias name => aliasNode name
    | _ =>
      let l ← label
      let tag := l.tag.bind shortTag
      match ← token with
      | .item =>
        if indentless then
          let k ← announce l
          keep k (.list tag (← blockItems true fuel []))
        else labelled l
      | .scalar plain text =>
        let k ← announce l
        pass
        keep k (.scalar tag plain text)
      | .listStart =>
        let k ← announce l
        pass
        keep k (.list tag (← entries true fuel []))
      | .tableStart =>
        let k ← announce l
        pass
        keep k (.table tag (← pairs true fuel []))
      | .blockListStart =>
        if inBlock then
          let k ← announce l
          pass
          keep k (.list tag (← blockItems false fuel []))
        else labelled l
      | .blockTableStart =>
        if inBlock then
          let k ← announce l
          pass
          keep k (.table tag (← members fuel []))
        else labelled l
      | _ => labelled l

/-- A part of which there is nothing but its label. -/
def labelled (l : Label) : Composing Node := do
  if l.anchor.isSome || l.tag.any (· ≠ "") then
    let k ← announce l
    keep k (.scalar (l.tag.bind shortTag) true "")
  else failure

/-- The items of a list in the block style; `done` are those before, last first. -/
def blockItems (indentless : Bool) : (fuel : Nat) → (done : List Node) → Composing (List Node)
  | 0, _ => failure
  | fuel + 1, done => do
    match ← token with
    | .item =>
      pass
      let n ← if endsItem indentless (← token) then pure emptyNode else node true false fuel
      blockItems indentless fuel (n :: done)
    | t =>
      if indentless then return done.reverse
      else if t = .blockEnd then
        pass
        return done.reverse
      else failure

/-- The members of a table in the block style; `done` are those before, last
first. -/
def members : (fuel : Nat) → (done : List (Node × Node)) → Composing (List (Node × Node))
  | 0, _ => failure
  | fuel + 1, done => do
    match ← token with
    | .key =>
      pass
      let k ← if endsMember (← token) then pure emptyNode else node true true fuel
      let v ← memberValue fuel
      members fuel ((k, v) :: done)
    | .blockEnd =>
      pass
      return done.reverse
    | _ => failure

/-- The value of a member in the block style. -/
def memberValue : (fuel : Nat) → Composing Node
  | 0 => failure
  | fuel + 1 => do
    match ← token with
    | .value =>
      pass
      if endsMember (← token) then return emptyNode else node true true fuel
    | _ => return emptyNode

/-- The items of a list between brackets; `done` are those before, last first. -/
def entries (first : Bool) : (fuel : Nat) → (done : List Node) → Composing (List Node)
  | 0, _ => failure
  | fuel + 1, done => do
    separator first .listEnd
    match ← token with
    | .listEnd =>
      pass
      return done.reverse
    | .key =>
      pass
      let n ← singlePair fuel
      entries false fuel (n :: done)
    | _ =>
      let n ← node false false fuel
      entries false fuel (n :: done)

/-- The comma that has to stand in front of every entry but the first. -/
def separator (first : Bool) (closing : Token) : Composing Unit := do
  let t ← token
  if !first && t ≠ closing then
    if t = .comma then
      pass
      let _ ← token
    else failure

/-- A table of one member that stands in a list without brackets of its own.  If
there is no key, a token is passed over. -/
def singlePair : (fuel : Nat) → Composing Node
  | 0 => failure
  | fuel + 1 => do
    let t ← token
    let k ←
      if t = .value || endsEntry .listEnd t then do
        pass
        pure emptyNode
      else node false false fuel
    let v ← entryValue .listEnd fuel
    let _ ← token
    return .table none [(k, v)]

/-- The value of a member between brackets. -/
def entryValue (closing : Token) : (fuel : Nat) → Composing Node
  | 0 => failure
  | fuel + 1 => do
    match ← token with
    | .value =>
      pass
      if endsEntry closing (← token) then return emptyNode else node false false fuel
    | _ => return emptyNode

/-- The members of a table between brackets; `done` are those before, last
first. -/
def pairs (first : Bool) : (fuel : Nat) → (done : List (Node × Node)) →
    Composing (List (Node × Node))
  | 0, _ => failure
  | fuel + 1, done => do
    separator first .tableEnd
    match ← token with
    | .tableEnd =>
      pass
      return done.reverse
    | .key =>
      pass
      let t ← token
      let k ←
        if t = .value || endsEntry .tableEnd t then pure emptyNode else node false false fuel
      let v ← entryValue .tableEnd fuel
      pairs false fuel ((k, v) :: done)
    | _ =>
      let k ← node false false fuel
      let _ ← token
      pairs false fuel ((k, emptyNode) :: done)

end

/-! ### Documents -/

/-- Reads the directives in front of a document. -/
def directives (versioned : Bool) : (fuel : Nat) → Composing Unit
  | 0 => failure
  | fuel + 1 => do
    match ← token with
    | .version major minor =>
      if versioned || major ≠ 1 || minor ≠ 1 then failure
      pass
      directives true fuel
    | .handle name root =>
      if (← get).handles.any (fun h => h.1 = name) then failure
      modify fun c => { c with handles := c.handles ++ [(name, root)] }
      pass
      directives versioned fuel
    | _ => return

/-- Reads a document. -/
def document (fuel : Nat) : Composing Node := do
  let _ ← token
  pass
  let t ← token
  if t = .streamEnd then failure
  else if t.isOutside && t ≠ .documentEnd then
    directives false fuel
    if (← token) ≠ .documentStart then failure
    modify fun c => { c with handles := c.handles ++ standardHandles }
    pass
    if (← token).isOutside then return emptyNode else node true false fuel
  else
    modify fun c => { c with handles := standardHandles }
    node true false fuel

/-- A document with the parts that have anchors. -/
structure Document where
  root : Node
  parts : List (Nat × Node)
  /-- The number of aliases. -/
  aliases : Nat
deriving Inhabited

/-- The first document of a text. -/
def Document.ofText? (s : String) : Option Document := do
  let size := s.length
  let read : Composing Node := do
    let n ← document (16 * size + 64)
    let _ ← token
    return n
  let (root, c) ← read { scanner := { cursor := Cursor.ofText s } }
  return { root, parts := c.parts, aliases := c.aliased }

end Yaml
end ConstantTime
