/-
# A builder over memory

"Single-Path Constant-Time Transformation Engine", §12.1.

A builder does not copy its blocks when it hands them over: the graph takes the very
blocks, and the very table of names, that the builder wrote to, and the builder goes on
with none and with a new table.  `Assembly` is the builder over such a memory: blocks and
tables lie at places, and the draft and the graphs that were handed over hold the places.

`Assembly.value` reads the builder that holds its blocks itself.
-/

import ConstantTime.Graph.Builder

namespace ConstantTime

open Builder (Call)

/-! ### Blocks in memory -/

/-- A block in memory, with the number it was given. -/
structure Cell where
  number : BlockId := 0
  block : Block := { name := "" }
deriving Inhabited

/-- What has been put into memory: blocks and tables of names, each at its place. -/
structure Memory where
  cells : List Cell := []
  tables : List (List (String × BlockId)) := []

namespace Memory

/-- The block at a place. -/
def cell (m : Memory) (x : Nat) : Cell := m.cells.getD x default

/-- The table at a place; of two entries for a name the first counts. -/
def table (m : Memory) (t : Nat) : List (String × BlockId) := m.tables.getD t []

/-- Writes to the block at a place. -/
def update (m : Memory) (x : Nat) (f : Block → Block) : Memory :=
  { m with cells := m.cells.modify x fun c => { c with block := f c.block } }

variable {m : Memory} {x y : Nat}

theorem cell_append_left {tables : List (List (String × BlockId))} {c : Cell}
    (hx : x < m.cells.length) :
    cell { cells := m.cells ++ [c], tables := tables } x = m.cell x := by
  simp [cell, List.getElem?_append_left hx]

theorem cell_append_length {tables : List (List (String × BlockId))} {c : Cell} :
    cell { cells := m.cells ++ [c], tables := tables } m.cells.length = c := by
  simp [cell]

theorem cell_update (f : Block → Block) (hx : x < m.cells.length) : (m.update x f).cell y =
    if x = y then { m.cell y with block := f (m.cell y).block } else m.cell y := by
  simp only [cell, update, List.getD_eq_getElem?_getD, List.getElem?_modify]
  by_cases hxy : x = y
  · subst hxy
    simp [List.getElem?_eq_getElem hx]
  · simp [hxy]

theorem length_cells_update (f : Block → Block) : (m.update x f).cells.length = m.cells.length :=
  List.length_modify ..

end Memory

/-- Blocks with a table of their names, by their places in memory. -/
structure Located where
  name : String
  /-- The places of the blocks, in the order of their numbers. -/
  places : List Nat := []
  /-- The place of the table of names. -/
  names : Nat

namespace Located

/-- The shape that is read from memory. -/
def shape (f : Located) (m : Memory) : Shape :=
  { name := f.name, blocks := f.places.map fun x => (m.cell x).block }

/-- The numbers that the blocks carry. -/
def numbers (f : Located) (m : Memory) : List BlockId := f.places.map fun x => (m.cell x).number

/-- The block of a name, looked up in the table. -/
def lookup (f : Located) (m : Memory) (name : String) : Option BlockId :=
  (m.table f.names).lookup name

/-- Does the number name a block? -/
def holds (f : Located) (b : BlockId) : Bool := 0 ≤ b && b < f.places.length

/-- The place of a block. -/
def placeOf (f : Located) (b : BlockId) : Nat := f.places.getD b.toNat 0

end Located

/-- A graph that was handed over: where its blocks are, and what was found about them. -/
structure HandedOver where
  located : Located
  found : Graph

/-- The graph, with the blocks that are read from memory. -/
def HandedOver.view (f : HandedOver) (m : Memory) : Graph :=
  { f.found with toShape := f.located.shape m }

/-! ### A builder over memory -/

/-- A builder whose blocks lie in memory. -/
structure Assembly where
  memory : Memory := {}
  draft : Located
  failure : Option Failure := none

namespace Assembly

/-- A builder without blocks. -/
def new (name : String) : Assembly :=
  { memory := { tables := [[]] }, draft := { name := name, names := 0 } }

/-- The builder that holds the blocks itself. -/
def value (a : Assembly) : Builder := { draft := a.draft.shape a.memory, failure := a.failure }

/-- Remembers a complaint, unless there was one before. -/
def complain (a : Assembly) (c : Cause) : Assembly :=
  match a.failure with
  | some _ => a
  | none => { a with failure := some (.finding (c.finding.inFunction a.draft.name)) }

/-- Puts a block of a name behind the others, and the name into the table. -/
def put (a : Assembly) (name : String) : Assembly :=
  let id : BlockId := a.draft.places.length
  { a with
    memory :=
      { cells := a.memory.cells ++ [{ number := id, block := { name := name } }]
        tables := a.memory.tables.modify a.draft.names ((name, id) :: ·) }
    draft := { a.draft with places := a.draft.places ++ [a.memory.cells.length] } }

/-- Adds a block; without a name it is called by its number. -/
def newBlock (a : Assembly) (name : String) : Assembly × BlockId :=
  let id : BlockId := a.draft.places.length
  let name := if name = "" then id.label else name
  let a := if (a.draft.lookup a.memory name).isSome then a.complain (.duplicateBlock name) else a
  (a.put name, id)

/-- The block of a name, added if it is not there. -/
def block (a : Assembly) (name : String) : Assembly × BlockId :=
  match a.draft.lookup a.memory name with
  | some id => (a, id)
  | none => a.newBlock name

/-- Adds several blocks without names. -/
def newBlocks : (n : Nat) → Assembly → Assembly × List BlockId
  | 0, a => (a, [])
  | n + 1, a =>
    let (a, id) := a.newBlock ""
    let (a, ids) := newBlocks n a
    (a, id :: ids)

/-- Writes an edge to both its blocks. -/
def link (a : Assembly) (source target : BlockId) : Assembly :=
  { a with memory :=
      (a.memory.update (a.draft.placeOf source) fun blk =>
        { blk with succs := blk.succs ++ [target] }).update (a.draft.placeOf target) fun blk =>
          { blk with preds := blk.preds ++ [source] } }

/-- Adds an edge; a second edge between two blocks changes nothing. -/
def addEdge (a : Assembly) (source target : BlockId) : Assembly :=
  if !(a.draft.holds source && a.draft.holds target) then
    a.complain (.edgeOutside source.label target.label)
  else if target ∈ (a.memory.cell (a.draft.placeOf source)).block.succs then a
  else a.link source target

/-- Adds an edge between blocks given by name. -/
def addEdgeByName (a : Assembly) (source target : String) : Assembly :=
  match a.draft.lookup a.memory source with
  | none => a.complain (.unknownBlockName source)
  | some u =>
    match a.draft.lookup a.memory target with
    | none => a.complain (.unknownBlockName target)
    | some v => a.addEdge u v

/-- Goes on without blocks and with a new table. -/
def restart (a : Assembly) : Assembly :=
  { a with
    memory := { a.memory with tables := a.memory.tables ++ [[]] }
    draft := { name := a.draft.name, names := a.memory.tables.length } }

/-- Hands the blocks over where they are, if they make a graph. -/
def build (a : Assembly) : Assembly × Outcome HandedOver :=
  match a.value.graph with
  | .error e => (a, .error e)
  | .ok g => (a.restart, .ok { located := a.draft, found := g })

/-- The builder after a call. -/
def after (a : Assembly) : Call → Assembly
  | .newBlock name => (a.newBlock name).1
  | .block name => (a.block name).1
  | .newBlocks n => (newBlocks n a).1
  | .addEdge u v => a.addEdge u v
  | .addEdgeByName u v => a.addEdgeByName u v
  | .build => a.build.1

/-- What it answers to a call; a graph is read as it is handed over. -/
def answer (a : Assembly) : Call → Answer
  | .newBlock name => .number (a.newBlock name).2
  | .block name => .number (a.block name).2
  | .newBlocks n => .numbers (newBlocks n a).2
  | .addEdge _ _ => .done
  | .addEdgeByName _ _ => .done
  | .build => .built (a.build.2.map fun f => f.view a.build.1.memory)

/-- The builder after several calls. -/
def run (a : Assembly) (calls : List Call) : Assembly := calls.foldl after a

end Assembly
end ConstantTime
