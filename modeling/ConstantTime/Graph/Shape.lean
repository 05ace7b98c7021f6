/-
# The shape of a control-flow graph

"Single-Path Constant-Time Transformation Engine", §3 and §12.1.

A shape is the bare graph: blocks with their successors and predecessors in
the order in which the edges were added.  The first block is the entry.  What
is computed from a shape (order, dominators, loops) is kept beside it in
`Graph`.

`closure` is the one search of the library that asks only *what* is reached:
everything a relation reaches from a list of blocks.
-/

import ConstantTime.Graph.Edge

namespace ConstantTime

/-- A basic block. -/
structure Block where
  name : String
  /-- The sources of the edges into it, in the order they were added. -/
  preds : List BlockId := []
  /-- The targets of the edges out of it, in the order they were added. -/
  succs : List BlockId := []
deriving DecidableEq, Repr, Inhabited

/-- A graph of basic blocks. -/
structure Shape where
  /-- The name of the function. -/
  name : String
  /-- The blocks; a block's number is its position. -/
  blocks : List Block
deriving DecidableEq, Repr, Inhabited

namespace Shape

/-- The number of blocks. -/
def size (g : Shape) : Nat := g.blocks.length

/-- The entry block. -/
def entry (_ : Shape) : BlockId := 0

/-- The numbers of the blocks. -/
def ids (g : Shape) : List BlockId := (List.range g.size).map Int.ofNat

/-- Does the number name a block? -/
def isBlock (g : Shape) (b : BlockId) : Bool := 0 ≤ b && b < g.size

/-- The block with a number. -/
def block? (g : Shape) (b : BlockId) : Option Block :=
  if 0 ≤ b then g.blocks[b.toNat]? else none

/-- The successors of a block. -/
def succs (g : Shape) (b : BlockId) : List BlockId :=
  match g.block? b with
  | some blk => blk.succs
  | none => []

/-- The predecessors of a block. -/
def preds (g : Shape) (b : BlockId) : List BlockId :=
  match g.block? b with
  | some blk => blk.preds
  | none => []

/-- The name of a block; a number that names no block is shown as a label. -/
def nameOf (g : Shape) (b : BlockId) : String :=
  match g.block? b with
  | some blk => blk.name
  | none => b.label

/-- The last block of a name. -/
def find? (g : Shape) (name : String) : Option BlockId :=
  g.ids.reverse.find? (fun b => g.nameOf b = name)

/-- Is there an edge between two blocks? -/
def hasEdge (g : Shape) (a b : BlockId) : Bool := b ∈ g.succs a

/-- The blocks without successors. -/
def ends (g : Shape) : List BlockId := g.ids.filter (fun b => (g.succs b).isEmpty)

/-- The only block without successors, if there is just one. -/
def end? (g : Shape) : Option BlockId :=
  match g.ends with
  | [e] => some e
  | _ => none

theorem mem_ids {g : Shape} {b : BlockId} : b ∈ g.ids ↔ 0 ≤ b ∧ b < g.size := by
  simp only [ids, List.mem_map, List.mem_range]
  constructor
  · rintro ⟨i, hi, rfl⟩
    exact ⟨Int.natCast_nonneg i, by simpa using hi⟩
  · rintro ⟨h₀, h₁⟩
    exact ⟨b.toNat, by lia, by simp [Int.toNat_of_nonneg h₀]⟩

theorem isBlock_iff {g : Shape} {b : BlockId} : g.isBlock b = true ↔ b ∈ g.ids := by
  simp [isBlock, mem_ids]

end Shape

/-- One step of a search: blocks still to visit, and blocks seen. -/
def discover (frontier : List BlockId × BlockSet) (b : BlockId) : List BlockId × BlockSet :=
  if b ∈ frontier.2 then frontier else (b :: frontier.1, frontier.2.insert b)

/-- Everything that `next` reaches from the blocks of `work`, added to `seen`.
Each block enters `work` once, so `fuel` need not exceed their number. -/
def closureFrom (next : BlockId → List BlockId) :
    (fuel : Nat) → (work : List BlockId) → (seen : BlockSet) → BlockSet
  | 0, _, seen => seen
  | _ + 1, [], seen => seen
  | fuel + 1, b :: work, seen =>
    let (work, seen) := (next b).foldl discover (work, seen)
    closureFrom next fuel work seen

/-- What `next` reaches from `starts` in any number of steps, `starts` and
`seen` included, without going on from what was already in `seen`. -/
def closure (g : Shape) (next : BlockId → List BlockId) (starts : List BlockId)
    (seen : BlockSet := ∅) : BlockSet :=
  let (work, seen) := starts.foldl discover ([], seen)
  closureFrom next (g.size + starts.length) work seen

end ConstantTime
