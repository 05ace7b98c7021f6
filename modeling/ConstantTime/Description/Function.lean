/-
# Functions

"Single-Path Constant-Time Transformation Engine", §6 and §12.8.

A function is described by its blocks in order; the first is the entry.  A
block names its successors, and may give the number of its accesses to memory
and, if it heads a loop, the bound of the loop.

A description may leave entries of its lists empty.  Whatever needs such an
entry breaks off; whatever can do without it goes on.
-/

import ConstantTime.Config.Basic
import ConstantTime.Description.Instr
import ConstantTime.Diagnostic.Halt
import ConstantTime.Graph.Builder

namespace ConstantTime

/-- A list with entries that may be empty. -/
abbrev Listing (α : Type) := List (Option α)

/-- All entries, if none is empty. -/
def Listing.all? {α : Type} (l : Listing α) : Option (List α) := l.mapM id

/-- A block. -/
structure BlockDescription where
  name : String := ""
  succs : List String := []
  /-- The number of accesses to memory; without it the instructions are counted. -/
  accesses : Option Int64 := none
  /-- The bound of the loop it heads. -/
  bound : Option Bound := none
  instrs : Listing Instr := []
deriving DecidableEq, Repr, Inhabited

namespace BlockDescription

/-- The number of accesses to memory whose time varies. -/
def accessCount (b : BlockDescription) : Int64 :=
  b.accesses.getD (Int64.ofNat (b.instrs.countP fun i => i.any Instr.hasVariableLatency))

/-- Do the instructions have to be counted while one is missing? -/
def isUncountable (b : BlockDescription) : Bool := b.accesses.isNone && none ∈ b.instrs

end BlockDescription

/-- A function. -/
structure FunctionDescription where
  name : String := ""
  /-- Is it a root, which is always executed while enabled? -/
  root : Bool := false
  /-- Is it only called from blocks of a root that execute a fixed number of
  times? -/
  pseudoRoot : Bool := false
  /-- The blocks, if the description mentions them. -/
  blocks : Option (Listing BlockDescription) := none
deriving DecidableEq, Repr, Inhabited

/-- The bounds of the loops of a function, by header. -/
abbrev BoundTable := OrderedMap BlockId Bound

namespace FunctionDescription

/-- The blocks. -/
def entries (f : FunctionDescription) : Listing BlockDescription := f.blocks.getD []

/-- Is it only called while it is enabled? -/
def rootLike (f : FunctionDescription) : Bool := f.root || f.pseudoRoot

/-- The block with a number. -/
def block? (f : FunctionDescription) (b : BlockId) : Option BlockDescription :=
  if 0 ≤ b then (f.entries[b.toNat]?).join else none

/-- The number of accesses of a block; none if there is no such block. -/
def accesses (f : FunctionDescription) (b : BlockId) : Int64 :=
  match f.block? b with
  | none => 0
  | some blk => blk.accessCount

/-! ### The graph -/

/-- The block at a position, which has to be there and to have a name. -/
def namedBlock (f : FunctionDescription) (i : Nat) :
    Option BlockDescription → Except Halt BlockDescription
  | none => .error .missingEntry
  | some b =>
    if b.name = "" then
      .error (.failed (.finding ((Cause.blockWithoutName i).finding.inFunction f.name)))
    else .ok b

/-- All blocks. -/
def namedBlocks (f : FunctionDescription) : Except Halt (List BlockDescription) :=
  f.entries.zipIdx.mapM fun (b, i) => f.namedBlock i b

/-- A builder with blocks and then their edges. -/
def draft (name : String) (blocks : List BlockDescription) : Builder :=
  let nodes := blocks.foldl (fun b d => (b.newBlock d.name).1) (Builder.new name)
  blocks.foldl (fun b d => d.succs.foldl (fun b s => b.addEdgeByName d.name s) b) nodes

/-- The control-flow graph; its blocks are numbered as they are described. -/
def graph (f : FunctionDescription) : Except Halt Graph := do
  let blocks ← f.namedBlocks
  Halt.ofOutcome (draft f.name blocks).build.2

/-! ### Loop bounds -/

/-- The bound of the loop with a header. -/
def boundOf (f : FunctionDescription) (config : Config) (header : BlockId) : Outcome Bound :=
  match f.block? header with
  | none => reject ((Cause.headerWithoutDescription header.label).finding.inFunction f.name)
  | some blk =>
    match blk.bound with
    | none =>
      if config.loopBounds = .fallback then .ok config.defaultLoopBound
      else reject (Cause.boundMissing.finding.inFunction f.name |>.atLoop blk.name)
    | some b =>
      if b.isOrdered then .ok b
      else reject
        ((Cause.invalidBound b.min b.max).finding.inFunction f.name |>.atLoop blk.name)

/-- The bounds of all loops. -/
def bounds (f : FunctionDescription) (g : Graph) (config : Config) : Outcome BoundTable :=
  g.loops.foldlM (fun m l => do return m.insert l.header (← f.boundOf config l.header)) ∅

end FunctionDescription
end ConstantTime
