/-
# Building a graph

"Single-Path Constant-Time Transformation Engine", §12.1.

A builder collects blocks and edges, gives every block the next number and
remembers the first thing that was wrong.  `build` hands the blocks over as a
graph if

* nothing was wrong and there is a block,
* no edge leads to the entry, the first block,
* the entry reaches every block, and
* every loop is entered at its header only.

A builder that handed over its blocks starts again without any; one that
failed keeps them.

A client makes one call after the other (`Builder.Call`), and sees the answers.
-/

import ConstantTime.Graph.Basic

namespace ConstantTime

/-- A graph under construction. -/
structure Builder where
  /-- The blocks so far. -/
  draft : Shape
  /-- The first thing that was wrong. -/
  failure : Option Failure := none
deriving DecidableEq, Inhabited

namespace Builder

/-- A builder without blocks. -/
def new (name : String) : Builder := { draft := { name := name, blocks := [] } }

/-- Remembers a complaint, unless there was one before. -/
def complain (b : Builder) (c : Cause) : Builder :=
  match b.failure with
  | some _ => b
  | none => { b with failure := some (.finding (c.finding.inFunction b.draft.name)) }

/-- Adds a block; without a name it is called by its number. -/
def newBlock (b : Builder) (name : String) : Builder × BlockId :=
  let id : BlockId := b.draft.size
  let name := if name = "" then id.label else name
  let b := if (b.draft.find? name).isSome then b.complain (.duplicateBlock name) else b
  ({ b with draft := { b.draft with blocks := b.draft.blocks ++ [{ name := name }] } }, id)

/-- The block of a name, added if it is not there. -/
def block (b : Builder) (name : String) : Builder × BlockId :=
  match b.draft.find? name with
  | some id => (b, id)
  | none => b.newBlock name

/-- Adds several blocks without names. -/
def newBlocks : (n : Nat) → Builder → Builder × List BlockId
  | 0, b => (b, [])
  | n + 1, b =>
    let (b, id) := b.newBlock ""
    let (b, ids) := newBlocks n b
    (b, id :: ids)

/-- Draws an edge between two blocks of the draft. -/
def connect (s : Shape) (source target : BlockId) : Shape :=
  let out := s.blocks.modify source.toNat fun blk => { blk with succs := blk.succs ++ [target] }
  { s with blocks :=
    out.modify target.toNat fun blk => { blk with preds := blk.preds ++ [source] } }

/-- Adds an edge; a second edge between two blocks changes nothing. -/
def addEdge (b : Builder) (source target : BlockId) : Builder :=
  if !(b.draft.isBlock source && b.draft.isBlock target) then
    b.complain (.edgeOutside source.label target.label)
  else if b.draft.hasEdge source target then b
  else { b with draft := connect b.draft source target }

/-- Adds an edge between blocks given by name. -/
def addEdgeByName (b : Builder) (source target : String) : Builder :=
  match b.draft.find? source with
  | none => b.complain (.unknownBlockName source)
  | some u =>
    match b.draft.find? target with
    | none => b.complain (.unknownBlockName target)
    | some v => b.addEdge u v

/-- The graph of the blocks so far. -/
def graph (b : Builder) : Outcome Graph :=
  let s := b.draft
  match b.failure with
  | some e => .error e
  | none =>
    if s.blocks.isEmpty then reject (Cause.emptyFunction.finding.inFunction s.name)
    else if !(s.preds s.entry).isEmpty then
      reject (Cause.entryPredecessors.finding.inFunction s.name |>.atBlock (s.nameOf s.entry))
    else
      let order := s.reversePostorder
      match s.ids.find? (fun v => v ∉ order) with
      | some v => reject (Cause.unreachable.finding.inFunction s.name |>.atBlock (s.nameOf v))
      | none => (Graph.ofShape s order).mapError (.context "building loop forest")

/-- Hands the blocks over as a graph, if they make one. -/
def build (b : Builder) : Builder × Outcome Graph :=
  match b.graph with
  | .ok g => ({ b with draft := { b.draft with blocks := [] } }, .ok g)
  | .error e => (b, .error e)

/-! ### Calls -/

/-- What a client may ask of a builder. -/
inductive Call where
  | newBlock (name : String)
  | block (name : String)
  | newBlocks (n : Nat)
  | addEdge (source target : BlockId)
  | addEdgeByName (source target : String)
  | build
deriving DecidableEq, Repr

/-- The builder after a call. -/
def after (b : Builder) : Call → Builder
  | .newBlock name => (b.newBlock name).1
  | .block name => (b.block name).1
  | .newBlocks n => (newBlocks n b).1
  | .addEdge u v => b.addEdge u v
  | .addEdgeByName u v => b.addEdgeByName u v
  | .build => b.build.1

/-- The builder after several calls. -/
def run (b : Builder) (calls : List Call) : Builder := calls.foldl after b

end Builder

/-- What a call answers. -/
inductive Answer where
  | number (b : BlockId)
  | numbers (bs : List BlockId)
  | done
  | built (out : Outcome Graph)

/-- Has the call failed to build a graph? -/
def Answer.isFailure : Answer → Bool
  | .built (.error _) => true
  | _ => false

/-- What a builder answers to a call. -/
def Builder.answer (b : Builder) : Builder.Call → Answer
  | .newBlock name => .number (b.newBlock name).2
  | .block name => .number (b.block name).2
  | .newBlocks n => .numbers (newBlocks n b).2
  | .addEdge _ _ => .done
  | .addEdgeByName _ _ => .done
  | .build => .built b.build.2

section Answers

variable {σ : Type} (after : σ → Builder.Call → σ) (answer : σ → Builder.Call → Answer)

/-- The answers to several calls. -/
def answersOf : σ → List Builder.Call → List Answer
  | _, [] => []
  | s, c :: calls => answer s c :: answersOf (after s c) calls

/-- The calls without those that fail to build. -/
def kept : σ → List Builder.Call → List Builder.Call
  | _, [] => []
  | s, c :: calls =>
    if (answer s c).isFailure then kept (after s c) calls else c :: kept (after s c) calls

end Answers

end ConstantTime
