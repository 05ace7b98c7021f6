/-
# How many accesses a function performs

"Single-Path Constant-Time Transformation Engine", §4.4 (contract A) and §12.5.

For each block the analysis finds how many accesses happen from the header of
its innermost loop (or the entry) up to and including the block; for each loop,
how many happened before it, how many one full round performs, and how many
have happened when the loop is left from each of its exiting blocks.

A loop whose header is visited `n` times performs `n - 1` full rounds and the
last one up to the exit.  A header is visited at least once.

Rounds over all blocks and loops are repeated until nothing changes.
-/

import ConstantTime.Access.Range
import ConstantTime.Config.Basic
import ConstantTime.Graph.Region

namespace ConstantTime

/-- The accesses of one loop. -/
structure LoopAccesses where
  /-- Before the loop. -/
  before : AccessRange
  /-- In one full round. -/
  round : AccessRange
  /-- When the loop is left, by the exiting block. -/
  exits : OrderedMap BlockId AccessRange
deriving DecidableEq, Inhabited

/-- When the loop is left anywhere; nothing if it cannot be left. -/
def LoopAccesses.span (l : LoopAccesses) : Option AccessRange :=
  AccessRange.joinAll l.exits.values

/-- The accesses of a function. -/
structure AccessAnalysis where
  /-- For each block, since the header of its innermost loop. -/
  blocks : OrderedMap BlockId AccessRange := ∅
  /-- For each loop, by its header. -/
  loops : OrderedMap BlockId LoopAccesses := ∅
deriving DecidableEq, Inhabited

/-- The accesses of a block. -/
abbrev AccessCounts := BlockId → Int64

/-- The bound of the loop with a header. -/
abbrev LoopBounds := BlockId → Bound

namespace AccessAnalysis

/-- On arrival over an edge.  An edge that leaves loops brings what has happened
when the outermost of them is left. -/
def arriving (g : Graph) (a : AccessAnalysis) (p b : BlockId) : Option AccessRange :=
  match (g.loopsLeft p b).getLast? with
  | none => a.blocks.get? p
  | some l => (a.loops.get? (g.headerOf (some l))).bind fun r => r.exits.get? p

/-- On arrival at a block over any of several edges; those of which nothing is
known yet do not count. -/
def arrivingFrom (g : Graph) (a : AccessAnalysis) (b : BlockId) (preds : List BlockId) :
    Option AccessRange :=
  AccessRange.joinAll (preds.filterMap fun p => a.arriving g p b)

/-- Up to and including a block.  The entry and loop headers start afresh. -/
def upTo (g : Graph) (count : AccessCounts) (a : AccessAnalysis) (b : BlockId) :
    Option AccessRange :=
  let own := AccessRange.exactly (count b)
  if b = g.entry || g.isHeader b then some own
  else (a.arrivingFrom g b (g.preds b)).map fun r => r.add own

/-- At a block as seen from a loop around it: a block of a loop inside counts as
that loop being left. -/
def within (g : Graph) (a : AccessAnalysis) (l : LoopId) (b : BlockId) :
    Option AccessRange :=
  if g.loopOf b = some l then a.blocks.get? b
  else
    match g.outermostInner (some l) b with
    | none => none
    | some inner => (a.loops.get? (g.headerOf (some inner))).bind LoopAccesses.span

/-- When a loop is left after `n` visits of its header. -/
def leave (before round last n : Int64) : Int64 := before + (n - 1) * round + last

/-- The bound of a loop, at least one visit. -/
def visits (b : Bound) : Bound := ⟨if b.min < 1 then 1 else b.min, if b.max < 1 then 1 else b.max⟩

/-- The accesses before a loop, if known.  A loop without a way in has none. -/
def beforeLoop (g : Graph) (a : AccessAnalysis) (loop : Loop) : Option AccessRange :=
  match (g.preds loop.header).filter fun p => !loop.contains p with
  | [] => some ⟨0, 0⟩
  | ways => a.arrivingFrom g loop.header ways

/-- The accesses of a loop, if they can be known yet. -/
def ofLoop (g : Graph) (bound : LoopBounds) (a : AccessAnalysis) (l : LoopId) (loop : Loop) :
    Option LoopAccesses := do
  let before ← a.beforeLoop g loop
  let round ← AccessRange.joinAll (loop.latches.filterMap (a.within g l))
  let n := visits (bound loop.header)
  let exits := loop.exiting.filterMap fun b => (a.within g l b).map fun last =>
    (b, (⟨leave before.min round.min last.min n.min,
          leave before.max round.max last.max n.max⟩ : AccessRange))
  return { before := before, round := round, exits := .ofList exits }

/-- Takes a block into account. -/
def addBlock (g : Graph) (count : AccessCounts) (a : AccessAnalysis) (b : BlockId) :
    AccessAnalysis :=
  match a.upTo g count b with
  | none => a
  | some r => { a with blocks := a.blocks.insert b r }

/-- Takes a loop into account. -/
def addLoop (g : Graph) (bound : LoopBounds) (a : AccessAnalysis) (l : LoopId) :
    AccessAnalysis :=
  match (g.loop? l).bind fun loop => (a.ofLoop g bound l loop).map fun r => (loop.header, r) with
  | none => a
  | some (h, r) => { a with loops := a.loops.insert h r }

/-- One round: all blocks in reverse postorder, then all loops, inner first. -/
def round (g : Graph) (count : AccessCounts) (bound : LoopBounds) (a : AccessAnalysis) :
    AccessAnalysis :=
  g.innerFirst.foldl (addLoop g bound) (g.order.foldl (addBlock g count) a)

/-- Rounds until nothing changes, at most as many as allowed. -/
def settle (step : AccessAnalysis → AccessAnalysis) :
    (rounds : Nat) → AccessAnalysis → Option AccessAnalysis
  | 0, _ => none
  | rounds + 1, a =>
    let next := step a
    if next = a then some next else settle step rounds next

/-- The accesses of a function. -/
def ofGraph (g : Graph) (count : AccessCounts) (bound : LoopBounds) (limit : Int64) :
    Outcome AccessAnalysis :=
  match settle (round g count bound) limit.toInt.toNat {} with
  | some a => .ok a
  | none => reject ((Cause.accessLimit limit).finding.inFunction g.name)

/-- The accesses of a whole execution.  A function that may be called while it is
disabled may perform none at all. -/
def total (a : AccessAnalysis) (g : Graph) (rootLike : Bool) : Outcome AccessRange :=
  match g.end? with
  | none => reject ((Cause.exitBlocks g.ends.length).finding.inFunction g.name)
  | some e =>
    match a.blocks.get? e with
    | none =>
      reject (Cause.noEndCount.finding.inFunction g.name |>.atBlock (g.nameOf e))
    | some r => .ok (if rootLike then r else { r with min := 0 })

end AccessAnalysis
end ConstantTime
