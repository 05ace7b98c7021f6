/-
# Bounded dominators

"Single-Path Constant-Time Transformation Engine", §4.1 and §12.2.

`bounded` answers which blocks are executed *at least once* on the way to an
end, if every loop with a constant bound that is left has gone round.  The ends
of a region are its blocks without successors and the ways out of it.

A region is explored breadth first; a loop met inside it is analysed on its own
and counts, if its bound is constant, with everything that all its ways out
share.  The sets then shrink from "everything" to a fixed point.  A loop that
cannot be left makes the whole answer empty.
-/

import ConstantTime.Dominance.Table

namespace ConstantTime
namespace Bounded

/-- Is the block the header of a loop inside the region? -/
def isInner (g : Graph) (start b : BlockId) : Bool := b ≠ start && g.isHeader b

/-- The targets of the edges that leave the loop of a header. -/
def exitTargets (g : Graph) (h : BlockId) : List BlockId :=
  match (g.headedBy h).bind g.loop? with
  | some loop => loop.exits.map FlowEdge.target
  | none => []

/-- Is the target on the level of the region, or one below? -/
def staysNear (g : Graph) (start t : BlockId) : Bool :=
  g.depth t = g.depth start || g.depth t = g.depth start + 1

/-- Does an edge leave the innermost loop around its source? -/
def leavesLoop (g : Graph) (b s : BlockId) : Bool :=
  (g.loopOf b).isSome && !g.contains (g.loopOf b) s

/-- Where the exploration goes from a block. -/
def explored (g : Graph) (start b : BlockId) : List BlockId :=
  if isInner g start b then (exitTargets g b).filter (staysNear g start)
  else
    (g.succs b).filter fun s =>
      !leavesLoop g b s && !((g.loopOf b).isSome && g.headerOf (g.loopOf b) = s)

/-- The ends of the region that a block accounts for. -/
def endsAt (g : Graph) (start b : BlockId) : List BlockId :=
  if (g.succs b).isEmpty then [b]
  else if isInner g start b then (exitTargets g b).filter fun t => !staysNear g start t
  else if (g.succs b).any (leavesLoop g b) then [b]
  else []

/-- The blocks of the region, breadth first. -/
def region (g : Graph) (start : BlockId) : List BlockId :=
  breadthFirst g.toShape (explored g start) start

/-- The loop that stands for a predecessor in a loop that was left: on the way
up, the first whose parent is the loop of the block, or that is as deep. -/
def leftLoop (g : Graph) (b : BlockId) : (fuel : Nat) → Option LoopId → Option LoopId
  | 0, l => l
  | fuel + 1, l =>
    if l.isSome && g.parent l ≠ g.loopOf b && g.loopDepth l ≠ g.depth b then
      leftLoop g b fuel (g.parent l)
    else l

/-- Does control come from a loop that does not hold the block? -/
def comesFromLoop (g : Graph) (p b : BlockId) : Bool :=
  g.depth b < g.depth p || (g.depth p = g.depth b && g.loopOf p ≠ g.loopOf b)

/-- What is known when control arrives over one predecessor, given what was
known over those before it. -/
def arrive (g : Graph) (constant : ConstantBounds) (inner : DominatorTable) (start : BlockId)
    (doms : DominatorTable) (b : BlockId) (shared : BlockSet) (p : BlockId) : BlockSet :=
  let left :=
    if g.depth b < g.depth p ||
        (g.depth p = g.depth b && g.loopOf p ≠ g.loopOf b && b ≠ start) then
      leftLoop g b (g.loops.length + 1) (g.loopOf p)
    else none
  let p := if left.isSome then g.headerOf left else p
  let bonus := if left.isSome && constant p then inner.of p else ∅
  let next := (shared.union bonus).inter (bonus.union (doms.of p))
  -- how often a loop without a constant bound runs is not known
  if comesFromLoop g p b && g.isHeader p && !constant p then next.erase p else next

/-- The predecessors of a block that are not its own latches. -/
def outerPreds (g : Graph) (b : BlockId) : List BlockId :=
  (g.preds b).filter fun p => !(g.isHeader b && g.contains (g.loopOf b) p)

/-- The new set of a block, from its predecessors. -/
def refine (g : Graph) (constant : ConstantBounds) (inner : DominatorTable) (start : BlockId)
    (doms : DominatorTable) (b : BlockId) : BlockSet :=
  ((outerPreds g b).foldl (arrive g constant inner start doms b) (doms.of b)).insert b

/-- One sweep over the blocks, in ascending order and in place. -/
def sweep (g : Graph) (constant : ConstantBounds) (inner : DominatorTable) (start : BlockId)
    (blocks : List BlockId) (doms : DominatorTable) : DominatorTable :=
  blocks.foldl (fun doms b => doms.insert b (refine g constant inner start doms b)) doms

/-- Sweeps until nothing changes, at most as often as allowed. -/
def settle (step : DominatorTable → DominatorTable) :
    (sweeps : Nat) → DominatorTable → Option DominatorTable
  | 0, _ => none
  | sweeps + 1, doms =>
    let next := step doms
    if next = doms then some next else settle step sweeps next

/-- The sets to start from: everything there is, but for the start only itself. -/
def candidates (blocks : BlockSet) (inner : DominatorTable) (start : BlockId) :
    DominatorTable :=
  let all := inner.values.foldl OrderedSet.union blocks
  (OrderedMap.ofList (blocks.toList.map fun b => (b, all))).insert start (.singleton start)

/-- Takes one more latch into account: `none` before the first. -/
def addLatch (g : Graph) (constant : ConstantBounds) (inner doms : DominatorTable)
    (start : BlockId) (acc : Option BlockSet) (latch : BlockId) : Option BlockSet :=
  let nested := g.depth start < g.depth latch
  let latch :=
    if nested then g.headerOf (g.ancestorAt (g.loopOf latch) (g.depth start + 1)) else latch
  let bonus := if nested && constant latch then inner.of latch else ∅
  let through :=
    match acc with
    | none => doms.of latch
    | some shared => (shared.union bonus).inter (doms.of latch)
  let next := bonus.union through
  some (if nested && !constant latch then next.erase latch else next)

/-- The blocks that every way round the loop of the start passes. -/
def latchDominators (g : Graph) (constant : ConstantBounds) (inner doms : DominatorTable)
    (start : BlockId) : BlockSet :=
  match (g.loopOf start).bind g.loop? with
  | none => ∅
  | some loop => (loop.latches.foldl (addLatch g constant inner doms start) none).getD ∅

/-- What all ends of an analysed loop share. -/
def sharedByAll (m : DominatorTable) : BlockSet := OrderedSet.interAll m.values

/-- Analyses the inner loops in turn; no table if one of them cannot be left. -/
def innerTable (analyse : BlockId → Outcome DominatorTable) (headers : List BlockId) :
    Outcome (Option DominatorTable) :=
  headers.foldlM (fun table h =>
    match table with
    | none => .ok none
    | some table => do
      let result ← analyse h
      return if result.isEmpty then none else some (table.insert h (sharedByAll result)))
    (some ∅)

/-- The dominators of the ends, once the inner loops are known. -/
def ofRegion (g : Graph) (constant : ConstantBounds) (limit : Int64) (start : BlockId)
    (inner : DominatorTable) : Outcome DominatorTable :=
  let explored := region g start
  let blocks := OrderedSet.ofList explored
  match settle (sweep g constant inner start blocks.toList) limit.toInt.toNat
      (candidates blocks inner start) with
  | none =>
    reject ((Cause.boundedLimit limit).finding.inFunction g.name |>.atBlock (g.nameOf start))
  | some doms =>
    let latch := latchDominators g constant inner doms start
    let ends := OrderedSet.ofList (explored.flatMap (endsAt g start))
    .ok (.ofList (ends.toList.map fun e => (e, (doms.of e).union latch)))

/-- The bounded dominators of the ends of a region.  A loop inside a region lies
deeper or later, so the recursion is no deeper than there are loops. -/
def run (g : Graph) (constant : ConstantBounds) (limit : Int64) :
    (fuel : Nat) → (start : BlockId) → Outcome DominatorTable
  | 0, _ => .ok ∅
  | fuel + 1, start => do
    match ← innerTable (run g constant limit fuel)
        ((region g start).filter (isInner g start)) with
    | none => return ∅
    | some inner => ofRegion g constant limit start inner

end Bounded

/-- The bounded dominators of the ends that a root leads to.  No entries: some
loop cannot be left. -/
def Graph.boundedDominators (g : Graph) (constant : ConstantBounds) (limit : Int64)
    (root : BlockId) : Outcome DominatorTable :=
  Bounded.run g constant limit (g.loops.length + 1) root

end ConstantTime
