/-
# Control-flow graphs

"Single-Path Constant-Time Transformation Engine", §12.1.

A `Graph` is a shape that has been found sound, together with what every
analysis asks of it: the reverse postorder, the immediate dominators and the
loops.  It is made by `Builder.build` and never changes.

A loop is given by its number; where a question may be about the whole
function, the loop is an `Option` and `none` stands for the function.
-/

import ConstantTime.Graph.Loop

namespace ConstantTime

/-- A control-flow graph with its order, dominators and loops. -/
structure Graph extends Shape where
  /-- The blocks in reverse postorder. -/
  order : List BlockId
  /-- The immediate dominator of each block; the entry's is itself. -/
  idom : ImmediateDominators
  /-- The loops, ascending by header. -/
  loops : List Loop
  /-- The innermost loop around each block that is in one. -/
  innermost : OrderedMap BlockId LoopId
deriving DecidableEq

namespace Graph

/-- The loop with a number. -/
def loop? (g : Graph) (l : LoopId) : Option Loop := g.loops[l]?

/-- The innermost loop around a block. -/
def loopOf (g : Graph) (b : BlockId) : Option LoopId := g.innermost.get? b

/-- The number of loops around the blocks of a loop; none around the function. -/
def loopDepth (g : Graph) (l : Option LoopId) : Nat :=
  match l.bind g.loop? with
  | some l => l.depth
  | none => 0

/-- The number of loops around a block. -/
def depth (g : Graph) (b : BlockId) : Nat := g.loopDepth (g.loopOf b)

/-- The loop directly around another. -/
def parent (g : Graph) (l : Option LoopId) : Option LoopId :=
  (l.bind g.loop?).bind Loop.parent

/-- The loop with a header. -/
def headedBy (g : Graph) (b : BlockId) : Option LoopId :=
  g.loops.findIdx? (fun l => l.header = b)

/-- Is the block the header of a loop? -/
def isHeader (g : Graph) (b : BlockId) : Bool := (g.headedBy b).isSome

/-- The header of a loop, or the entry of the function. -/
def headerOf (g : Graph) (l : Option LoopId) : BlockId :=
  match l.bind g.loop? with
  | some l => l.header
  | none => g.entry

/-- Is the block in the loop?  Every block is in the function. -/
def contains (g : Graph) (l : Option LoopId) (b : BlockId) : Bool :=
  match l with
  | none => true
  | some l => (g.loop? l).any (fun l => l.contains b)

/-- Is the edge a back edge? -/
def isBackEdge (g : Graph) (a b : BlockId) : Bool :=
  ((g.headedBy b).bind g.loop?).any (fun l => l.isLatch a)

/-- Is the block a latch of the loop? -/
def isLatchOf (g : Graph) (l : Option LoopId) (b : BlockId) : Bool :=
  (l.bind g.loop?).any (fun l => l.isLatch b)

/-- Does the first block dominate the second? -/
def dominates (g : Graph) (a b : BlockId) : Bool :=
  Dominators.isAncestor g.idom g.entry (g.size + 1) a b

/-- The immediate dominator of a block. -/
def immediateDominator (g : Graph) (b : BlockId) : BlockId := g.idom.getD b b

/-- The loops that are in no other. -/
def topLoops (g : Graph) : List LoopId :=
  (List.range g.loops.length).filter fun i => (g.loop? i).any (fun l => l.parent.isNone)

/-- A loop after the loops inside it.  Children are deeper, so the depth of the
walk does not exceed the number of loops. -/
def loopsBelow (g : Graph) : (fuel : Nat) → LoopId → List LoopId
  | 0, l => [l]
  | fuel + 1, l => (((g.loop? l).map Loop.children).getD []).flatMap (g.loopsBelow fuel) ++ [l]

/-- All loops, inner ones first. -/
def innerFirst (g : Graph) : List LoopId :=
  g.topLoops.flatMap (g.loopsBelow g.loops.length)

/-- The first loop on the way up that is no deeper than asked. -/
def climb (g : Graph) (depth : Int) : (fuel : Nat) → LoopId → Option LoopId
  | 0, _ => none
  | fuel + 1, l =>
    match g.loop? l with
    | none => none
    | some loop =>
      if depth < loop.depth then loop.parent.bind (g.climb depth fuel) else some l

/-- The loop of a depth around a loop, itself included. -/
def ancestorAt (g : Graph) (l : Option LoopId) (depth : Int) : Option LoopId :=
  (l.bind (g.climb depth (g.loops.length + 1))).filter fun a =>
    (g.loop? a).any (fun loop => (loop.depth : Int) = depth)

/-- The loop directly inside `l` that holds the block. -/
def outermostInner (g : Graph) (l : Option LoopId) (b : BlockId) : Option LoopId :=
  match g.loopOf b with
  | none => none
  | some inner =>
    if some inner = l then none
    else (g.ancestorAt (some inner) (g.loopDepth l + 1)).filter fun a => g.parent (some a) = l

/-- A loop and the loops around it, innermost first. -/
def withAncestors (g : Graph) : (fuel : Nat) → Option LoopId → List LoopId
  | 0, _ => []
  | _ + 1, none => []
  | fuel + 1, some l => l :: g.withAncestors fuel (g.parent (some l))

/-- The loops around a block, innermost first. -/
def loopsAround (g : Graph) (b : BlockId) : List LoopId :=
  g.withAncestors (g.loops.length + 1) (g.loopOf b)

/-- The loops that an edge leaves, innermost first. -/
def loopsLeft (g : Graph) (a b : BlockId) : List LoopId :=
  (g.loopsAround a).filter fun l => !g.contains (some l) b

/-- The name of a loop: that of its header, or of the function. -/
def loopName (g : Graph) (l : Option LoopId) : String :=
  match l.bind g.loop? with
  | some loop => g.nameOf loop.header
  | none => g.name

/-- Loops in ascending order of their headers. -/
def sortLoops (g : Graph) (ls : List LoopId) : List LoopId :=
  ls.mergeSort (fun a b => g.headerOf (some a) ≤ g.headerOf (some b))

/-- The graph of a shape whose blocks the entry all reaches. -/
def ofShape (s : Shape) (order : List BlockId) : Outcome Graph := do
  let idom := Dominators.immediate s order
  let loops ← Loops.ofShape s order idom
  let inner := s.ids.filterMap fun b => (Loops.innermost loops b).map (b, ·)
  return { s with order := order, idom := idom, loops := loops, innermost := .ofList inner }

end Graph
end ConstantTime
