/-
# Regions: a graph seen from one loop

"Single-Path Constant-Time Transformation Engine", §2 and §12.1.

Seen from a start block (the entry or a loop header), every loop inside the
region is drawn together to its header, whose successors are then where the
loop is left to, and back edges are dropped.  What remains has no cycle.
-/

import ConstantTime.Graph.Basic

namespace ConstantTime
namespace Graph

/-- Where a block leads before the region is taken into account: the header of
an inner loop leads to where that loop is left to, on the level of the start or
one below. -/
def regionCandidates (g : Graph) (start current : BlockId) : List BlockId :=
  let level := g.depth start
  match (if current = start then none else g.headedBy current).bind g.loop? with
  | some loop =>
    (loop.exits.map FlowEdge.target).filter fun t =>
      g.depth t = level || g.depth t = level + 1
  | none => g.succs current

/-- Does the block lie in the region of the start, and is not the start? -/
def inRegionOf (g : Graph) (start b : BlockId) : Bool :=
  b ≠ start && g.depth start ≤ g.depth b &&
    !(g.depth b = g.depth start && g.loopOf b ≠ g.loopOf start)

/-- The successors of a block as seen from a start, ascending. -/
def regionSuccs (g : Graph) (current start : BlockId) : List BlockId :=
  (OrderedSet.ofList ((g.regionCandidates start current).filter (g.inRegionOf start))).toList

/-- The node that stands for a block in the region of a loop: the block itself,
or the header of the loop directly inside that holds it. -/
def regionNode (g : Graph) (b : BlockId) (l : Option LoopId) : Option BlockId :=
  if g.loopOf b = l then some b
  else if !g.contains l b then none
  else (g.outermostInner l b).map fun inner => g.headerOf (some inner)

/-- The header of the loop of a depth around a block; a block that is no deeper
stands for itself. -/
def headerAt (g : Graph) (b : BlockId) (depth : Int) : BlockId :=
  if (g.depth b : Int) ≤ depth then b
  else
    match g.ancestorAt (g.loopOf b) depth with
    | some l => g.headerOf (some l)
    | none => b

end Graph
end ConstantTime
