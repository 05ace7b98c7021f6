/-
# Natural loops and how they nest

"Single-Path Constant-Time Transformation Engine", §3 and §12.1.

An edge that does not go forward in reverse postorder must lead to a block that
dominates its source; it is then a back edge, its target the header of a loop
and its source a latch.  The loop is the header with every block that reaches a
latch without passing the header.  A graph with another kind of backward edge
has a loop that can be entered past its header and is refused.

Loops are numbered in ascending order of their headers.  The parent of a loop is
the smallest larger loop around its header.
-/

import ConstantTime.Graph.Dominators
import ConstantTime.Diagnostic.Cause

namespace ConstantTime

/-- The number of a loop. -/
abbrev LoopId := Nat

/-- A natural loop. -/
structure Loop where
  header : BlockId
  /-- The sources of the back edges, ascending. -/
  latches : List BlockId
  /-- The blocks of the loop, those of loops inside it included. -/
  members : BlockSet
  /-- The edges that leave the loop, by source and then in successor order. -/
  exits : List FlowEdge
  parent : Option LoopId := none
  /-- The loops directly inside, ascending. -/
  children : List LoopId := []
  /-- The number of loops around the header, this one included. -/
  depth : Nat := 1
deriving DecidableEq, Inhabited

namespace Loop

/-- Is the block in the loop? -/
def contains (l : Loop) (b : BlockId) : Bool := b ∈ l.members

/-- Is the block the source of a back edge? -/
def isLatch (l : Loop) (b : BlockId) : Bool := b ∈ l.latches

/-- The blocks with a successor outside, ascending. -/
def exiting (l : Loop) : List BlockId :=
  l.members.toList.filter (fun b => l.exits.any (fun e => e.source = b))

/-- Has the block a successor outside? -/
def isExiting (l : Loop) (b : BlockId) : Bool := b ∈ l.exiting

/-- The blocks: the header, then the others ascending. -/
def blocks (l : Loop) : List BlockId := l.header :: (l.members.erase l.header).toList

end Loop

namespace Loops

/-- The edges that do not go forward in the order, by the place of the source. -/
def retreating (g : Shape) (order : List BlockId) : List FlowEdge :=
  let places := placesOf order
  order.flatMap fun u =>
    ((g.succs u).filter fun v => places.getD v 0 ≤ places.getD u 0).map fun v => ⟨u, v⟩

/-- The headers of the loops, ascending. -/
def headers (backEdges : List FlowEdge) : BlockSet :=
  .ofList (backEdges.map FlowEdge.target)

/-- The sources of the back edges to a header, ascending. -/
def latchesOf (backEdges : List FlowEdge) (h : BlockId) : List BlockId :=
  BlockId.sort ((backEdges.filter (fun e => e.target = h)).map FlowEdge.source)

/-- The edges from a set of blocks to blocks outside it. -/
def exitsOf (g : Shape) (members : BlockSet) : List FlowEdge :=
  members.toList.flatMap fun b =>
    ((g.succs b).filter fun s => s ∉ members).map fun s => ⟨b, s⟩

/-- The loop of a header, not yet placed among the others. -/
def natural (g : Shape) (backEdges : List FlowEdge) (h : BlockId) : Loop :=
  let latches := latchesOf backEdges h
  let members := closure g g.preds latches (OrderedSet.singleton h)
  { header := h, latches := latches, members := members, exits := exitsOf g members }

/-- The smaller of the candidates met so far and the next; the first of equals. -/
def smaller (loops : List Loop) (best : Option LoopId) (j : LoopId) : Option LoopId :=
  let sizeOf (i : LoopId) : Nat := (loops[i]?.map (fun l => l.members.size)).getD 0
  match best with
  | none => some j
  | some b => if sizeOf j < sizeOf b then some j else some b

/-- Is `o` a larger loop around the header of `l`? -/
def surrounds (o l : Loop) : Bool :=
  o.contains l.header && l.members.size < o.members.size

/-- The smallest loop that surrounds another. -/
def parentOf (loops : List Loop) (i : LoopId) (l : Loop) : Option LoopId :=
  ((List.range loops.length).filter fun j =>
    j ≠ i && (loops[j]?.map (fun o => surrounds o l)).getD false).foldl (smaller loops) none

/-- The number of loops from one to the outermost along the parents. -/
def depthOf (parents : List (Option LoopId)) : (fuel : Nat) → LoopId → Nat
  | 0, _ => 1
  | fuel + 1, i =>
    match parents[i]?.join with
    | none => 1
    | some p => depthOf parents fuel p + 1

/-- Places loops among each other. -/
def nest (loops : List Loop) : List Loop :=
  let parents := loops.zipIdx.map fun (l, i) => parentOf loops i l
  loops.zipIdx.map fun (l, i) =>
    { l with
      parent := parents[i]?.join
      children := (List.range loops.length).filter fun j => parents[j]?.join = some i
      depth := depthOf parents loops.length i }

/-- The innermost loop around a block: the first of the deepest. -/
def innermost (loops : List Loop) (b : BlockId) : Option LoopId :=
  (loops.zipIdx.foldl (fun best (l, i) =>
    if l.contains b then
      match best with
      | none => some (i, l.depth)
      | some (j, d) => if d < l.depth then some (i, l.depth) else some (j, d)
    else best) none).map Prod.fst

/-- The loops of a graph, or the edge that enters one past its header. -/
def ofShape (g : Shape) (order : List BlockId) (idom : ImmediateDominators) :
    Outcome (List Loop) :=
  let edges := retreating g order
  match edges.find? (fun e => !Dominators.isAncestor idom g.entry (g.size + 1) e.target e.source) with
  | some e =>
    reject ((Cause.entersLoop (g.nameOf e.source) (g.nameOf e.target)).finding
      |>.inFunction g.name |>.atBlock (g.nameOf e.target))
  | none => .ok (nest ((headers edges).toList.map (natural g edges)))

end Loops
end ConstantTime
