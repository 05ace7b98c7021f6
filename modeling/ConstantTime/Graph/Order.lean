/-
# Reverse postorder

"Single-Path Constant-Time Transformation Engine", §12.1.

A depth-first search from the entry, along the successors in their order,
finishes a block after everything it reaches.  Listing the blocks by the time
they are finished, last first, gives the reverse postorder: an edge that goes
backward in it closes a cycle.
-/

import ConstantTime.Graph.Shape

namespace ConstantTime

/-- The state of the search: blocks seen, and blocks finished, last first. -/
structure Visit where
  seen : BlockSet := ∅
  finished : List BlockId := []
deriving DecidableEq, Inhabited

/-- Visits a block and what `next` reaches from it.  Every call below marks
another block, so the depth does not exceed the number of blocks. -/
def visit (next : BlockId → List BlockId) : (depth : Nat) → Visit → BlockId → Visit
  | 0, v, _ => v
  | depth + 1, v, b =>
    if b ∈ v.seen then v
    else
      let below := (next b).foldl (visit next depth) { v with seen := v.seen.insert b }
      { below with finished := b :: below.finished }

/-- The blocks that the entry reaches, in reverse postorder. -/
def Shape.reversePostorder (g : Shape) : List BlockId :=
  (visit g.succs g.size {} g.entry).finished

/-- The place of each block in an order. -/
def placesOf (order : List BlockId) : OrderedMap BlockId Nat :=
  .ofList order.zipIdx

/-- Adds to a list the blocks that are not in it. -/
def enqueue (queue : List BlockId) (b : BlockId) : List BlockId :=
  if b ∈ queue then queue else queue ++ [b]

/-- Extends a breadth-first list: the block at each place appends what it leads
to and is not listed yet.  Each place is treated once. -/
def breadthFirstFrom (next : BlockId → List BlockId) :
    (fuel place : Nat) → (queue : List BlockId) → List BlockId
  | 0, _, queue => queue
  | fuel + 1, place, queue =>
    match queue[place]? with
    | none => queue
    | some b => breadthFirstFrom next fuel (place + 1) ((next b).foldl enqueue queue)

/-- What `next` reaches from a block, breadth first. -/
def breadthFirst (g : Shape) (next : BlockId → List BlockId) (start : BlockId) :
    List BlockId :=
  breadthFirstFrom next (g.size + 1) 0 [start]

end ConstantTime
