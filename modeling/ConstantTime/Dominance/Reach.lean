/-
# Reachability inside a region

"Single-Path Constant-Time Transformation Engine", §4.2 and §12.2.

Seen from a start block a graph has no cycle, so every block is finished after
all it reaches.  Taking the blocks in that order, the row of a block is itself
with the rows of its successors, all of which are known.
-/

import ConstantTime.Dominance.Table

namespace ConstantTime

/-- For each block of a region, the blocks it reaches, itself included. -/
structure Reachability where
  rows : DominatorTable
deriving DecidableEq

namespace Reachability

/-- The row of a block, from the rows of its successors. -/
def row (next : BlockId → List BlockId) (rows : DominatorTable) (b : BlockId) : BlockSet :=
  (next b).foldl (fun r s => r.union (rows.of s)) (.singleton b)

/-- The blocks of a region, each after all it reaches. -/
def postorder (g : Graph) (start : BlockId) : List BlockId :=
  (visit (g.regionSuccs · start) (g.size + 1) {} start).finished.reverse

/-- Reachability in the region of a start block. -/
def ofStart (g : Graph) (start : BlockId) : Reachability :=
  ⟨(postorder g start).foldl
    (fun rows b => rows.insert b (row (g.regionSuccs · start) rows b)) ∅⟩

/-- Does the first block reach the second? -/
def reaches (r : Reachability) (a b : BlockId) : Bool := b ∈ r.rows.of a

/-- Does `d` lie on a path from `a` to `b`, at neither end? -/
def between (r : Reachability) (a d b : BlockId) : Bool :=
  d ≠ a && d ≠ b && r.reaches a d && r.reaches d b

end Reachability
end ConstantTime
