/-
# Compensation

"Single-Path Constant-Time Transformation Engine", §4.4 (contract B) and §12.5.

Every path is to account for the accesses it performs by amounts attached to
its edges.  Walking the blocks in reverse postorder, the accesses since the last
amount are carried along and put down

* on a back edge,
* on an edge to a block without successors, with the accesses of that block,
* on an edge to a block where several ways meet.

What is carried into a loop is put off to the edges that leave it; an edge that
leaves several loops takes what was put off at each.

`verify` walks the paths to the ends, taking a back edge at most once on each,
and compares the accesses with the amounts.
-/

import ConstantTime.Access.Analysis

namespace ConstantTime

/-- Amounts on edges; an edge that is not listed has none. -/
abbrev EdgeAmounts := OrderedMap FlowEdge Int64

namespace EdgeAmounts

/-- The amount on an edge. -/
def on (c : EdgeAmounts) (a b : BlockId) : Int64 := c.getD ⟨a, b⟩ 0

/-- The state of the walk. -/
structure Carry where
  /-- What is carried into each block. -/
  incoming : OrderedMap BlockId Int64 := ∅
  /-- What is put off until a loop is left, by loop header. -/
  postponed : OrderedMap BlockId Int64 := ∅
  amounts : EdgeAmounts := ∅
deriving DecidableEq

/-- Puts an amount on an edge, unless it is nothing. -/
def Carry.put (c : Carry) (a b : BlockId) (n : Int64) : Carry :=
  if n = 0 then c else { c with amounts := c.amounts.insert ⟨a, b⟩ n }

/-- The number of edges into a block that are not back edges. -/
def waysIn (g : Graph) (b : BlockId) : Nat :=
  ((g.preds b).filter fun p => !g.isBackEdge p b).length

/-- What was put off at the loops that an edge leaves. -/
def Carry.released (c : Carry) (g : Graph) (a b : BlockId) : Int64 :=
  (g.loopsLeft a b).foldl (fun n l => n + c.postponed.getD (g.headerOf (some l)) 0) 0

/-- Carries `n` along one edge. -/
def Carry.along (g : Graph) (count : AccessCounts) (u : BlockId) (n : Int64) (c : Carry)
    (v : BlockId) : Carry :=
  let carried := n + c.released g u v
  if g.isBackEdge u v then c.put u v carried
  else if (g.succs v).isEmpty then c.put u v (carried + count v)
  else if waysIn g v > 1 then
    let c := c.put u v carried
    { c with incoming := c.incoming.insert v 0 }
  else if g.isHeader v then
    { c with postponed := c.postponed.insert v carried, incoming := c.incoming.insert v 0 }
  else { c with incoming := c.incoming.insert v carried }

/-- Carries on from one block. -/
def Carry.from (g : Graph) (count : AccessCounts) (c : Carry) (u : BlockId) : Carry :=
  let n := c.incoming.getD u 0 + count u
  (g.succs u).foldl (Carry.along g count u n) c

/-- The amounts that make up for the accesses of a function. -/
def compensate (g : Graph) (count : AccessCounts) : EdgeAmounts :=
  (g.order.foldl (Carry.from g count) {}).amounts

/-! ### Checking -/

/-- Whether a complete path (last block first) adds up.  A path of one block has
no edge that could. -/
def addsUp (path : List BlockId) (performed compensated : Int64) : Bool :=
  path.length ≤ 1 || performed = compensated

/-- Walks on from the head of a path until one does not add up or the budget of
complete paths is used up.  The result is the budget left and the path at fault
with its two totals. -/
def walk (c : EdgeAmounts) (g : Graph) (count : AccessCounts) :
    (fuel budget : Nat) → (taken : List FlowEdge) → (performed compensated : Int64) →
      (path : List BlockId) → Nat × Option (List BlockId × Int64 × Int64)
  | 0, budget, _, _, _, _ => (budget, none)
  | _ + 1, 0, _, _, _, _ => (0, none)
  | _ + 1, budget + 1, _, _, _, [] => (budget, none)
  | fuel + 1, budget + 1, taken, performed, compensated, b :: before =>
    if (g.succs b).isEmpty then
      (budget,
        if addsUp (b :: before) performed compensated then none
        else some (b :: before, performed, compensated))
    else
      (g.succs b).foldl (fun acc s =>
        let back := g.isBackEdge b s
        if acc.2.isSome || (back && ⟨b, s⟩ ∈ taken) then acc
        else
          walk c g count fuel acc.1 (if back then ⟨b, s⟩ :: taken else taken)
            (performed + count s) (compensated + c.on b s) (s :: b :: before))
        (budget + 1, none)

/-- The longest path that takes no back edge twice: between two back edges no
block is met twice. -/
def longestPath (g : Graph) : Nat :=
  (g.loops.foldl (fun n l => n + l.latches.length) 0 + 1) * g.size + 1

/-- Checks the paths to the ends. -/
def verify (c : EdgeAmounts) (g : Graph) (count : AccessCounts) (limit : Int64) :
    Outcome Unit :=
  match (walk c g count (longestPath g) limit.toInt.toNat [] (count g.entry) 0 [g.entry]).2 with
  | none => .ok ()
  | some (path, performed, compensated) =>
    reject ((Cause.pathTotals (path.reverse.map g.nameOf) performed compensated).finding
      |>.inFunction g.name |>.atBlock (g.nameOf (path.headD g.entry)))

end EdgeAmounts
end ConstantTime
