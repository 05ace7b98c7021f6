/-
# Checking a table of dominators

"Single-Path Constant-Time Transformation Engine", §8 and §12.2.

Two checks that do not trust the analyses.  `verifyReach` asks that the root is
among the dominators of every listed block and that each dominator reaches the
block in the graph.  `verifyPaths` walks the paths from the root and asks that
each dominator of a block outside all loops is on the path; it takes a back edge
at most once on a path and leaves a loop of constant bound only after it has gone
round.  It stops quietly when its budget of visited blocks is used up.
-/

import ConstantTime.Dominance.Table

namespace ConstantTime

/-- The blocks that a block reaches by at least one edge. -/
def Shape.reachedFrom (g : Shape) (b : BlockId) : BlockSet := closure g g.succs (g.succs b)

namespace DominatorTable

/-- Is the root among the dominators, and does each dominator reach the block? -/
def verifyBlock (g : Graph) (root b : BlockId) (doms : BlockSet) : Outcome Unit :=
  let place (f : Finding) : Finding := f.inFunction g.name |>.atBlock (g.nameOf b)
  if root ∉ doms then
    reject (place (Cause.rootDoesNotDominate (g.nameOf root) (g.nameOf b)).finding)
  else
    match doms.toList.find? fun d => d ≠ b && b ∉ g.reachedFrom d with
    | some d => reject (place (Cause.cannotReach (g.nameOf d) (g.nameOf b)).finding)
    | none => .ok ()

/-- Checks every block of a table. -/
def verifyReach (m : DominatorTable) (g : Graph) (root : BlockId) : Outcome Unit :=
  m.entries.forM fun (b, doms) => verifyBlock g root b doms

/-- May the edge be taken?  The loops of constant bound that it leaves must have
gone round. -/
def mayLeave (g : Graph) (constant : ConstantBounds) (taken : List FlowEdge)
    (a b : BlockId) : Bool :=
  (g.loopsLeft a b).all fun l =>
    let h := g.headerOf (some l)
    !constant h || taken.any (fun e => e.target = h)

/-- The dominator that is missing when the walk arrives at the head of a path
(written last block first). -/
def missing (m : DominatorTable) (g : Graph) (path : List BlockId) : Option BlockId :=
  match path with
  | [] => none
  | b :: _ => if g.depth b = 0 then (m.of b).toList.find? (· ∉ path) else none

/-- Walks on from the head of a path, along edges not yet ruled out, until a
dominator is missing or the budget is used up.  The result is the budget left and
the path at fault with the block that it misses. -/
def walk (m : DominatorTable) (g : Graph) (constant : ConstantBounds) :
    (fuel budget : Nat) → (taken : List FlowEdge) → (path : List BlockId) →
      Nat × Option (List BlockId × BlockId)
  | 0, budget, _, _ => (budget, none)
  | _ + 1, 0, _, _ => (0, none)
  | _ + 1, budget + 1, _, [] => (budget, none)
  | fuel + 1, budget + 1, taken, b :: before =>
    match missing m g (b :: before) with
    | some d => (budget, some (b :: before, d))
    | none =>
      (g.succs b).foldl (fun acc s =>
        let back := g.isBackEdge b s
        if acc.2.isSome || !mayLeave g constant taken b s || (back && ⟨b, s⟩ ∈ taken) then acc
        else
          walk m g constant fuel acc.1 (if back then ⟨b, s⟩ :: taken else taken)
            (s :: b :: before)) (budget, none)

/-- Checks the paths from a root. -/
def verifyPaths (m : DominatorTable) (g : Graph) (constant : ConstantBounds) (limit : Int64)
    (root : BlockId) : Outcome Unit :=
  let budget := limit.toInt.toNat
  match (walk m g constant budget budget [] [root]).2 with
  | none => .ok ()
  | some (path, d) =>
    let names := path.reverse.map g.nameOf
    reject ((Cause.notOnPath (g.nameOf d) names).finding.inFunction g.name
      |>.atBlock (g.nameOf (path.headD root)))

end DominatorTable
end ConstantTime
