/-
# Dominators

"Single-Path Constant-Time Transformation Engine", §12.1.

A block dominates another if every path from the entry to the second passes
the first.  The immediate dominators form a tree with the entry as its root.
They are found by sweeping the blocks in reverse postorder: each block moves to
the nearest common ancestor of its predecessors in the tree so far, until a
sweep changes nothing.

In the tree an ancestor always has the smaller place in the order, so the two
fingers of `meet` only move towards the entry.
-/

import ConstantTime.Graph.Order

namespace ConstantTime

/-- The immediate dominators found so far; the entry is its own. -/
abbrev ImmediateDominators := OrderedMap BlockId BlockId

namespace Dominators

/-- The nearest common ancestor of two blocks: the one that stands later in the
order moves up.  Each step moves one of the two towards the entry. -/
def meet (place : BlockId → Nat) (idom : ImmediateDominators) :
    (fuel : Nat) → BlockId → BlockId → BlockId
  | 0, a, _ => a
  | fuel + 1, a, b =>
    if a = b then a
    else if place a > place b then meet place idom fuel (idom.getD a a) b
    else meet place idom fuel a (idom.getD b b)

/-- The new immediate dominator of a block: the common ancestor of those
predecessors that have been reached. -/
def ofPreds (g : Shape) (place : BlockId → Nat) (idom : ImmediateDominators)
    (b : BlockId) : Option BlockId :=
  match (g.preds b).filter idom.contains with
  | [] => none
  | p :: rest => some (rest.foldl (fun d q => meet place idom (2 * g.size) q d) p)

/-- Updates one block. -/
def update (g : Shape) (place : BlockId → Nat) (idom : ImmediateDominators)
    (b : BlockId) : ImmediateDominators :=
  if b = g.entry then idom
  else
    match ofPreds g place idom b with
    | none => idom
    | some d => idom.insert b d

/-- One sweep over the blocks. -/
def sweep (g : Shape) (order : List BlockId) (place : BlockId → Nat)
    (idom : ImmediateDominators) : ImmediateDominators :=
  order.foldl (update g place) idom

/-- Sweeps until nothing changes. -/
def iterate (g : Shape) (order : List BlockId) (place : BlockId → Nat) :
    (fuel : Nat) → ImmediateDominators → ImmediateDominators
  | 0, idom => idom
  | fuel + 1, idom =>
    let next := sweep g order place idom
    if next = idom then idom else iterate g order place fuel next

/-- The immediate dominators of a graph.  A sweep that changes something moves
a block towards the entry, which can happen once for every pair of blocks. -/
def immediate (g : Shape) (order : List BlockId) : ImmediateDominators :=
  let places := placesOf order
  iterate g order (fun b => places.getD b 0) (g.size * g.size + 1)
    ((∅ : ImmediateDominators).insert g.entry g.entry)

/-- Is `a` met on the way from `b` up to the entry? -/
def isAncestor (idom : ImmediateDominators) (entry : BlockId) :
    (fuel : Nat) → (a b : BlockId) → Bool
  | 0, _, _ => false
  | fuel + 1, a, b =>
    if a = b then true
    else if b = entry then false
    else isAncestor idom entry fuel a (idom.getD b b)

end Dominators
end ConstantTime
