/-
# Control dependence

"Single-Path Constant-Time Transformation Engine", §4.3 and §12.3.

A block depends on the edge from `Y` to `Z` if it post-dominates `Z` but not
`Y`: taking the edge decides that the block is executed.  A block that
post-dominates the entry of its region depends on the entry; a loop header
depends on the entry of its own loop only.

Dependences are checked against the graph before they are handed out.
-/

import ConstantTime.Postdominance.Basic

namespace ConstantTime

/-- For each block, what it depends on. -/
abbrev Dependences := OrderedMap BlockId DependenceSet

namespace Dependences

/-- What a block depends on. -/
def of (d : Dependences) (b : BlockId) : DependenceSet := d.getD b ∅

/-- Records a dependence. -/
def add (d : Dependences) (b : BlockId) (e : Dependence) : Dependences :=
  d.insert b ((d.of b).insert e)

/-- The edges over which control comes to `z` from a node that the block does not
post-dominate.  A loop inside the region is left over its own edges. -/
def overPred (p : Postdominators) (g : Graph) (l : Option LoopId) (b z y : BlockId) :
    Outcome (List Dependence) :=
  match g.regionNode y l with
  | none =>
    reject ((Cause.outsideRegion (g.nameOf y) (g.nameOf z)).finding.inFunction g.name
      |>.atLoop (g.loopName l))
  | some node =>
    if p.postdominatesWithin g l b node then .ok []
    else if g.loopOf node ≠ l then
      let exits := (((g.loopOf node).bind g.loop?).map Loop.exits).getD []
      .ok ((exits.filter fun e => e.target = z).map fun e => ⟨.block e.source, z⟩)
    else .ok [⟨.block node, z⟩]

/-- What a block depends on because it post-dominates `z`. -/
def throughDominee (p : Postdominators) (g : Graph) (l : Option LoopId) (b z : BlockId) :
    Outcome (List Dependence) :=
  if (g.preds z).isEmpty || (l.isSome && g.headerOf l = z) then .ok [⟨.entry, z⟩]
  else do
    let found ← (g.preds z).mapM (overPred p g l b z)
    return found.flatten

/-- What a node of a region depends on. -/
def ofNode (p : Postdominators) (g : Graph) (l : Option LoopId) (b : BlockId) :
    Outcome (List Dependence) :=
  if g.isHeader b then .ok [⟨.entry, b⟩]
  else do
    let found ← (p.dominees g l b).toList.mapM (throughDominee p g l b)
    return found.flatten

/-- Adds what the nodes of one region depend on. -/
def addRegion (p : Postdominators) (g : Graph) (d : Dependences) (r : PostRegion) :
    Outcome Dependences :=
  r.doms.keys.foldlM (fun d b => do
    let found ← ofNode p g r.loop b
    return found.foldl (fun d e => d.add b e) d) d

/-- Is the dependence on an edge of the graph, or on the entry of a region? -/
def isSound (g : Graph) (e : Dependence) : Bool :=
  match e.origin with
  | .block b => g.hasEdge b e.target
  | .entry => g.isHeader e.target || (g.preds e.target).isEmpty

/-- Complains about every dependence that is not sound. -/
def validate (g : Graph) (d : Dependences) : Option Failure :=
  Failure.combine (d.entries.flatMap fun (b, s) =>
    (s.toList.filter fun e => !isSound g e).map fun e =>
      .finding ((Cause.dependsOn (g.nameOf b) e.text).finding.inFunction g.name
        |>.atBlock (g.nameOf b)))

/-- What the blocks of a function depend on. -/
def ofPostdominators (p : Postdominators) (g : Graph) : Outcome Dependences := do
  let d ← p.regions.foldlM (addRegion p g) ∅
  match validate g d with
  | some e => throw e
  | none => return d

end Dependences
end ConstantTime
