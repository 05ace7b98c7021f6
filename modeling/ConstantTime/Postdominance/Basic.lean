/-
# Post-dominators, region by region

"Single-Path Constant-Time Transformation Engine", §12.3.

Within a region (the function or one loop) a node post-dominates another if
every way from the second to the end of the region passes the first.  The
function ends at its only block without successors; a loop ends where it goes
round or is left.  Loops inside a region are one node, their header.

A node is settled once all its successors are, starting from the ends.  In a
region that cannot be left from everywhere some node waits for ever, and the
number of waits is limited.
-/

import ConstantTime.Dominance.Table

namespace ConstantTime
namespace Graph

/-- The loops directly inside a region. -/
def innerLoops (g : Graph) : Option LoopId → List LoopId
  | none => g.topLoops
  | some l => ((g.loop? l).map Loop.children).getD []

/-- A region and the regions inside it, outer ones first.  Loops inside are
deeper, so the walk is no deeper than there are loops. -/
def regionsFrom (g : Graph) : (fuel : Nat) → Option LoopId → List (Option LoopId)
  | 0, l => [l]
  | fuel + 1, l => l :: (g.innerLoops l).flatMap fun c => g.regionsFrom fuel (some c)

/-- A region and the regions inside it, outer ones first. -/
def regionsWithin (g : Graph) (l : Option LoopId) : List (Option LoopId) :=
  g.regionsFrom (g.loops.length + 1) l

end Graph

/-- A region with the post-dominators of its nodes. -/
structure PostRegion where
  loop : Option LoopId
  doms : DominatorTable
deriving DecidableEq

/-- The post-dominators of a function: all regions, outer ones first. -/
structure Postdominators where
  regions : List PostRegion
deriving DecidableEq

namespace Postdominators

/-- The successors of a node in a region, ascending.  A loop inside leads to
where it is left to. -/
def successors (g : Graph) (l : Option LoopId) (b : BlockId) : List BlockId :=
  let inner :=
    if l.isSome && g.headerOf l = b then none else (g.headedBy b).bind g.loop?
  match inner with
  | some loop =>
    (OrderedSet.ofList ((loop.exits.map FlowEdge.target).filter (g.contains l))).toList
  | none => (OrderedSet.ofList ((g.succs b).filterMap fun s => g.regionNode s l)).toList

/-- The nodes at which a region ends: the end of the function, or the nodes from
which a loop goes round or is left. -/
def roots (g : Graph) (e : BlockId) : Option LoopId → List BlockId
  | none => [e]
  | some l =>
    match g.loop? l with
    | none => []
    | some loop =>
      (OrderedSet.ofList ((loop.exits.map FlowEdge.source ++ loop.latches).filterMap
        fun b => g.regionNode b (some l))).toList

/-- The nodes with an edge to a block. -/
def nodesBefore (g : Graph) (l : Option LoopId) (b : BlockId) : List BlockId :=
  (g.preds b).filterMap fun p => g.regionNode p l

/-- Settles the nodes of a queue.  A node whose successors are not all settled
goes back to the end; `waits` is how often that may still happen.  Every other
step takes a node off the queue for good. -/
def settle (g : Graph) (l : Option LoopId) :
    (fuel waits : Nat) → (queue : List BlockId) → DominatorTable → Option DominatorTable
  | _, _, [], doms => some doms
  | 0, _, _ :: _, _ => none
  | fuel + 1, waits, b :: queue, doms =>
    if doms.contains b then settle g l fuel waits queue doms
    else
      let succs := successors g l b
      if succs.all doms.contains then
        let shared := OrderedSet.interAll (succs.map doms.of)
        settle g l fuel waits (queue ++ nodesBefore g l b) (doms.insert b (shared.insert b))
      else
        match waits with
        | 0 => none
        | waits + 1 => settle g l fuel waits (queue ++ [b]) doms

/-- How often nodes of a region may wait. -/
def waitLimit (g : Graph) (limit : Int64) : Int64 := limit * Int64.ofNat (g.size + 1)

/-- The post-dominators in one region. -/
def ofRegion (g : Graph) (limit : Int64) (e : BlockId) (l : Option LoopId) :
    Outcome PostRegion :=
  let ends := roots g e l
  let waits := (waitLimit g limit).toInt.toNat
  let edges := g.ids.foldl (fun n b => n + (g.preds b).length) 0
  match settle g l (waits + edges) waits (ends.flatMap (nodesBefore g l))
      (.ofList (ends.map fun r => (r, .singleton r))) with
  | some doms => .ok ⟨l, doms⟩
  | none =>
    reject ((Cause.postdominatorLimit (waitLimit g limit)).finding.inFunction g.name
      |>.atLoop (g.loopName l))

/-- The post-dominators of a function with one end. -/
def ofGraph (g : Graph) (limit : Int64) : Outcome Postdominators :=
  match g.end? with
  | none => reject ((Cause.exitBlocks g.ends.length).finding.inFunction g.name)
  | some e => do
    let regions ← (g.regionsWithin none).mapM (ofRegion g limit e)
    return ⟨regions⟩

/-- The post-dominators in the region of a loop. -/
def region (p : Postdominators) (l : Option LoopId) : DominatorTable :=
  match p.regions.find? fun r => r.loop = l with
  | some r => r.doms
  | none => ∅

/-- Does `a` post-dominate `b` in a region or one inside it? -/
def postdominatesWithin (p : Postdominators) (g : Graph) (l : Option LoopId)
    (a b : BlockId) : Bool :=
  (g.regionsWithin l).any fun r => (p.region r).dominates a b

/-- Does `a` post-dominate `b` in some region? -/
def postdominates (p : Postdominators) (a b : BlockId) : Bool :=
  p.regions.any fun r => r.doms.dominates a b

/-- The blocks that `a` post-dominates in a region or one inside it. -/
def dominees (p : Postdominators) (g : Graph) (l : Option LoopId) (a : BlockId) : BlockSet :=
  .ofList ((g.regionsWithin l).flatMap fun r =>
    ((p.region r).entries.filter fun e => a ∈ e.2).map Prod.fst)

/-- All regions, indented by how deep they are. -/
def text (p : Postdominators) (g : Graph) : String :=
  String.join (p.regions.map fun r =>
    let indent := String.join (List.replicate (g.loopDepth r.loop) "  ")
    let rows := r.doms.entries.map fun (b, s) =>
      let names := String.intercalate ", " (s.toList.map g.nameOf)
      indent ++ "  " ++ g.nameOf b ++ ": \x7b" ++ names ++ "\x7d\n"
    indent ++ g.loopName r.loop ++ ":\n" ++ String.join rows)

end Postdominators
end ConstantTime
