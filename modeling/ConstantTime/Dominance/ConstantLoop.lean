/-
# Constant-loop dominators

"Single-Path Constant-Time Transformation Engine", §4.2 and §12.2.

`constantLoopDominators` answers which blocks are executed a *fixed number of
times* on the way to a block.  A set of dominators therefore carries with each
block how often it is visited, as a formula (`Visits`).  Formulas are only
compared: where two ways meet that disagree on a block, the block is dropped.

A loop with a constant bound that has been left contributes the blocks that
every full round visits a fixed number of times and that the last, partial
round either passes on every way to the exit taken or cannot pass at all.

Regions are analysed from the inside out (`regions`); the analysis of a region
looks up the loops inside it.
-/

import ConstantTime.Dominance.Reach

namespace ConstantTime

/-- How often a block is visited in one execution of a region. -/
inductive Visits where
  /-- Once. -/
  | once
  /-- Not at all. -/
  | never
  /-- In a loop that has been left: per full round, and in the last round. -/
  | looped (header : BlockId) (round last : Visits)
  /-- In every round of a loop, seen from inside it. -/
  | eachRound (header : BlockId) (round : Visits)
deriving DecidableEq, Repr, Inhabited

/-- Blocks with the number of their visits. -/
abbrev Tally := OrderedMap BlockId Visits

namespace Tally

/-- The blocks on which two tallies agree. -/
def meet (a b : Tally) : Tally := a.filterKeys fun x => a.get? x = b.get? x

/-- The first tally with the entries of the second written over it. -/
def updatedBy (a b : Tally) : Tally := a.insertAll b.entries

/-- What all tallies of a list agree on; of none at all, nothing. -/
def meetAll : List Tally → Tally
  | [] => ∅
  | t :: rest => rest.foldl meet t

/-- The blocks of a tally. -/
def blocks (t : Tally) : BlockSet := .ofList t.keys

end Tally

namespace ConstantLoop

/-- What is known about a region. -/
structure Region where
  /-- Tallies of its nodes; an inner loop is its header. -/
  nodes : OrderedMap BlockId Tally
  /-- Tallies of all its blocks, those in inner loops included. -/
  blocks : OrderedMap BlockId Tally
  /-- Which nodes reach which. -/
  reach : Reachability
deriving DecidableEq

/-- The analysed regions, by start block.  A region may have failed. -/
abbrev Regions := OrderedMap BlockId (Outcome Region)

/-- The tallies of the nodes of an analysed region. -/
def nodesOf (known : Regions) (h : BlockId) : OrderedMap BlockId Tally :=
  match known.get? h with
  | some (.ok r) => r.nodes
  | _ => ∅

/-- Does a node of an analysed region reach one of several others? -/
def reachesAny (known : Regions) (h node : BlockId) (targets : List BlockId) : Bool :=
  match known.get? h with
  | some (.ok r) => targets.any (r.reach.reaches node)
  | _ => false

/-- What leaving `x` for `target` contributes in the region of a header.  A block
of an inner loop is represented by the header of that loop, and by what the inner
loop contributes, given by `exits`. -/
def contribution (g : Graph) (constant : ConstantBounds) (known : Regions)
    (exits : BlockId → BlockId → Tally) (h x target : BlockId) : Tally :=
  if g.depth x = g.depth h then (nodesOf known h).getD x ∅
  else
    match g.regionNode x (g.headedBy h) with
    | none => ∅
    | some node =>
      let t := (nodesOf known h).getD node ∅
      if constant node then t.updatedBy (exits node target) else t

/-- The blocks that every full round of a loop visits a fixed number of times. -/
def roundTally (g : Graph) (constant : ConstantBounds) (known : Regions)
    (exits : BlockId → BlockId → Tally) (h : BlockId) : Tally :=
  match (g.headedBy h).bind g.loop? with
  | none => ∅
  | some loop =>
    Tally.meetAll (loop.latches.map fun l => contribution g constant known exits h l h)

/-- The blocks from which a loop is left for `target`. -/
def sourcesOf (g : Graph) (h target : BlockId) : List BlockId :=
  match (g.headedBy h).bind g.loop? with
  | some loop => (loop.exits.filter fun e => e.target = target).map FlowEdge.source
  | none => []

/-- The blocks of a loop that are visited a fixed number of times when the loop
is left for `target`.  Inner loops are deeper, so the recursion is no deeper than
there are loops. -/
def exitTally (g : Graph) (constant : ConstantBounds) (known : Regions) :
    (fuel : Nat) → (h target : BlockId) → Tally
  | 0, _, _ => ∅
  | fuel + 1, h, target =>
    let exits := exitTally g constant known fuel
    let loopId := g.headedBy h
    let sources := sourcesOf g h target
    let round := roundTally g constant known exits h
    let last := Tally.meetAll (sources.map fun s => contribution g constant known exits h s target)
    let exitNodes := sources.filterMap fun s => g.regionNode s loopId
    .ofList (round.entries.filterMap fun (b, n) =>
      match last.get? b with
      | some m => some (b, .looped h n m)
      | none =>
        match g.regionNode b loopId with
        | none => none
        | some node =>
          if reachesAny known h node exitNodes then none else some (b, .looped h n .never))

/-- The work on a region. -/
structure Work where
  tallies : OrderedMap BlockId Tally
  queue : List BlockId
  /-- The inner headers met so far, in the order of meeting. -/
  inner : List BlockId := []
deriving DecidableEq

/-- Follows one edge of the region. -/
def follow (g : Graph) (constant : ConstantBounds) (known : Regions) (start current : BlockId)
    (w : Work) (s : BlockId) : Outcome Work := do
  let queue := enqueue w.queue s
  let inner ←
    if g.isHeader s && s ∉ w.inner then
      match known.get? s with
      | some (.error e) => throw e
      | _ => pure (w.inner ++ [s])
    else pure w.inner
  let out := w.tallies.getD current ∅
  let out :=
    if current ≠ start && g.isHeader current && constant current then
      out.updatedBy (exitTally g constant known (g.loops.length + 1) current s)
    else out
  let out :=
    match w.tallies.get? s with
    | some before => if before.isEmpty then out else before.meet out
    | none => out
  let out := if !g.isHeader s || constant s then out.insert s .once else out
  return { tallies := w.tallies.insert s out, queue := queue, inner := inner }

/-- Takes blocks from the queue until it is empty, at most as many as allowed. -/
def drain (g : Graph) (constant : ConstantBounds) (known : Regions) (start : BlockId) :
    (steps : Nat) → Work → Outcome (Option Work)
  | steps, w =>
    match w.queue with
    | [] => .ok (some w)
    | current :: rest =>
      match steps with
      | 0 => .ok none
      | steps + 1 => do
        let next ← (g.regionSuccs current start).foldlM
          (follow g constant known start current) { w with queue := rest }
        drain g constant known start steps next

/-- Gives every block of an inner loop the tally of its header and, if the bound
is constant, what every round of the loop visits. -/
def spread (g : Graph) (constant : ConstantBounds) (known : Regions)
    (tallies : OrderedMap BlockId Tally) (h : BlockId) : OrderedMap BlockId Tally :=
  let round :=
    if constant h then
      (roundTally g constant known (exitTally g constant known g.loops.length) h).mapValues
        fun _ n => .eachRound h n
    else ∅
  let t := (tallies.getD h ∅).updatedBy round
  match (g.headedBy h).bind g.loop? with
  | none => tallies
  | some loop => tallies.insertAll (loop.blocks.map fun b => (b, t))

/-- How many blocks a region may take from its queue. -/
def stepLimit (g : Graph) (limit : Int64) : Int64 := limit * Int64.ofNat (g.size + 1)

/-- Analyses the region of a start block, given the loops inside it. -/
def analyse (g : Graph) (constant : ConstantBounds) (limit : Int64) (known : Regions)
    (start : BlockId) : Outcome Region := do
  let steps := stepLimit g limit
  let first : Work :=
    { tallies := (∅ : OrderedMap BlockId Tally).insert start
        ((∅ : Tally).insert start .once), queue := [start] }
  match ← drain g constant known start (if steps < 0 then 0 else steps.toInt.toNat + 1) first with
  | none =>
    reject ((Cause.constantLoopLimit steps).finding.inFunction g.name
      |>.atBlock (g.nameOf start))
  | some w =>
    return { nodes := w.tallies
             blocks := w.inner.foldl (spread g constant known) w.tallies
             reach := .ofStart g start }

/-- All loops, analysed from the inside out. -/
def regions (g : Graph) (constant : ConstantBounds) (limit : Int64) : Regions :=
  g.innerFirst.foldl (fun known l =>
    let h := g.headerOf (some l)
    known.insert h (analyse g constant limit known h)) ∅

end ConstantLoop

/-- The constant-loop dominators of the blocks that a root leads to, or only of
those without successors. -/
def Graph.constantLoopDominators (g : Graph) (constant : ConstantBounds) (limit : Int64)
    (endOnly : Bool) (root : BlockId) : Outcome DominatorTable := do
  let known := ConstantLoop.regions g constant limit
  let region ←
    match known.get? root with
    | some r => r
    | none => ConstantLoop.analyse g constant limit known root
  return (region.blocks.mapValues fun _ t => t.blocks).filterKeys
    fun b => !endOnly || (g.succs b).isEmpty

end ConstantTime
