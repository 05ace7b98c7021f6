/-
# What the analyses complain about

"Single-Path Constant-Time Transformation Engine", §7 and §10.2.

Every complaint of the library is a constructor of `Cause`; its code and its
wording are given here and nowhere else.  An analysis names the cause, and adds
where it is with `Finding.inFunction`, `atBlock` and `atLoop`.

Causes of the `SP02xx` family say that an invariant of the library broke, so
their findings carry a note that tells the user so.
-/

import ConstantTime.Diagnostic.Failure

namespace ConstantTime

/-- What is wrong. -/
inductive Cause where
  -- building a graph
  | duplicateBlock (name : String)
  | edgeOutside (source target : String)
  | unknownBlockName (name : String)
  | emptyFunction
  | entryPredecessors
  | unreachable
  | entersLoop (source target : String)
  -- dominators
  | boundedLimit (limit : Int64)
  | constantLoopLimit (limit : Int64)
  | rootDoesNotDominate (root block : String)
  | cannotReach (dominator block : String)
  | notOnPath (dominator : String) (path : List String)
  -- post-dominators and control dependence
  | exitBlocks (count : Nat)
  | postdominatorLimit (limit : Int64)
  | outsideRegion (pred block : String)
  | dependsOn (block edge : String)
  -- equivalence classes
  | classRoots (id roots blocks : Nat)
  -- memory accesses
  | accessLimit (limit : Int64)
  | noEndCount
  | pathTotals (path : List String) (performed compensated : Int64)
  | nothingToCompensate
  | counterLimit (limit : Int64)
  | decrementTooWide (amount width : Int64)
  | noEndCounter
  -- issue schedules
  | unscheduled (left total : Nat) (limit : Int64)
  | unknownInstruction (position index : Int)
  | longAt (index position : Int)
  | longWith (index other : Int)
  | issuedTimes (index : Int) (count : Nat)
  -- descriptions
  | blockWithoutName (index : Nat)
  | headerWithoutDescription (header : String)
  | boundMissing
  | invalidBound (min max : Int64)
  | functionWithoutName (index : Nat)
  | duplicateFunction (name : String)
  | bothRoots
  | negativeAccesses (count : Int64)
  | unreadable (format : String)
  -- runs
  | brokeOff (text : String)
  | noBoundedDominators
  | schedulingFailed (code : Code)
deriving DecidableEq, Repr

namespace Cause

/-- The code of a cause. -/
def code : Cause → Code
  | .duplicateBlock _ => .invalidDescription
  | .edgeOutside _ _ => .unknownBlock
  | .unknownBlockName _ => .unknownBlock
  | .emptyFunction => .emptyFunction
  | .entryPredecessors => .entryPredecessors
  | .unreachable => .unreachable
  | .entersLoop _ _ => .irreducible
  | .boundedLimit _ => .notConverged
  | .constantLoopLimit _ => .notConverged
  | .rootDoesNotDominate _ _ => .unsoundDominator
  | .cannotReach _ _ => .unsoundDominator
  | .notOnPath _ _ => .unsoundDominator
  | .exitBlocks _ => .severalExits
  | .postdominatorLimit _ => .notConverged
  | .outsideRegion _ _ => .dependenceEdge
  | .dependsOn _ _ => .dependenceEdge
  | .classRoots _ _ _ => .classRoot
  | .accessLimit _ => .notConverged
  | .noEndCount => .notConverged
  | .pathTotals _ _ _ => .notConserved
  | .nothingToCompensate => .notConserved
  | .counterLimit _ => .notConverged
  | .decrementTooWide _ _ => .immediateWidth
  | .noEndCounter => .notConverged
  | .unscheduled _ _ _ => .unschedulable
  | .unknownInstruction _ _ => .notIssuedOnce
  | .longAt _ _ => .longInSecondSlot
  | .longWith _ _ => .longShared
  | .issuedTimes _ _ => .notIssuedOnce
  | .blockWithoutName _ => .invalidDescription
  | .headerWithoutDescription _ => .unknownBlock
  | .boundMissing => .boundMissing
  | .invalidBound _ _ => .invalidDescription
  | .functionWithoutName _ => .invalidDescription
  | .duplicateFunction _ => .invalidDescription
  | .bothRoots => .invalidDescription
  | .negativeAccesses _ => .invalidDescription
  | .unreadable _ => .invalidDescription
  | .brokeOff _ => .brokeOff
  | .noBoundedDominators => .noBoundedDominators
  | .schedulingFailed c => c

/-- The wording of a cause. -/
def message : Cause → Phrase
  | .duplicateBlock name => .text s!"duplicate block name {Text.quote name}"
  | .edgeOutside a b => .text s!"edge {a} -> {b} references an unknown block"
  | .unknownBlockName name => .text s!"unknown block {Text.quote name}"
  | .emptyFunction => .standard .emptyFunction
  | .entryPredecessors => .standard .entryPredecessors
  | .unreachable => .standard .unreachable
  | .entersLoop a b => .text s!"edge {a} -> {b} enters a loop without passing its header"
  | .boundedLimit n => .text s!"bounded dominators exceeded {n} iterations"
  | .constantLoopLimit n => .text s!"constant-loop dominators exceeded {n} steps"
  | .rootDoesNotDominate r b => .text s!"{r} does not dominate {b}"
  | .cannotReach d b => .text s!"{d} cannot reach {b}"
  | .notOnPath d path => .text s!"{d} is not on path {Text.bracketed path}"
  | .exitBlocks n => .text s!"function has {n} exit blocks"
  | .postdominatorLimit n => .text s!"post-dominators exceeded {n} steps"
  | .outsideRegion p b => .text s!"predecessor {p} of {b} is outside the region"
  | .dependsOn b e => .text s!"{b} depends on {e}"
  | .classRoots id roots blocks =>
    .text s!"class {id} has {roots} roots among {blocks} blocks"
  | .accessLimit n => .text s!"memory access analysis exceeded {n} rounds"
  | .noEndCount => .text "no access count for end block"
  | .pathTotals path performed compensated =>
    .text s!"path {Text.bracketed path} performs {performed} accesses but compensates {compensated}"
  | .nothingToCompensate => .text "no compensation needed"
  | .counterLimit n => .text s!"counter placement exceeded {n} steps"
  | .decrementTooWide n width =>
    .text s!"decrement of {n} exceeds immediate width {width}"
  | .noEndCounter => .text "end block never received a counter"
  | .unscheduled left total limit =>
    .text s!"{left} of {total} instructions unscheduled after {limit} cycles"
  | .unknownInstruction pos idx => .text s!"position {pos} holds unknown instruction {idx}"
  | .longAt idx pos => .text s!"long instruction {idx} at position {pos}"
  | .longWith idx other => .text s!"long instruction {idx} bundled with {other}"
  | .issuedTimes idx n => .text s!"instruction {idx} scheduled {n} times"
  | .blockWithoutName i => .text s!"block {i} has no name"
  | .headerWithoutDescription h => .text s!"loop header {h} has no description"
  | .boundMissing => .standard .boundMissing
  | .invalidBound lo hi => .text s!"invalid loop bound [{lo}, {hi}]"
  | .functionWithoutName i => .text s!"function {i} has no name"
  | .duplicateFunction name => .text s!"duplicate function {Text.quote name}"
  | .bothRoots => .text "function is both root and pseudo-root"
  | .negativeAccesses n => .text s!"negative access count {n}"
  | .unreadable format => .text s!"invalid {format} module description"
  | .brokeOff s => .text s
  | .noBoundedDominators => .standard .noBoundedDominators
  | .schedulingFailed _ => .text "scheduling failed"

/-- The finding of a cause, not yet located.  A broken invariant is marked as
such; what the caller may live with is a warning. -/
def finding (c : Cause) : Finding :=
  match c with
  | .schedulingFailed _ => .fatal c.code c.message
  | _ =>
    if c.code.isInternal then .internal c.code c.message
    else if c.code.isSoft then .warning c.code c.message
    else .fatal c.code c.message

@[simp] theorem finding_code (c : Cause) : c.finding.code = c.code := by
  unfold finding
  split
  · rfl
  · split
    · rfl
    · split <;> rfl

end Cause
end ConstantTime
