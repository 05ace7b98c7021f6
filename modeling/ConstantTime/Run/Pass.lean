/-
# Passes

"Single-Path Constant-Time Transformation Engine", §12.7.

A pass is one step of the analysis of a function.  It returns what it has added
to the dossier, and why it stopped if it did not finish.

| pass | adds |
| --- | --- |
| `loops` | the graph and the loop bounds |
| `boundedDominators` | the bounded dominators; without any, a soft failure |
| `constantLoopDominators` | the dominators of the end block with a fixed count |
| `controlDependence` | post-dominators and control dependences |
| `equivalenceClasses` | the predicate classes and their roots |
| `compensation` | how memory accesses are made up for |
| `schedule` | a schedule for each block |
-/

import ConstantTime.Dominance.Bounded
import ConstantTime.Dominance.ConstantLoop
import ConstantTime.Dominance.Verify
import ConstantTime.Run.Dossier

namespace ConstantTime

/-- One step of an analysis. -/
structure Pass where
  name : String
  /-- What the step adds, and why it stopped if it did. -/
  run : Dossier → Dossier × Option Halt

namespace Pass

/-- A step that needs the graph. -/
def onGraph (step : Graph → Dossier → Dossier × Option Halt) (d : Dossier) :
    Dossier × Option Halt :=
  match d.graph with
  | none => (d, some .missingEntry)
  | some g => step g d

/-- A step that adds a result if there is one. -/
def adding {α : Type} (d : Dossier) (r : Outcome α) (put : α → Dossier × Option Halt) :
    Dossier × Option Halt :=
  match r with
  | .ok a => put a
  | .error e => (d, some (.failed e))

/-- A dossier with a check that comes after it. -/
def checked (d : Dossier) (check : Outcome Unit) : Dossier × Option Halt :=
  match check with
  | .ok _ => (d, none)
  | .error e => (d, some (.failed e))

/-! ### Control flow -/

/-- The graph and the bounds of its loops; neither is kept without the other. -/
def loops : Pass where
  name := "loops"
  run d :=
    match d.description.graph with
    | .error h => (d, some h)
    | .ok g =>
      adding d (d.description.bounds g d.config) fun bounds =>
        ({ d with graph := some g, bounds := bounds }, none)

/-- Checks a table of dominators from the entry, if the configuration asks. -/
def verified (d : Dossier) (g : Graph) (m : DominatorTable) : Dossier × Option Halt :=
  if d.config.verify then
    checked d (do
      m.verifyReach g g.entry
      m.verifyPaths g d.isConstant d.config.maxIterations g.entry)
  else (d, none)

/-- The warning that there are no bounded dominators. -/
def softWarning (g : Graph) : Finding :=
  Cause.noBoundedDominators.finding.inFunction g.name |>.withNote
    (.text "constant-time single-path code is not achievable for this function")

/-- The bounded dominators.  That there are none is no reason to stop. -/
def boundedDominators : Pass where
  name := "bounded-dominators"
  run := onGraph fun g d =>
    adding d (g.boundedDominators d.isConstant d.config.maxIterations g.entry) fun m =>
      let d := { d with dominators := m }
      if m.isEmpty then ({ d with softFailure := true }.warn (softWarning g), none)
      else verified d g m

/-- The dominators of the end block that execute a fixed number of times. -/
def constantLoopDominators : Pass where
  name := "cl-dominators"
  run := onGraph fun g d =>
    adding d (g.constantLoopDominators d.isConstant d.config.maxIterations true g.entry) fun m =>
      verified { d with constantLoop := some m } g m

/-! ### Predicates -/

/-- The post-dominators and what follows from them. -/
def controlDependence : Pass where
  name := "control-dependence"
  run := onGraph fun g d =>
    adding d (Postdominators.ofGraph g d.config.maxIterations) fun p =>
      adding d (Dependences.ofPostdominators p g) fun deps =>
        ({ d with postdominators := some p, dependences := deps }, none)

/-- The predicate classes, each of which has to have one root. -/
def equivalenceClasses : Pass where
  name := "equivalence-classes"
  run := onGraph fun g d =>
    match d.postdominators with
    | none => (d, some .missingEntry)
    | some p =>
      let cs := Classes.ofDependences g d.dependences
      match cs.verifyRoots g p with
      | some e => (d, some (.failed e))
      | none => ({ d with classes := some cs, roots := cs.roots p }, none)

/-! ### Memory accesses -/

/-- The function as the choice of a compensation sees it. -/
def accessProblem (d : Dossier) (g : Graph) : AccessProblem where
  graph := g
  count := d.description.accesses
  bound := d.bound
  rootLike := d.description.rootLike
  pseudoRoot := d.description.pseudoRoot
  endDominators := g.end?.bind fun e => d.constantLoop.map fun m => m.of e

/-- The blocks whose accesses the choice asks for. -/
def countedBlocks (p : AccessProblem) (config : Config) : List BlockId :=
  if config.compensation = .opposite then p.graph.ids.filter fun b => !p.isSkipped b
  else if config.maxIterations ≤ 0 then []
  else p.graph.ids

/-- The choice of a compensation. -/
def compensation : Pass where
  name := "compensation"
  run := onGraph fun g d =>
    let p := accessProblem d g
    if (countedBlocks p d.config).any fun b =>
        (d.description.block? b).any BlockDescription.isUncountable then
      (d, some .missingEntry)
    else adding d (p.decide d.config) fun r => ({ d with decision := some r }, none)

/-! ### Schedules -/

/-- The schedule of a block. -/
def scheduleBlock (d : Dossier) (g : Graph) (b : BlockId) (l : List Instr) : Outcome Schedule := do
  let s ← (d.issueProblem g b l).schedule
  if d.config.verify then
    match s.verify with
    | some e => throw e
    | none => pure ()
  return s

/-- The failure of a block that has no schedule. -/
def blockFailure (g : Graph) (b : BlockId) (e : Failure) : Failure :=
  .caused ((Cause.schedulingFailed e.code).finding.inFunction g.name |>.atBlock (g.nameOf b)) e

/-- The schedule of a block and what went wrong with it. -/
def scheduleOf (d : Dossier) (g : Graph) (b : BlockId) : Option Schedule × Option Failure :=
  match scheduleBlock d g b (d.instrsOf b) with
  | .ok s => (some s, none)
  | .error e => (none, some (blockFailure g b e))

/-- Does a block lack an instruction, or is it missing itself? -/
def hasGap (d : Dossier) (b : BlockId) : Bool :=
  (d.description.block? b).all fun blk => blk.instrs.any Option.isNone

/-- A schedule for every block.  Every failure is reported, not only the first. -/
def schedule : Pass where
  name := "schedule"
  run := onGraph fun g d =>
    if g.ids.any (hasGap d) then (d, some .missingEntry)
    else
      let results := g.ids.map (scheduleOf d g)
      let d := { d with schedules := results.map Prod.fst }
      (d, (Failure.combine (results.filterMap Prod.snd)).map .failed)

end Pass
end ConstantTime
