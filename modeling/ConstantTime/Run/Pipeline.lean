/-
# Pipelines

"Single-Path Constant-Time Transformation Engine", §12.7.

A pipeline is a list of passes.  It runs them in order and stops at the first
one that does not finish; what that one and those before it found out is kept.
-/

import ConstantTime.Run.Pass

namespace ConstantTime

/-- Passes in the order in which they run. -/
abbrev Pipeline := List Pass

/-- What became of a pipeline. -/
structure PipelineRun where
  dossier : Dossier
  /-- The number of passes that were started. -/
  started : Nat := 0
  /-- Why it stopped, if it did not finish. -/
  halt : Option Halt := none
deriving DecidableEq, Inhabited

namespace Pipeline

/-- The whole analysis. -/
def standard : Pipeline :=
  [Pass.loops, Pass.boundedDominators, Pass.constantLoopDominators, Pass.controlDependence,
    Pass.equivalenceClasses, Pass.compensation, Pass.schedule]

/-- Only what schedules need. -/
def scheduling : Pipeline :=
  [Pass.loops, Pass.controlDependence, Pass.equivalenceClasses, Pass.schedule]

/-- The passes from a dossier on. -/
def runFrom : Pipeline → PipelineRun → PipelineRun
  | [], r => r
  | p :: rest, r =>
    match p.run r.dossier with
    | (d, none) => runFrom rest { dossier := d, started := r.started + 1 }
    | (d, some h) =>
      { dossier := d, started := r.started + 1, halt := some (h.during p.name) }

/-- Analyses a function. -/
def run (ps : Pipeline) (f : FunctionDescription) (config : Config) : PipelineRun :=
  ps.runFrom { dossier := { description := f, config := config } }

end Pipeline

/-- The failure of a run that did not finish. -/
def PipelineRun.failure? (r : PipelineRun) : Option Failure :=
  r.halt.map fun h => h.failure r.dossier.name

end ConstantTime
