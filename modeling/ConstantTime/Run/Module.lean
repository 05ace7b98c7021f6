/-
# Running a module

"Single-Path Constant-Time Transformation Engine", §5 and §12.7.

Every function of a module is a task of its own.  A task that finishes leaves
its dossier and counts in the summary; one that does not leaves a failure.
Counting goes through the schedules of the dossier and breaks off at one whose
bundles cannot be listed.  Then the dossier stays, with what has been counted, and
there is a failure besides.

Tasks may complete in any order: `complete` takes the next one into account,
and `inOrder` all of them.
-/

import ConstantTime.Description.Module
import ConstantTime.Run.Pipeline

namespace ConstantTime

/-- Totals over the functions of a module. -/
structure Summary where
  functions : Int64 := 0
  failed : Int64 := 0
  softFailures : Int64 := 0
  noCompensation : Int64 := 0
  counter : Int64 := 0
  opposite : Int64 := 0
  bundles : Int64 := 0
  noOps : Int64 := 0
  longInstructions : Int64 := 0
deriving DecidableEq, Repr, Inhabited

namespace Summary

/-- The sum of two summaries. -/
def add (a b : Summary) : Summary where
  functions := a.functions + b.functions
  failed := a.failed + b.failed
  softFailures := a.softFailures + b.softFailures
  noCompensation := a.noCompensation + b.noCompensation
  counter := a.counter + b.counter
  opposite := a.opposite + b.opposite
  bundles := a.bundles + b.bundles
  noOps := a.noOps + b.noOps
  longInstructions := a.longInstructions + b.longInstructions

/-- What schedules contribute, and what was said if the counting broke off. -/
def ofSchedules : List Schedule → Summary × Option String
  | [] => ({}, none)
  | s :: rest =>
    match s.noOps with
    | .error text => ({ bundles := Int64.ofNat s.cycles }, some text)
    | .ok noOps =>
      let (counted, halt) := ofSchedules rest
      (add { bundles := Int64.ofNat s.cycles, noOps := Int64.ofNat noOps,
             longInstructions := Int64.ofNat s.longCount } counted, halt)

/-- What a finished function contributes, and what was said if the counting broke off. -/
def ofDossier (d : Dossier) : Summary × Option String :=
  let chose (s : Strategy) : Int64 := if d.decision.any (fun r => r.strategy = s) then 1 else 0
  let (counted, halt) := ofSchedules (d.schedules.filterMap id)
  (add { functions := 1
         softFailures := if d.softFailure then 1 else 0
         noCompensation := chose .none
         counter := chose .counter
         opposite := chose .opposite } counted, halt)

/-- What a function contributes that did not finish. -/
def ofFailure : Summary := { failed := 1 }

end Summary

/-- What became of a module. -/
structure ModuleRun where
  module : ModuleDescription
  /-- For each function, its dossier if it finished. -/
  dossiers : List (Option Dossier)
  summary : Summary := {}
  failure : Option Failure := none
deriving DecidableEq, Inhabited

namespace ModuleRun

/-- Nothing has run yet. -/
def start (m : ModuleDescription) : ModuleRun where
  module := m
  dossiers := m.entries.map fun _ => none

/-- Takes a failure into account. -/
def fail (r : ModuleRun) (e : Failure) : ModuleRun :=
  { r with
    summary := r.summary.add .ofFailure
    failure := Failure.append r.failure (some e) }

/-- Takes the run of the function at a position into account.  Its dossier is kept before it
is counted. -/
def record (r : ModuleRun) (i : Nat) (run : PipelineRun) : ModuleRun :=
  match run.failure? with
  | some e => r.fail e
  | none =>
    let (counted, halt) := Summary.ofDossier run.dossier
    let r := { r with
      dossiers := r.dossiers.set i (some run.dossier)
      summary := r.summary.add counted }
    match halt with
    | none => r
    | some text => r.fail ((Halt.brokeOff text).failure run.dossier.name)

/-- The task of the function at a position completes. -/
def complete (ps : Pipeline) (config : Config) (r : ModuleRun) (i : Nat) : ModuleRun :=
  match (r.module.entries[i]?).join with
  | none => r
  | some f => r.record i (ps.run f config)

/-- The tasks complete in the given order. -/
def inOrder (ps : Pipeline) (config : Config) (m : ModuleDescription) (order : List Nat) :
    ModuleRun :=
  order.foldl (complete ps config) (start m)

/-- The failure of a run that was called off. -/
def calledOff : Failure := .plain "context canceled"

/-- A run that was called off before its first task. -/
def cancelled (m : ModuleDescription) : ModuleRun :=
  { start m with failure := if m.entries.isEmpty then none else some calledOff }

/-- Analyses a valid module, one function after the other. -/
def ofModule (ps : Pipeline) (config : Config) (m : ModuleDescription) : Outcome ModuleRun := do
  m.validate
  return inOrder ps config m (List.range m.entries.length)

/-- The warnings of all functions. -/
def warnings (r : ModuleRun) : List Finding :=
  r.dossiers.flatMap fun d => (d.map Dossier.warnings).getD []

end ModuleRun
end ConstantTime
