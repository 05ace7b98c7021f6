/-
# Reports

"Single-Path Constant-Time Transformation Engine", §12.8.

A report holds what a user wants to know about a run, with blocks given by
name.  Everything in it is in a fixed order, so that the same module and
configuration always give the same report.

Lists that may be missing altogether are optional; the report of a function is
missing where a report that was read from outside has a gap.

A report lists the bundles of all schedules.  It breaks off where these cannot be
listed, and the error is what is said then.
-/

import ConstantTime.Run.Module

namespace ConstantTime

/-- A predicate class. -/
structure ClassReport where
  id : Int := 0
  root : String := ""
  deps : Option (List String) := none
  blocks : Option (List String) := none
  /-- The other classes that may be enabled together with it. -/
  related : List Int := []
deriving DecidableEq, Repr, Inhabited

/-- The compensation on one edge. -/
structure AmountReport where
  source : String := ""
  target : String := ""
  amount : Int := 0
deriving DecidableEq, Repr, Inhabited

/-- How memory accesses are made up for. -/
structure CompensationReport where
  strategy : String := ""
  min : Int := 0
  max : Int := 0
  counterCost : Int := 0
  oppositeCost : Int := 0
  edges : List AmountReport := []
  plan : List String := []
deriving DecidableEq, Repr, Inhabited

/-- The schedule of a block. -/
structure ScheduleReport where
  block : String := ""
  /-- The two slots of each bundle. -/
  bundles : Option (List (Int × Int)) := none
  noOps : Int := 0
deriving DecidableEq, Repr, Inhabited

/-- A function. -/
structure FunctionReport where
  name : String := ""
  blocks : Int := 0
  loops : Int := 0
  softFailure : Bool := false
  classes : List ClassReport := []
  compensation : Option CompensationReport := none
  schedules : List ScheduleReport := []
  warnings : List String := []
deriving DecidableEq, Repr, Inhabited

/-- A module. -/
structure Report where
  name : String := ""
  functions : Option (Listing FunctionReport) := none
  summary : Summary := {}
  errors : List String := []
deriving DecidableEq, Repr, Inhabited

/-- A list, missing if it is empty. -/
def presentList {α : Type} (l : List α) : Option (List α) := if l.isEmpty then none else some l

namespace FunctionReport

/-- A control dependence with the names of its blocks. -/
def edgeName (g : Graph) (e : Dependence) : String :=
  let source := match e.origin.block? with
    | none => "entry"
    | some b => g.nameOf b
  source ++ "->" ++ g.nameOf e.target

/-- The report of a class. -/
def ofClass (g : Graph) (cs : Classes) (roots : List (Option BlockId)) (i : Nat)
    (c : PredicateClass) : ClassReport where
  id := i
  root := ((roots[i]?).join.map fun r => g.nameOf r).getD ""
  deps := presentList (c.deps.toList.map (edgeName g))
  blocks := presentList (c.blocks.map fun b => g.nameOf b)
  related := ((List.range cs.size).filter fun (j : Nat) => j ≠ i && cs.related g i j).map Int.ofNat

/-- The report of a decision. -/
def ofDecision (g : Graph) (d : Decision) : CompensationReport where
  strategy := d.strategy.text
  min := d.range.min.toInt
  max := d.range.max.toInt
  counterCost := d.counterCost.toInt
  oppositeCost := d.oppositeCost.toInt
  edges := d.amounts.entries.map fun (e, n) => ⟨g.nameOf e.source, g.nameOf e.target, n.toInt⟩
  plan := (d.plan.map fun p => p.instrs.map fun i => s!"{g.nameOf i.block}: {i.code.text}").getD []

/-- The reports of the blocks that have a schedule. -/
def ofSchedules (g : Graph) (d : Dossier) : Except String (List ScheduleReport) :=
  (d.schedules.zipIdx.filterMap fun (s, i) => s.map (·, i)).mapM fun (s, (i : Nat)) => do
    let noOps ← s.noOps
    let bundles ← d.bundles i
    return { block := g.nameOf i, bundles := presentList bundles, noOps := noOps }

/-- The report of a function.  Without a graph little is known about it. -/
def ofDossier (lang : Language) (d : Dossier) : Except String FunctionReport :=
  match d.graph with
  | none => .ok { name := d.name, softFailure := d.softFailure }
  | some g => do
    let schedules ← ofSchedules g d
    return {
      name := d.name
      blocks := g.size
      loops := g.loops.length
      softFailure := d.softFailure
      classes := (d.classes.map fun cs =>
        cs.list.zipIdx.map fun (c, i) => ofClass g cs d.roots i c).getD []
      compensation := d.decision.map (ofDecision g)
      schedules := schedules
      warnings := d.warnings.map (Finding.text lang) }

end FunctionReport

namespace Report

/-- The texts of the parts of a failure. -/
def errorTexts (lang : Language) (e : Option Failure) : List String :=
  (Failure.partsOf e).map (Failure.text lang)

/-- The report of a run. -/
def ofRun (lang : Language) (r : ModuleRun) : Except String Report := do
  let functions ← (r.dossiers.filterMap id).mapM (FunctionReport.ofDossier lang)
  return {
    name := r.module.name
    functions := presentList (functions.map some)
    summary := r.summary
    errors := errorTexts lang r.failure }

/-- The report of a run that may not have started. -/
def ofOutcome (lang : Language) : Outcome ModuleRun → Except String Report
  | .ok r => ofRun lang r
  | .error e => .ok { errors := errorTexts lang (some e) }

end Report
end ConstantTime
