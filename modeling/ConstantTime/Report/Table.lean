/-
# Reports as tables

"Single-Path Constant-Time Transformation Engine", §12.8.

A summary with a line for each function, then for each function its classes,
the compensation on its edges and, if asked for, its schedules; at the end the
errors, one on a line.
-/

import ConstantTime.Grid.Basic
import ConstantTime.Report.Basic

namespace ConstantTime
namespace Report

/-- The row of a function in the summary. -/
def summaryRow (f : FunctionReport) : List String :=
  let (strategy, accesses, counter, opposite) :=
    match f.compensation with
    | none => ("-", "-", "-", "-")
    | some c =>
      (c.strategy, s!"[{c.min}, {c.max}]", toString c.counterCost, toString c.oppositeCost)
  let strategy := if f.softFailure then strategy ++ " (soft failure)" else strategy
  [f.name, toString f.blocks, toString f.loops, toString f.classes.length,
    strategy, accesses, counter, opposite]

/-- The summary of all functions. -/
def summaryGrid (fs : List FunctionReport) (s : Summary) : Grid where
  header := ["Function", "Blocks", "Loops", "Classes", "Strategy", "Accesses", "Counter",
    "Opposite"]
  rows := fs.map summaryRow
  footer := ["Total", toString s.functions, "", "", s!"{s.noCompensation} none",
    s!"{s.failed} failed", toString s.counter, toString s.opposite]

/-- The classes of a function. -/
def classGrid (f : FunctionReport) : Grid where
  header := ["Class", "Root", "Blocks", "Dependencies", "Related"]
  rows := f.classes.map fun c =>
    [toString c.id, c.root, String.intercalate " " (c.blocks.getD []),
      String.intercalate " " (c.deps.getD []), String.intercalate " " (c.related.map toString)]
  caption := some (f.name ++ ": equivalence classes")

/-- The compensation on the edges of a function. -/
def compensationGrid (f : FunctionReport) (edges : List AmountReport) : Grid where
  header := ["From", "To", "Amount"]
  rows := edges.map fun e => [e.source, e.target, toString e.amount]
  caption := some (f.name ++ ": compensation")

/-- A bundle as text. -/
def bundleText (b : Int × Int) : String := Schedule.slotText b.1 ++ " | " ++ Schedule.slotText b.2

/-- The schedules of a function. -/
def scheduleGrid (f : FunctionReport) : Grid where
  header := ["Block", "Bundles", "No-ops"]
  rows := f.schedules.map fun s =>
    [s.block, String.intercalate "; " ((s.bundles.getD []).map bundleText), toString s.noOps]
  caption := some (f.name ++ ": schedules")

/-- The tables of a function. -/
def functionGrids (schedules : Bool) (f : FunctionReport) : List Grid :=
  let edges := (f.compensation.map CompensationReport.edges).getD []
  [classGrid f] ++
    (if edges.isEmpty then [] else [compensationGrid f edges]) ++
    (if schedules && !f.schedules.isEmpty then [scheduleGrid f] else [])

/-- The report as tables, with the schedules if asked for. -/
def table (r : Report) (schedules : Bool) : String :=
  let fs := (r.functions.getD []).filterMap id
  String.join ((summaryGrid fs r.summary :: fs.flatMap (functionGrids schedules)).map Grid.text) ++
    String.join (r.errors.map (· ++ "\n"))

end Report
end ConstantTime
