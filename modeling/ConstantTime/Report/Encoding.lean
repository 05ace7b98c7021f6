/-
# Reports as JSON

"Single-Path Constant-Time Transformation Engine", §12.8.

Writing and reading reports.  Members that say nothing, such as an empty list
or a flag that is not set, are left out; the order of the others is fixed.  The
fingerprint of a report is the digest of its text without blanks.
-/

import ConstantTime.Digest.Blake2b
import ConstantTime.Json.Reader
import ConstantTime.Report.Basic

namespace ConstantTime
namespace Report

open JsonValue

/-! ### Writing -/

/-- A class as JSON. -/
def classJson (c : ClassReport) : JsonValue :=
  .object (always "id" (.int c.id) ++ always "root" (.text c.root) ++
    always "deps" (listOrNull .text c.deps) ++ always "blocks" (listOrNull .text c.blocks) ++
    unlessEmpty "related" .int c.related)

/-- The amount on an edge as JSON. -/
def amountJson (a : AmountReport) : JsonValue :=
  .object [("from", .text a.source), ("to", .text a.target), ("amount", .int a.amount)]

/-- A compensation as JSON. -/
def compensationJson (c : CompensationReport) : JsonValue :=
  .object (always "strategy" (.text c.strategy) ++ always "min" (.int c.min) ++
    always "max" (.int c.max) ++ always "counter_cost" (.int c.counterCost) ++
    always "opposite_cost" (.int c.oppositeCost) ++ unlessEmpty "edges" amountJson c.edges ++
    unlessEmpty "plan" .text c.plan)

/-- A bundle as JSON. -/
def bundleJson (b : Int × Int) : JsonValue := .list [.int b.1, .int b.2]

/-- A schedule as JSON. -/
def scheduleJson (s : ScheduleReport) : JsonValue :=
  .object [("block", .text s.block), ("bundles", listOrNull bundleJson s.bundles),
    ("noops", .int s.noOps)]

/-- A function as JSON. -/
def functionJson (f : FunctionReport) : JsonValue :=
  .object (always "name" (.text f.name) ++ always "blocks" (.int f.blocks) ++
    always "loops" (.int f.loops) ++ JsonValue.flag "soft_failure" f.softFailure ++
    unlessEmpty "classes" classJson f.classes ++
    ifSome "compensation" compensationJson f.compensation ++
    unlessEmpty "schedules" scheduleJson f.schedules ++ unlessEmpty "warnings" .text f.warnings)

/-- A summary as JSON. -/
def summaryJson (s : Summary) : JsonValue :=
  let count (key : String) (n : Int64) : String × JsonValue := (key, .int n.toInt)
  .object [count "functions" s.functions, count "failed" s.failed,
    count "soft_failures" s.softFailures, count "no_compensation" s.noCompensation,
    count "counter" s.counter, count "opposite" s.opposite, count "bundles" s.bundles,
    count "noops" s.noOps, count "long_instructions" s.longInstructions]

/-- The report of a function that may be missing. -/
def entryJson (f : Option FunctionReport) : JsonValue :=
  match f with
  | none => .null
  | some f => functionJson f

/-- A report as JSON. -/
def json (r : Report) : JsonValue :=
  .object (always "name" (.text r.name) ++ always "functions" (listOrNull entryJson r.functions) ++
    always "summary" (summaryJson r.summary) ++ unlessEmpty "errors" .text r.errors)

/-- The text of a report without blanks. -/
def compact (r : Report) : String := r.json.compact

/-- The fingerprint of a report. -/
def fingerprint (r : Report) : String := Blake2b.hexDigest r.compact

/-! ### Reading -/

/-- The schema of a class. -/
def classSchema : Schema := .record [
  ("id", .int), ("root", .text), ("deps", .list .text), ("blocks", .list .text),
  ("related", .list .int)]

/-- An integer of a draft. -/
def toInt (d : Draft) : Int := d.toInt64.toInt

/-- The class that a draft holds. -/
def classOfDraft (d : Draft) : ClassReport where
  id := toInt (d.get "id")
  root := d.textAt "root"
  deps := (d.get "deps").toList? Draft.toText
  blocks := (d.get "blocks").toList? Draft.toText
  related := (d.get "related").toList toInt

/-- The schema of the amount on an edge. -/
def amountSchema : Schema := .record [("from", .text), ("to", .text), ("amount", .int)]

/-- The amount on an edge that a draft holds. -/
def amountOfDraft (d : Draft) : AmountReport :=
  ⟨d.textAt "from", d.textAt "to", toInt (d.get "amount")⟩

/-- The schema of a compensation. -/
def compensationSchema : Schema := .record [
  ("strategy", .text), ("min", .int), ("max", .int), ("counter_cost", .int),
  ("opposite_cost", .int), ("edges", .list amountSchema), ("plan", .list .text)]

/-- The compensation that a draft holds. -/
def compensationOfDraft (d : Draft) : CompensationReport where
  strategy := d.textAt "strategy"
  min := toInt (d.get "min")
  max := toInt (d.get "max")
  counterCost := toInt (d.get "counter_cost")
  oppositeCost := toInt (d.get "opposite_cost")
  edges := (d.get "edges").toList amountOfDraft
  plan := d.textsAt "plan"

/-- The schema of a schedule. -/
def scheduleSchema : Schema := .record [
  ("block", .text), ("bundles", .list (.pair .int)), ("noops", .int)]

/-- The bundle that a draft holds. -/
def bundleOfDraft : Draft → Int × Int
  | .pair a b => (toInt a, toInt b)
  | _ => (0, 0)

/-- The schedule that a draft holds. -/
def scheduleOfDraft (d : Draft) : ScheduleReport where
  block := d.textAt "block"
  bundles := (d.get "bundles").toList? bundleOfDraft
  noOps := toInt (d.get "noops")

/-- The schema of a function. -/
def functionSchema : Schema := .record [
  ("name", .text), ("blocks", .int), ("loops", .int), ("soft_failure", .flag),
  ("classes", .list classSchema), ("compensation", .optional compensationSchema),
  ("schedules", .list scheduleSchema), ("warnings", .list .text)]

/-- The function that a draft holds. -/
def functionOfDraft (d : Draft) : FunctionReport where
  name := d.textAt "name"
  blocks := toInt (d.get "blocks")
  loops := toInt (d.get "loops")
  softFailure := d.flagAt "soft_failure"
  classes := (d.get "classes").toList classOfDraft
  compensation := (d.get "compensation").toOption compensationOfDraft
  schedules := (d.get "schedules").toList scheduleOfDraft
  warnings := d.textsAt "warnings"

/-- The schema of a summary. -/
def summarySchema : Schema := .record [
  ("functions", .int), ("failed", .int), ("soft_failures", .int), ("no_compensation", .int),
  ("counter", .int), ("opposite", .int), ("bundles", .int), ("noops", .int),
  ("long_instructions", .int)]

/-- The summary that a draft holds. -/
def summaryOfDraft (d : Draft) : Summary where
  functions := d.intAt "functions"
  failed := d.intAt "failed"
  softFailures := d.intAt "soft_failures"
  noCompensation := d.intAt "no_compensation"
  counter := d.intAt "counter"
  opposite := d.intAt "opposite"
  bundles := d.intAt "bundles"
  noOps := d.intAt "noops"
  longInstructions := d.intAt "long_instructions"

/-- The schema of a report. -/
def schema : Schema := .record [
  ("name", .text), ("functions", .list (.optional functionSchema)), ("summary", summarySchema),
  ("errors", .list .text)]

/-- The report that a draft holds. -/
def ofDraft (d : Draft) : Report where
  name := d.textAt "name"
  functions := (d.get "functions").toList? (Draft.toOption functionOfDraft)
  summary := summaryOfDraft (d.get "summary")
  errors := d.textsAt "errors"

/-- The report that a text writes. -/
def parse? (s : String) : Option Report := (Draft.ofJson? schema s).map ofDraft

end Report
end ConstantTime
