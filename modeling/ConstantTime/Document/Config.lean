/-
# Configurations in documents

"Single-Path Constant-Time Transformation Engine", §10.3.

A configuration stands in the table `singlepath`.  Other tables are somebody
else's and do not matter.
-/

import ConstantTime.Document.Module

namespace ConstantTime

namespace Config

/-- The schema of the settings. -/
def schema : Schema := .record [
  ("loop_bounds", .text), ("default_loop_bound", Bound.schema), ("compensation", .text),
  ("dual_issue", .flag), ("permissive_dual_issue", .flag), ("max_iterations", .int),
  ("verify", .flag), ("immediate_width", .int), ("compensation_function", .text),
  ("workers", .int), ("log_level", .text)]

/-- The settings as a draft that a document may change. -/
def draft (c : Config) : Draft := .record [
  ("loop_bounds", .text c.loopBounds.text),
  ("default_loop_bound",
    .record [("min", .int c.defaultLoopBound.min), ("max", .int c.defaultLoopBound.max)]),
  ("compensation", .text c.compensation.text),
  ("dual_issue", .flag c.dualIssue),
  ("permissive_dual_issue", .flag c.permissiveDualIssue),
  ("max_iterations", .int c.maxIterations),
  ("verify", .flag c.verify),
  ("immediate_width", .int c.immediateWidth),
  ("compensation_function", .text c.compensationFunction),
  ("workers", .int c.workers),
  ("log_level", .text c.logLevel)]

/-- The settings that a draft holds. -/
def ofDraft (d : Draft) : Config where
  loopBounds := .ofText (d.textAt "loop_bounds")
  defaultLoopBound := .ofDraft (d.get "default_loop_bound")
  compensation := .ofText (d.textAt "compensation")
  dualIssue := d.flagAt "dual_issue"
  permissiveDualIssue := d.flagAt "permissive_dual_issue"
  maxIterations := d.intAt "max_iterations"
  verify := d.flagAt "verify"
  immediateWidth := d.intAt "immediate_width"
  compensationFunction := d.textAt "compensation_function"
  workers := d.intAt "workers"
  logLevel := d.textAt "log_level"

/-- The table of the settings. -/
def tableName : String := "singlepath"

/-- The schema of a configuration file. -/
def fileSchema : Schema := .record [(tableName, schema)]

/-- A configuration file as a draft. -/
def fileDraft (c : Config) : Draft := .record [(tableName, c.draft)]

/-- The settings in a draft of a configuration file. -/
def ofFileDraft (d : Draft) : Config := ofDraft (d.get tableName)

end Config
end ConstantTime
