/-
# Descriptions in documents

"Single-Path Constant-Time Transformation Engine", §12.8.

Where the parts of a description stand in a document, whatever its format.
-/

import ConstantTime.Description.Module
import ConstantTime.Document.Schema

namespace ConstantTime

/-- The schema of a loop bound. -/
def Bound.schema : Schema := .record [("min", .int), ("max", .int)]

/-- The bound that a draft holds. -/
def Bound.ofDraft (d : Draft) : Bound := ⟨d.intAt "min", d.intAt "max"⟩

/-- The schema of an instruction. -/
def Instr.schema : Schema := .record [
  ("op", .text), ("reads", .list .text), ("writes", .list .text), ("latency", .int),
  ("load", .flag), ("store", .flag), ("call", .flag), ("return", .flag), ("branch", .flag),
  ("delayed", .flag), ("long", .flag), ("first_slot", .flag), ("non_bundleable", .flag),
  ("negated", .flag), ("unpredicated", .flag)]

/-- The instruction that a draft holds. -/
def Instr.ofDraft (d : Draft) : Instr where
  op := d.textAt "op"
  reads := d.textsAt "reads"
  writes := d.textsAt "writes"
  latency := d.intAt "latency"
  isLoad := d.flagAt "load"
  isStore := d.flagAt "store"
  isCall := d.flagAt "call"
  isReturn := d.flagAt "return"
  isBranch := d.flagAt "branch"
  isDelayed := d.flagAt "delayed"
  isLong := d.flagAt "long"
  firstSlot := d.flagAt "first_slot"
  nonBundleable := d.flagAt "non_bundleable"
  negated := d.flagAt "negated"
  unpredicated := d.flagAt "unpredicated"

/-- The schema of a block. -/
def BlockDescription.schema : Schema := .record [
  ("name", .text), ("succs", .list .text), ("accesses", .optional .int),
  ("bound", .optional Bound.schema), ("instrs", .list (.optional Instr.schema))]

/-- The block that a draft holds. -/
def BlockDescription.ofDraft (d : Draft) : BlockDescription where
  name := d.textAt "name"
  succs := d.textsAt "succs"
  accesses := (d.get "accesses").toOption Draft.toInt64
  bound := (d.get "bound").toOption Bound.ofDraft
  instrs := (d.get "instrs").toList (Draft.toOption Instr.ofDraft)

/-- The schema of a function. -/
def FunctionDescription.schema : Schema := .record [
  ("name", .text), ("root", .flag), ("pseudo_root", .flag),
  ("blocks", .list (.optional BlockDescription.schema))]

/-- The function that a draft holds. -/
def FunctionDescription.ofDraft (d : Draft) : FunctionDescription where
  name := d.textAt "name"
  root := d.flagAt "root"
  pseudoRoot := d.flagAt "pseudo_root"
  blocks := (d.get "blocks").toList? (Draft.toOption BlockDescription.ofDraft)

/-- The schema of a module. -/
def ModuleDescription.schema : Schema := .record [
  ("name", .text), ("functions", .list (.optional FunctionDescription.schema))]

/-- The module that a draft holds. -/
def ModuleDescription.ofDraft (d : Draft) : ModuleDescription where
  name := d.textAt "name"
  functions := (d.get "functions").toList? (Draft.toOption FunctionDescription.ofDraft)

end ConstantTime
