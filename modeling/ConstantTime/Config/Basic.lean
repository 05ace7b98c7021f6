/-
# Configuration

"Single-Path Constant-Time Transformation Engine", §9 and §10.3.

What a user may set: where loop bounds come from, how memory accesses are
compensated, whether two instructions issue at once, and the limits of the
analyses.  A configuration can be written as text and checked; a value that
names nothing known is kept as it was given, so that the complaint can show it.
-/

import ConstantTime.Text.Quoted
import ConstantTime.Text.Small

namespace ConstantTime

/-- How often a loop header is visited: at least and at most. -/
structure Bound where
  min : Int64
  max : Int64
deriving DecidableEq, Repr, Inhabited

namespace Bound

/-- Is the number of iterations fixed? -/
def isConstant (b : Bound) : Bool := b.min = b.max

/-- Is the bound in order? -/
def isOrdered (b : Bound) : Bool := 0 ≤ b.min && b.min ≤ b.max

end Bound

/-- Where the bound of a loop comes from. -/
inductive BoundSource where
  /-- Only from the description of the function. -/
  | described
  /-- From the description, else from the configuration. -/
  | fallback
  | unknown (name : String)
deriving DecidableEq, Repr, Inhabited

namespace BoundSource

/-- The source as it is written. -/
def text : BoundSource → String
  | .described => "annotation"
  | .fallback => "default"
  | .unknown name => name

/-- The source that is written so. -/
def ofText (s : String) : BoundSource :=
  if s = "annotation" then .described
  else if s = "default" then .fallback
  else .unknown s

end BoundSource

/-- How memory accesses are made up for. -/
inductive Compensation where
  /-- Whichever is cheaper. -/
  | hybrid
  /-- Accesses under the opposite predicate. -/
  | opposite
  /-- A counter that is worked off at the end. -/
  | counter
  | unknown (name : String)
deriving DecidableEq, Repr, Inhabited

namespace Compensation

/-- The algorithm as it is written. -/
def text : Compensation → String
  | .hybrid => "hybrid"
  | .opposite => "opposite"
  | .counter => "counter"
  | .unknown name => name

/-- The algorithm that is written so. -/
def ofText (s : String) : Compensation :=
  if s = "hybrid" then .hybrid
  else if s = "opposite" then .opposite
  else if s = "counter" then .counter
  else .unknown s

end Compensation

/-- The settings of a run. -/
structure Config where
  loopBounds : BoundSource := .described
  /-- The bound of loops without one, if the source allows it. -/
  defaultLoopBound : Bound := ⟨1, 1⟩
  compensation : Compensation := .hybrid
  /-- May two instructions issue at once? -/
  dualIssue : Bool := false
  /-- May any instruction take the second slot? -/
  permissiveDualIssue : Bool := false
  /-- The limit of every iteration. -/
  maxIterations : Int64 := 10000
  /-- Check the results of the analyses? -/
  verify : Bool := true
  /-- The largest immediate operand. -/
  immediateWidth : Int64 := 4095
  /-- The function that works off the counter. -/
  compensationFunction : String := "__patmos_main_mem_access_compensation"
  /-- How many functions are analysed at a time. -/
  workers : Int64 := 1
  logLevel : String := "info"
deriving DecidableEq, Repr, Inhabited

namespace Config

/-- Why a configuration is refused. -/
inductive Fault where
  | loopBounds (name : String)
  | compensation (name : String)
  | defaultLoopBound (bound : Bound)
  | maxIterations (value : Int64)
  | immediateWidth (value : Int64)
  | workers (value : Int64)
  | logLevel (name : String)
deriving DecidableEq, Repr

/-- The wording of a refusal. -/
def Fault.message : Fault → String
  | .loopBounds name =>
    s!"invalid loop_bounds {Text.quote name} (want annotation or default)"
  | .compensation name =>
    s!"invalid compensation {Text.quote name} (want hybrid, opposite or counter)"
  | .defaultLoopBound b => s!"invalid default_loop_bound [{b.min}, {b.max}]"
  | .maxIterations n => s!"max_iterations must be positive, got {n}"
  | .immediateWidth n => s!"immediate_width must be positive, got {n}"
  | .workers n => s!"workers must be positive, got {n}"
  | .logLevel name => s!"invalid log_level: unrecognized level: {Text.quote name}"

/-- The names of the log levels; without a name it is the usual one. -/
def logLevels : List String := ["debug", "info", "", "warn", "error", "dpanic", "panic", "fatal"]

/-- Is the log level one there is, in any case of letters? -/
def checkLogLevel (c : Config) : Except Fault Unit :=
  if Text.small c.logLevel ∈ logLevels then .ok () else .error (.logLevel c.logLevel)

/-- Refuses a configuration for the first setting that makes no sense. -/
def validate (c : Config) : Except Fault Unit := do
  match c.loopBounds with
  | .unknown name => throw (.loopBounds name)
  | _ => pure ()
  match c.compensation with
  | .unknown name => throw (.compensation name)
  | _ => pure ()
  if !c.defaultLoopBound.isOrdered then throw (.defaultLoopBound c.defaultLoopBound)
  if c.maxIterations ≤ 0 then throw (.maxIterations c.maxIterations)
  if c.immediateWidth ≤ 0 then throw (.immediateWidth c.immediateWidth)
  if c.workers ≤ 0 then throw (.workers c.workers)
  c.checkLogLevel

/-- The configuration as a commented file. -/
def text (c : Config) : String :=
  "[singlepath]\n" ++
  "# 循环边界来源: annotation | default\n" ++
  s!"loop_bounds = {Text.quote c.loopBounds.text}\n\n" ++
  "# 补偿算法: hybrid | opposite | counter\n" ++
  s!"compensation = {Text.quote c.compensation.text}\n\n" ++
  "# 双发射调度\n" ++
  s!"dual_issue = {c.dualIssue}\n" ++
  s!"permissive_dual_issue = {c.permissiveDualIssue}\n\n" ++
  s!"max_iterations = {c.maxIterations}\n" ++
  s!"verify = {c.verify}\n" ++
  s!"immediate_width = {c.immediateWidth}\n" ++
  s!"compensation_function = {Text.quote c.compensationFunction}\n" ++
  s!"workers = {c.workers}\n" ++
  s!"log_level = {Text.quote c.logLevel}\n\n" ++
  "[singlepath.default_loop_bound]\n" ++
  s!"min = {c.defaultLoopBound.min}\n" ++
  s!"max = {c.defaultLoopBound.max}\n"

end Config
end ConstantTime
