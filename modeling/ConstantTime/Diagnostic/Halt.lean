/-
# How a step stops

"Single-Path Constant-Time Transformation Engine", §7.

A step that does not finish either returns a failure or breaks off in the
middle.  What broke off left only what it said last; whoever ran the step turns
that into a failure of its own.
-/

import ConstantTime.Diagnostic.Cause

namespace ConstantTime

/-- Why a step did not finish. -/
inductive Halt where
  /-- It returned a failure. -/
  | failed (e : Failure)
  /-- It broke off, saying this. -/
  | brokeOff (text : String)
deriving DecidableEq, Repr, Inhabited

namespace Halt

/-- What a step says that needs an entry which is not there. -/
def missingEntry : Halt :=
  .brokeOff "runtime error: invalid memory address or nil pointer dereference"

/-- The halt with what was being done in front; a step that broke off cannot say
what it was doing. -/
def during (label : String) : Halt → Halt
  | .failed e => .failed (.context label e)
  | .brokeOff text => .brokeOff text

/-- The failure of a function whose analysis stopped so. -/
def failure (function : String) : Halt → Failure
  | .failed e => e
  | .brokeOff text => .finding ((Cause.brokeOff text).finding.inFunction function)

/-- The result of an operation as that of a step. -/
def ofOutcome {α : Type} : Outcome α → Except Halt α
  | .ok a => .ok a
  | .error e => .error (.failed e)

end Halt
end ConstantTime
