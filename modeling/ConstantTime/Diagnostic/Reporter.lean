/-
# The reporter

"Single-Path Constant-Time Transformation Engine", §10.2.

A reporter collects diagnostics until they are written out.  Reporting a
failure files one diagnostic for each of its parts: the first finding inside
the part, or, where there is none, a finding made from its text.  Errors are
kept apart from everything milder, and are written last.
-/

import ConstantTime.Diagnostic.Layout

namespace ConstantTime

/-- A filed diagnostic. -/
structure Diagnostic where
  finding : Finding
  cause : Option Failure := none
deriving DecidableEq, Repr, Inhabited

namespace Diagnostic

/-- The diagnostic of one part of a failure. -/
def ofPart (e : Failure) (lang : Language) : Diagnostic :=
  match e.finding? with
  | some (f, cause) => ⟨f, cause⟩
  | none => ⟨Finding.fatal ⟨""⟩ (.text (e.text lang)), none⟩

/-- The diagnostic as a failure. -/
def failure (d : Diagnostic) : Failure := .ofFinding d.finding d.cause

/-- Is it an error rather than something milder? -/
def isError (d : Diagnostic) : Bool := d.finding.level = .error

end Diagnostic

/-- Diagnostics collected so far. -/
structure Reporter where
  errors : List Diagnostic := []
  warnings : List Diagnostic := []
deriving DecidableEq, Repr, Inhabited

namespace Reporter

/-- Files one diagnostic by its level. -/
def add (r : Reporter) (d : Diagnostic) : Reporter :=
  if d.isError then { r with errors := r.errors ++ [d] }
  else { r with warnings := r.warnings ++ [d] }

/-- Files every part of a failure. -/
def report (r : Reporter) (lang : Language) (e : Option Failure) : Reporter :=
  (Failure.partsOf e).foldl (fun r p => r.add (.ofPart p lang)) r

/-- Has an error been filed? -/
def hasErrors (r : Reporter) : Bool := !r.errors.isEmpty

/-- All errors as one failure. -/
def failure? (r : Reporter) : Option Failure :=
  Failure.combine (r.errors.map Diagnostic.failure)

/-- Everything filed, written out: warnings first. -/
def flush (r : Reporter) (layout : Layout) (lang : Language) : String :=
  String.join ((r.warnings ++ r.errors).map fun d => layout.render lang d.finding d.cause)

/-- The reporter with nothing filed. -/
def clear (_ : Reporter) : Reporter := {}

end Reporter
end ConstantTime
