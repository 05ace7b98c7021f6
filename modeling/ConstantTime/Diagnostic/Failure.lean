/-
# Failures

"Single-Path Constant-Time Transformation Engine", §10.2.

A failure is what an operation returns instead of a result.  It is a finding,
a finding with another failure as its cause, plain text from outside the
library, a failure with a label in front, or two failures together.

`parts` opens what was put together at the top: `parts (both a b)` is the parts
of `a` and then those of `b`.  A failure under a label or a cause is one part,
whatever it holds.  `finding?` looks inside: it is the first finding met from
the outside in and from left to right.
-/

import ConstantTime.Diagnostic.Finding

namespace ConstantTime

/-- Why an operation has no result. -/
inductive Failure where
  /-- Text from outside the library. -/
  | plain (text : String)
  /-- One complaint. -/
  | finding (f : Finding)
  /-- A complaint about another failure. -/
  | caused (f : Finding) (cause : Failure)
  /-- A failure met while doing what the label says. -/
  | context (label : String) (inner : Failure)
  /-- Two failures, in this order. -/
  | both (first second : Failure)
deriving DecidableEq, Repr, Inhabited

namespace Failure

/-- The failure on one line. -/
def text (lang : Language) : Failure → String
  | .plain s => s
  | .finding f => f.text lang
  | .caused f cause => s!"{f.text lang}: {cause.text lang}"
  | .context label inner => s!"{label}: {inner.text lang}"
  | .both a b => s!"{a.text lang}; {b.text lang}"

/-- The failures that were put together at the top. -/
def parts : Failure → List Failure
  | .both a b => a.parts ++ b.parts
  | f => [f]

/-- The first finding inside, with its cause. -/
def finding? : Failure → Option (Finding × Option Failure)
  | .plain _ => none
  | .finding f => some (f, none)
  | .caused f cause => some (f, some cause)
  | .context _ inner => inner.finding?
  | .both a b => a.finding?.or b.finding?

/-- The failure of a finding with the cause it has, if any. -/
def ofFinding (f : Finding) : Option Failure → Failure
  | none => .finding f
  | some cause => .caused f cause

/-- The code of the first finding inside; the empty code if there is none. -/
def code (e : Failure) : Code :=
  match e.finding? with
  | some (f, _) => f.code
  | none => ⟨""⟩

/-- Has one of the parts the code? -/
def hasCode (e : Failure) (c : Code) : Bool := e.parts.any (fun p => p.code = c)

/-- Is the second failure the first one, or somewhere below it? -/
def mentions (e target : Failure) : Bool :=
  e = target ||
    match e with
    | .plain _ => false
    | .finding _ => false
    | .caused _ cause => cause.mentions target
    | .context _ inner => inner.mentions target
    | .both a b => a.mentions target || b.mentions target

/-- Two failures together, either of which may be missing. -/
def append : Option Failure → Option Failure → Option Failure
  | none, b => b
  | a, none => a
  | some a, some b => some (.both a b)

/-- All failures of a list together. -/
def combine (l : List Failure) : Option Failure :=
  l.foldl (fun acc e => append acc (some e)) none

/-- The parts of what may be a failure. -/
def partsOf : Option Failure → List Failure
  | none => []
  | some e => e.parts

@[simp] theorem append_none (a : Option Failure) : append a none = a := by cases a <;> rfl

@[simp] theorem parts_both (a b : Failure) : (both a b).parts = a.parts ++ b.parts := rfl

/-- **Putting together loses nothing and reorders nothing.** -/
theorem partsOf_append (a b : Option Failure) :
    partsOf (append a b) = partsOf a ++ partsOf b := by
  cases a <;> cases b <;> simp [append, partsOf]

end Failure

/-- The result of an operation that may fail. -/
abbrev Outcome (α : Type) := Except Failure α

/-- Fails with a finding. -/
def reject {α : Type} (f : Finding) : Outcome α := .error (.finding f)

end ConstantTime
