/-
# Modules

"Single-Path Constant-Time Transformation Engine", §12.8.

A module is a list of functions.  `validate` accepts it if every function has a
name of its own, none is a root in both ways, and no block has a negative
number of accesses; it reports the first thing that is wrong.
-/

import ConstantTime.Description.Function

namespace ConstantTime

/-- A module. -/
structure ModuleDescription where
  name : String := ""
  /-- The functions, if the description mentions them. -/
  functions : Option (Listing FunctionDescription) := none
deriving DecidableEq, Repr, Inhabited

namespace ModuleDescription

/-- The functions. -/
def entries (m : ModuleDescription) : Listing FunctionDescription := m.functions.getD []

/-- The module as text. -/
def text (m : ModuleDescription) : String := s!"module {m.name} ({m.entries.length} functions)"

/-- The first function of a name. -/
def find? (m : ModuleDescription) (name : String) : Option FunctionDescription :=
  (m.entries.filterMap id).find? fun f => f.name = name

/-- Complains about the first block with a negative number of accesses. -/
def checkBlock (f : FunctionDescription) (b : Option BlockDescription) : Outcome Unit :=
  match b with
  | none => .ok ()
  | some b =>
    match b.accesses with
    | none => .ok ()
    | some n =>
      if n < 0 then
        reject ((Cause.negativeAccesses n).finding.inFunction f.name |>.atBlock b.name)
      else .ok ()

/-- Complains about a function at a position; `seen` are the names before it. -/
def checkFunction (seen : List String) (i : Nat) (f : Option FunctionDescription) :
    Outcome String :=
  match f with
  | none => reject (Cause.functionWithoutName i).finding
  | some f => do
    if f.name = "" then reject (Cause.functionWithoutName i).finding
    if f.name ∈ seen then reject (Cause.duplicateFunction f.name).finding
    if f.root && f.pseudoRoot then reject (Cause.bothRoots.finding.inFunction f.name)
    f.entries.forM (checkBlock f)
    return f.name

/-- Complains about the first function that is wrong. -/
def checkFunctions (seen : List String) (i : Nat) : Listing FunctionDescription → Outcome Unit
  | [] => .ok ()
  | f :: rest => do
    let name ← checkFunction seen i f
    checkFunctions (name :: seen) (i + 1) rest

/-- Complains about the first thing that is wrong. -/
def validate (m : ModuleDescription) : Outcome Unit := checkFunctions [] 0 m.entries

end ModuleDescription
end ConstantTime
