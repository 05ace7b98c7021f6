/-
# What is known about a function

"Single-Path Constant-Time Transformation Engine", §12.7.

A dossier collects what the analyses find out about one function.  It starts
with the description and the configuration; every pass reads what earlier ones
wrote and adds its own result, also when a later check of that result fails.
-/

import ConstantTime.Access.Decision
import ConstantTime.Description.Function
import ConstantTime.Dominance.Table
import ConstantTime.Predicate.Basic
import ConstantTime.Schedule.Greedy

namespace ConstantTime

/-- The results of the analyses of a function. -/
structure Dossier where
  description : FunctionDescription
  config : Config
  graph : Option Graph := none
  bounds : BoundTable := ∅
  /-- The bounded dominators from the entry. -/
  dominators : DominatorTable := ∅
  /-- Could no bounded dominators be established? -/
  softFailure : Bool := false
  /-- The blocks that execute a fixed number of times before the end. -/
  constantLoop : Option DominatorTable := none
  postdominators : Option Postdominators := none
  dependences : Dependences := ∅
  classes : Option Classes := none
  /-- The root of each class. -/
  roots : List (Option BlockId) := []
  decision : Option Decision := none
  /-- The schedule of each block that has one. -/
  schedules : List (Option Schedule) := []
  warnings : List Finding := []
deriving DecidableEq, Inhabited

namespace Dossier

/-- The name of the function. -/
def name (d : Dossier) : String := d.description.name

/-- Is the number of iterations of a loop fixed? -/
def isConstant (d : Dossier) (header : BlockId) : Bool :=
  (d.bounds.get? header).any Bound.isConstant

/-- The bound of a loop; a header without one has no iterations. -/
def bound (d : Dossier) (header : BlockId) : Bound := d.bounds.getD header ⟨0, 0⟩

/-- Notes a warning. -/
def warn (d : Dossier) (f : Finding) : Dossier := { d with warnings := d.warnings ++ [f] }

/-- When an instruction of a block is executed. -/
def predicate (d : Dossier) (b : BlockId) (i : Instr) : Predicate :=
  if i.unpredicated then .always
  else
    match d.classes.bind fun cs => cs.classOf b with
    | none => .always
    | some c => .on c i.negated

/-- May two instructions of a block be executed together?  Without classes
nothing is known, so they may. -/
def oracle (d : Dossier) (g : Graph) (b : BlockId) (l : List Instr) : Oracle :=
  match d.classes with
  | none => fun _ _ => true
  | some cs => fun x y =>
    Predicate.dependent (cs.related g) (d.predicate b (Instr.nth l x))
      (d.predicate b (Instr.nth l y))

/-- What the schedule of a block is made from. -/
def issueProblem (d : Dossier) (g : Graph) (b : BlockId) (l : List Instr) : IssueProblem where
  size := l.length
  traits := Instr.traits l
  slots := if d.config.dualIssue then some (Instr.slots l d.config.permissiveDualIssue) else none
  oracle := d.oracle g b l

/-- The instructions of a block that are there. -/
def instrsOf (d : Dossier) (b : BlockId) : List Instr :=
  match d.description.block? b with
  | none => []
  | some blk => blk.instrs.filterMap id

/-- The bundles of a block, with those that delayed instructions leave empty. -/
def bundles (d : Dossier) (b : BlockId) : Except String (List (Int × Int)) :=
  match (d.schedules[b.toNat]?).join with
  | none => .ok []
  | some s => s.withDelaySlots fun i => (Instr.nth (d.instrsOf b) i.toNat).needsDelaySlots

end Dossier
end ConstantTime
