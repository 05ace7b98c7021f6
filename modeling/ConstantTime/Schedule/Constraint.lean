/-
# Constraints between the instructions of a block

"Single-Path Constant-Time Transformation Engine", §4.5 and §12.6.

A constraint from `p` to a later instruction `i` is a least distance between
their issue cycles.

| because                              | distance                              |
|--------------------------------------|---------------------------------------|
| `i` reads what `p` writes (strong)   | latency of `p`, plus 1 unless a call  |
| `i` writes what `p` reads            | 0, or 1 if `p` is a call              |
| `i` writes what `p` writes           | 1                                     |
| both touch memory                    | 1                                     |
| `p` is the branch before `i`         | 1                                     |
| `i` is the branch after `p`          | 0                                     |

Constant operands constrain nothing.  Looking back for the instruction that
wrote an operand, instructions that are never enabled together with `i` are
passed over.
-/

import ConstantTime.Ordered.Map
import ConstantTime.Schedule.Traits

namespace ConstantTime

/-- A least distance between issue cycles. -/
structure Constraint where
  distance : Int64
  /-- Must the result be there, rather than the instruction issued? -/
  strong : Bool := false
deriving DecidableEq, Repr, Inhabited

namespace Constraint

/-- Both constraints at once. -/
def merge (a b : Constraint) : Constraint :=
  ⟨if a.distance < b.distance then b.distance else a.distance, a.strong || b.strong⟩

end Constraint

/-- For each instruction, its constraints by the earlier instruction. -/
structure ConstraintGraph where
  preds : List (OrderedMap Nat Constraint)

namespace ConstraintGraph

/-- The last instruction before `i` that matches and may be enabled with `i`. -/
def lastDependent (oracle : Oracle) (i : Nat) (p : Nat → Bool) : Option Nat :=
  (List.range i).reverse.find? fun q => p q && oracle i q

/-- The branch before `i`. -/
def lastBranch (t : Traits) (i : Nat) : Option Nat :=
  (List.range i).reverse.find? t.isBranch

/-- The instructions before `i` that come after an instruction, if given. -/
def since (after : Option Nat) (i : Nat) : List Nat :=
  (List.range i).filter fun p => after.all (· < p)

/-- After the branch before. -/
def branchOrder (t : Traits) (i : Nat) : List (Nat × Constraint) :=
  ((lastBranch t i).map fun b => (b, ⟨1, false⟩)).toList

/-- After the memory access before. -/
def memoryOrder (t : Traits) (oracle : Oracle) (i : Nat) : List (Nat × Constraint) :=
  if t.isMemory i then
    ((lastDependent oracle i t.isMemory).map fun p => (p, ⟨1, false⟩)).toList
  else []

/-- After the results that are read. -/
def resultOrder (t : Traits) (oracle : Oracle) (i : Nat) : List (Nat × Constraint) :=
  (t.variableReads i).filterMap fun op =>
    (lastDependent oracle i fun p => t.writesOp p op).map fun p =>
      (p, ⟨if t.isCall i then t.latency p else t.latency p + 1, true⟩)

/-- After what wrote or read an operand that is written. -/
def overwriteOrder (t : Traits) (oracle : Oracle) (i : Nat) : List (Nat × Constraint) :=
  (t.variableWrites i).flatMap fun op =>
    let writer := lastDependent oracle i fun p => t.writesOp p op
    let readers := (since writer i).filter fun p => t.readsOp p op && oracle i p
    (writer.map fun w => (w, ⟨1, false⟩)).toList ++
      readers.map fun p => (p, ⟨if t.isCall p then 1 else 0, false⟩)

/-- A branch after everything since the branch before. -/
def branchGather (t : Traits) (i : Nat) : List (Nat × Constraint) :=
  if t.isBranch i then (since (lastBranch t i) i).map fun p => (p, ⟨0, false⟩) else []

/-- All constraints on an instruction. -/
def constraintsOn (t : Traits) (oracle : Oracle) (i : Nat) : List (Nat × Constraint) :=
  branchOrder t i ++ memoryOrder t oracle i ++ resultOrder t oracle i ++
    overwriteOrder t oracle i ++ branchGather t i

/-- Adds a constraint to those there are. -/
def addTo (m : OrderedMap Nat Constraint) (e : Nat × Constraint) : OrderedMap Nat Constraint :=
  m.insert e.1 (match m.get? e.1 with
    | some old => e.2.merge old
    | none => e.2)

/-- The constraints between `n` instructions. -/
def ofTraits (n : Nat) (t : Traits) (oracle : Oracle) : ConstraintGraph :=
  ⟨(List.range n).map fun i => (constraintsOn t oracle i).foldl addTo ∅⟩

/-- The number of instructions. -/
def size (g : ConstraintGraph) : Nat := g.preds.length

/-- The constraints on an instruction. -/
def predsOf (g : ConstraintGraph) (i : Nat) : OrderedMap Nat Constraint := g.preds[i]?.getD ∅

/-- The instructions constrained by an instruction, ascending. -/
def succsOf (g : ConstraintGraph) (p : Nat) : List Nat :=
  (List.range g.size).filter fun i => (g.predsOf i).contains p

/-- The instructions without constraints. -/
def roots (g : ConstraintGraph) : List Nat :=
  (List.range g.size).filter fun i => (g.predsOf i).isEmpty

/-- The constraints, a line for each instruction. -/
def text (g : ConstraintGraph) : String :=
  String.join (g.preds.zipIdx.map fun (m, i) =>
    let parts := m.entries.map fun (p, c) =>
      let kind := if c.strong then "strong" else "weak"
      s!"{p}/{kind}/{c.distance}"
    let row := String.intercalate ", " parts
    s!"{i}: [{row}]\n")

end ConstraintGraph
end ConstantTime
