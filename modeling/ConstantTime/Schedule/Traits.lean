/-
# What scheduling asks about instructions

"Single-Path Constant-Time Transformation Engine", §4.5 and §12.6.

The instructions of a block are numbered from 0.  The scheduler knows them only
by what `Traits` says: which operands they read and write, how long their
results take, whether they touch memory, branch or call.  With dual issue,
`Slots` says which instructions may share a bundle.

Where nothing is said, an instruction reads and writes nothing, takes no extra
time, and may take any slot.

Latencies are 64-bit words, and so is what is computed from them: a sum that
leaves the range of a word wraps around.
-/

namespace ConstantTime

/-- An operand of an instruction. -/
abbrev Operand := String

/-- What is known about the instructions of a block. -/
structure Traits where
  reads : Nat → List Operand := fun _ => []
  writes : Nat → List Operand := fun _ => []
  /-- May nobody touch what the instruction writes until the result is there? -/
  poisons : Nat → Bool := fun _ => false
  isMemory : Nat → Bool := fun _ => false
  /-- Extra cycles until the result is there; with 0 it is there in the next. -/
  latency : Nat → Int64 := fun _ => 0
  isConstant : Operand → Bool := fun _ => false
  isBranch : Nat → Bool := fun _ => false
  isCall : Nat → Bool := fun _ => false

namespace Traits

/-- Does the instruction read the operand? -/
def readsOp (t : Traits) (i : Nat) (op : Operand) : Bool := op ∈ t.reads i

/-- Does the instruction write the operand? -/
def writesOp (t : Traits) (i : Nat) (op : Operand) : Bool := op ∈ t.writes i

/-- The operands read that can carry a dependence. -/
def variableReads (t : Traits) (i : Nat) : List Operand :=
  (t.reads i).filter fun op => !t.isConstant op

/-- The operands written that can carry a dependence. -/
def variableWrites (t : Traits) (i : Nat) : List Operand :=
  (t.writes i).filter fun op => !t.isConstant op

/-- The latency that counts for priority: none if only constants are touched. -/
def effectiveLatency (t : Traits) (i : Nat) : Int64 :=
  if (t.variableReads i).isEmpty && (t.variableWrites i).isEmpty then 0 else t.latency i

/-- The operands nobody may touch while the instruction executes. -/
def poisoned (t : Traits) (i : Nat) : List Operand :=
  if t.poisons i && t.latency i ≠ 0 then t.variableWrites i else []

end Traits

/-- Which instructions may share a bundle. -/
structure Slots where
  maySecond : Nat → Bool := fun _ => true
  /-- Does the instruction fill a bundle alone? -/
  isLong : Nat → Bool := fun _ => false
  mayBundle : Nat → Nat → Bool := fun _ _ => true

/-- May two instructions be enabled in the same execution? -/
abbrev Oracle := Nat → Nat → Bool

end ConstantTime
