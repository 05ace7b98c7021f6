/-
# Instructions

"Single-Path Constant-Time Transformation Engine", §6 and §12.6.

An instruction is described by its operands, its latency and what kind it is.
Everything the scheduler and the access analysis ask is read off the
description; `traits` and `slots` answer for the instructions of one block by
their numbers.

Two registers hold constants, so that reading and writing them orders nothing.
-/

import ConstantTime.Schedule.Traits

namespace ConstantTime

/-- The registers that hold constants: zero, and the predicate that always
holds. -/
def constantRegisters : List Operand := ["r0", "p0"]

/-- Does the operand hold a constant? -/
def isConstantOperand (op : Operand) : Bool := op ∈ constantRegisters

/-- An instruction. -/
structure Instr where
  op : String := ""
  reads : List Operand := []
  writes : List Operand := []
  /-- Extra cycles until the result is there. -/
  latency : Int64 := 0
  isLoad : Bool := false
  isStore : Bool := false
  isCall : Bool := false
  isReturn : Bool := false
  isBranch : Bool := false
  /-- Does a transfer of control take effect late? -/
  isDelayed : Bool := false
  /-- Does it fill a bundle alone? -/
  isLong : Bool := false
  /-- May it only take the first slot? -/
  firstSlot : Bool := false
  nonBundleable : Bool := false
  /-- Is it executed when the predicate of its block is clear? -/
  negated : Bool := false
  /-- Is it always executed? -/
  unpredicated : Bool := false
deriving DecidableEq, Repr, Inhabited

namespace Instr

/-- May nobody touch the result until it is there? -/
def poisons (i : Instr) : Bool := i.isLoad

/-- Is it ordered with accesses to memory? -/
def touchesMemory (i : Instr) : Bool := i.isLoad || i.isStore || i.isCall || i.isReturn

/-- Does what follows depend on it? -/
def endsBlock (i : Instr) : Bool := i.isBranch || i.isReturn

/-- Does its time depend on the memory? -/
def hasVariableLatency (i : Instr) : Bool := i.isLoad || i.isStore

/-- Do empty bundles have to follow it? -/
def needsDelaySlots (i : Instr) : Bool := i.isDelayed && (i.isBranch || i.isCall || i.isReturn)

/-- The instruction as text. -/
def text (i : Instr) : String :=
  let writes := if i.writes.isEmpty then "" else String.intercalate ", " i.writes ++ " = "
  let reads := if i.reads.isEmpty then "" else " " ++ String.intercalate ", " i.reads
  writes ++ i.op ++ reads

/-- May it take the second slot?  Accesses to memory and transfers of control may
not, unless everything may. -/
def maySecond (permissive : Bool) (i : Instr) : Bool :=
  !(i.isLong || i.firstSlot) && (permissive || !(i.touchesMemory || i.endsBlock))

/-- The instruction with a number; an empty one if there is none. -/
def nth (l : List Instr) (i : Nat) : Instr := l[i]?.getD {}

/-- What scheduling asks about the instructions of a block. -/
def traits (l : List Instr) : Traits where
  reads i := (nth l i).reads
  writes i := (nth l i).writes
  poisons i := (nth l i).poisons
  isMemory i := (nth l i).touchesMemory
  latency i := (nth l i).latency
  isConstant := isConstantOperand
  isBranch i := (nth l i).endsBlock
  isCall i := (nth l i).isCall

/-- Which instructions of a block may share a bundle. -/
def slots (l : List Instr) (permissive : Bool) : Slots where
  maySecond i := (nth l i).maySecond permissive
  isLong i := (nth l i).isLong
  mayBundle a b := !(nth l a).nonBundleable && !(nth l b).nonBundleable

end Instr
end ConstantTime
