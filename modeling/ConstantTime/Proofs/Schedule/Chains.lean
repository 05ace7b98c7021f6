/-
# Chains of constraints

A constraint graph links an instruction to the last one that wrote an operand, to
the readers since then, to the last memory access and to the branches next to it,
and to no other.  Where any two instructions may be enabled together these links
are enough: between two instructions that must not change places there is a chain
of them, over the writers in between (`chain_of_conflicts`) or over the branches
in between (`chain_of_branch`).
-/

import ConstantTime.Proofs.Schedule.Dependence
import Mathlib.Logic.Relation

namespace ConstantTime

namespace Traits

variable {t : Traits} {i q : Nat}

/-- The two instructions touch the same operand, and one of them writes it, or both
touch memory. -/
def Conflicts (t : Traits) (i q : Nat) : Prop :=
  t.ReadsResult i q ∨ t.Overwrites i q ∨ t.OverwritesRead i q ∨
    (t.isMemory i = true ∧ t.isMemory q = true)

theorem Conflicts.symm (h : t.Conflicts i q) : t.Conflicts q i := by
  rcases h with ⟨op, hop, hi, hq⟩ | ⟨op, hop, hi, hq⟩ | ⟨op, hop, hi, hq⟩ | ⟨hi, hq⟩
  · exact .inr (.inr (.inl ⟨op, hop, hq, hi⟩))
  · exact .inr (.inl ⟨op, hop, hq, hi⟩)
  · exact .inl ⟨op, hop, hq, hi⟩
  · exact .inr (.inr (.inr ⟨hq, hi⟩))

end Traits

namespace ConstraintGraph

variable {t : Traits} {oracle : Oracle} {i q w b : Nat} {op : Operand}

/-- The earlier instruction constrains the later one. -/
def Links (t : Traits) (oracle : Oracle) (q i : Nat) : Prop :=
  ∃ c, (q, c) ∈ constraintsOn t oracle i

/-- A chain of constraints leads from the earlier instruction to the later one. -/
abbrev Chain (t : Traits) (oracle : Oracle) : Nat → Nat → Prop :=
  Relation.TransGen (Links t oracle)

/-! ### Links -/

theorem links_of_write (hop : t.isConstant op = false) (hi : t.writesOp i op = true)
    (hw : lastDependent oracle i (fun p => t.writesOp p op) = some w) : Links t oracle w i :=
  ⟨_, mem_constraintsOn_writer hop hi hw⟩

theorem links_of_memory (hi : t.isMemory i = true)
    (hw : lastDependent oracle i t.isMemory = some w) : Links t oracle w i :=
  ⟨_, mem_constraintsOn_memory hi hw⟩

theorem links_of_lastBranch (hb : lastBranch t i = some b) : Links t oracle b i :=
  ⟨_, mem_constraintsOn_branch hb⟩

/-! ### Chains -/

section Always

variable (hall : ∀ a b, oracle a b = true)
include hall

/-- **A chain of last matches**, if each instruction that matches is linked to the
last one before it. -/
theorem chain_of_match {f : Nat → Bool}
    (hlast : ∀ i w, f i = true → lastDependent oracle i f = some w → Links t oracle w i)
    (hqi : q < i) (hi : f i = true) (hq : f q = true) : Chain t oracle q i := by
  induction i using Nat.strong_induction_on with
  | _ i ih =>
    obtain ⟨w, hw, hqw, hwi, hfw, -⟩ := exists_lastDependent hqi hq (hall i q)
    have hlink := hlast i w hi hw
    rcases Nat.eq_or_lt_of_le hqw with rfl | hqw
    · exact .single hlink
    · exact (ih w hwi hqw hfw).tail hlink

theorem chain_of_writes (hop : t.isConstant op = false) (hqi : q < i)
    (hi : t.writesOp i op = true) (hq : t.writesOp q op = true) : Chain t oracle q i :=
  chain_of_match (f := fun j => t.writesOp j op) hall (fun _ _ hi hw => links_of_write hop hi hw)
    hqi hi hq

/-- A reader is linked to the last writer, which comes after the writers before. -/
theorem chain_of_reads (hop : t.isConstant op = false) (hqi : q < i)
    (hi : t.readsOp i op = true) (hq : t.writesOp q op = true) : Chain t oracle q i := by
  obtain ⟨w, hw, hqw, -, hfw, -⟩ :=
    exists_lastDependent (f := fun j => t.writesOp j op) hqi hq (hall i q)
  have hlink : Links t oracle w i := ⟨_, mem_constraintsOn_result hop hi hw⟩
  rcases Nat.eq_or_lt_of_le hqw with rfl | hqw
  · exact .single hlink
  · exact (chain_of_writes hall hop hqw hfw hq).tail hlink

/-- A writer is linked to the readers since the last writer, and to that writer, which
comes after the readers before. -/
theorem chain_of_overwritesRead (hop : t.isConstant op = false) (hqi : q < i)
    (hi : t.writesOp i op = true) (hq : t.readsOp q op = true) : Chain t oracle q i := by
  induction i using Nat.strong_induction_on with
  | _ i ih =>
    by_cases hsince : q ∈ since (lastDependent oracle i fun j => t.writesOp j op) i
    · exact .single ⟨_, mem_constraintsOn_reader hop hi hsince hq (hall i q)⟩
    rw [mem_since] at hsince
    cases hw : lastDependent oracle i fun j => t.writesOp j op with
    | none => simp [hw, hqi] at hsince
    | some w =>
      have hqw : q ≤ w := by simpa [hw, hqi] using hsince
      obtain ⟨hwi, ⟨hfw, -⟩, -⟩ := lastDependent_eq_some.1 hw
      have hlink := links_of_write hop hi hw
      rcases Nat.eq_or_lt_of_le hqw with rfl | hqw
      · exact .single hlink
      · exact (ih w hwi hqw hfw).tail hlink

/-- **A chain leads between instructions in conflict.** -/
theorem chain_of_conflicts (hqi : q < i) (h : t.Conflicts i q) : Chain t oracle q i := by
  rcases h with ⟨op, hop, hi, hq⟩ | ⟨op, hop, hi, hq⟩ | ⟨op, hop, hi, hq⟩ | ⟨hi, hq⟩
  · exact chain_of_reads hall hop hqi hi hq
  · exact chain_of_writes hall hop hqi hi hq
  · exact chain_of_overwritesRead hall hop hqi hi hq
  · exact chain_of_match hall (fun _ _ hi hw => links_of_memory hi hw) hqi hi hq

end Always

theorem chain_to_branch (hqi : q < i) (hi : t.isBranch i = true) : Chain t oracle q i := by
  induction i using Nat.strong_induction_on with
  | _ i ih =>
    by_cases hsince : q ∈ since (lastBranch t i) i
    · exact .single ⟨_, mem_constraintsOn_gather hi hsince⟩
    rw [mem_since] at hsince
    cases hb : lastBranch t i with
    | none => simp [hb, hqi] at hsince
    | some b =>
      have hqb : q ≤ b := by simpa [hb, hqi] using hsince
      obtain ⟨hbi, hbranch, -⟩ := find?_back.1 hb
      have hlink : Links t oracle b i := links_of_lastBranch hb
      rcases Nat.eq_or_lt_of_le hqb with rfl | hqb
      · exact .single hlink
      · exact (ih b hbi hqb hbranch).tail hlink

/-- **A chain leads between a branch and every other instruction.** -/
theorem chain_of_branch (hqi : q < i) (h : t.isBranch q = true ∨ t.isBranch i = true) :
    Chain t oracle q i := by
  rcases h with hq | hi
  · cases hb : lastBranch t i with
    | none =>
      have := List.find?_eq_none.1 hb q (by simpa using hqi)
      exact absurd hq this
    | some b =>
      obtain ⟨hbi, hbranch, hlast⟩ := find?_back.1 hb
      have hlink : Links t oracle b i := links_of_lastBranch hb
      rcases Nat.lt_trichotomy q b with hqb | rfl | hbq
      · exact (chain_to_branch hqb hbranch).tail hlink
      · exact .single hlink
      · have := hlast q hbq hqi
        rw [hq] at this
        cases this
  · exact chain_to_branch hqi hi

end ConstraintGraph
end ConstantTime
