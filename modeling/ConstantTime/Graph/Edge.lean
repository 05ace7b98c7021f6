/-
# Blocks, edges and their order

"Single-Path Constant-Time Transformation Engine", §3 and §12.1.

Blocks are named by number.  The blocks of a graph have the numbers 0, 1, 2, …;
any other number, negative ones included, names no block of it, and a question
about such a number is answered as for a block that is not there.

A control dependence is an edge whose source may be the entry of its region
instead of a block.  Entry edges come first, then edges by source and target.
-/

import ConstantTime.Ordered.Map

namespace ConstantTime

/-- The number of a block. -/
abbrev BlockId := Int

/-- A set of blocks. -/
abbrev BlockSet := OrderedSet BlockId

namespace BlockId

/-- How a block is called when it has no name of its own. -/
def label (b : BlockId) : String := s!"bb{b}"

/-- Several blocks in ascending order, each as often as it is listed. -/
def sort (l : List BlockId) : List BlockId := l.mergeSort (· ≤ ·)

end BlockId

/-- An edge of a control-flow graph. -/
structure FlowEdge where
  source : BlockId
  target : BlockId
deriving DecidableEq, Repr, Inhabited

namespace FlowEdge

/-- The edge as text. -/
def text (e : FlowEdge) : String := s!"{e.source.label}->{e.target.label}"

/-- Edges are ordered by source, then by target. -/
instance : LT FlowEdge :=
  ⟨fun a b => a.source < b.source ∨ (a.source = b.source ∧ a.target < b.target)⟩

theorem lt_iff {a b : FlowEdge} :
    a < b ↔ a.source < b.source ∨ (a.source = b.source ∧ a.target < b.target) := Iff.rfl

instance : DecidableLT FlowEdge := fun a b =>
  inferInstanceAs (Decidable (a.source < b.source ∨ (a.source = b.source ∧ a.target < b.target)))

instance : LinearKey FlowEdge where
  irrefl a h := by rw [lt_iff] at h; lia
  trans h₁ h₂ := by rw [lt_iff] at *; lia
  connex {a b} h hne := by
    rw [lt_iff] at *
    have : ¬ (a.source = b.source ∧ a.target = b.target) := by
      rintro ⟨h₁, h₂⟩; cases a; cases b; cases h₁; cases h₂; exact hne rfl
    lia

end FlowEdge

/-- Where a control dependence comes from. -/
inductive Origin where
  /-- The entry of the function or loop. -/
  | entry
  /-- A block that branches. -/
  | block (b : BlockId)
deriving DecidableEq, Repr, Inhabited

namespace Origin

/-- The origin as text. -/
def text : Origin → String
  | .entry => "entry"
  | .block b => b.label

/-- The block of an origin that is one. -/
def block? : Origin → Option BlockId
  | .entry => none
  | .block b => some b

/-- Entry first, then blocks by number. -/
def before : Origin → Origin → Prop
  | .entry, .entry => False
  | .entry, .block _ => True
  | .block _, .entry => False
  | .block a, .block b => a < b

instance : DecidableRel before
  | .entry, .entry => inferInstanceAs (Decidable False)
  | .entry, .block _ => inferInstanceAs (Decidable True)
  | .block _, .entry => inferInstanceAs (Decidable False)
  | .block a, .block b => inferInstanceAs (Decidable (a < b))

end Origin

/-- A control dependence: which way out of the origin it takes. -/
structure Dependence where
  origin : Origin
  target : BlockId
deriving DecidableEq, Repr, Inhabited

namespace Dependence

/-- The dependence as text. -/
def text (d : Dependence) : String := s!"{d.origin.text}->{d.target.label}"

/-- Entry edges first, then by source and target. -/
instance : LT Dependence :=
  ⟨fun a b => a.origin.before b.origin ∨ (a.origin = b.origin ∧ a.target < b.target)⟩

theorem lt_iff {a b : Dependence} :
    a < b ↔ a.origin.before b.origin ∨ (a.origin = b.origin ∧ a.target < b.target) := Iff.rfl

instance : DecidableLT Dependence := fun a b =>
  inferInstanceAs
    (Decidable (a.origin.before b.origin ∨ (a.origin = b.origin ∧ a.target < b.target)))

instance : LinearKey Dependence where
  irrefl a h := by
    rcases a with ⟨_ | s, t⟩ <;> simp [lt_iff, Origin.before] at h
  trans {a b c} h₁ h₂ := by
    rcases a with ⟨_ | s, t⟩ <;> rcases b with ⟨_ | s', t'⟩ <;> rcases c with ⟨_ | s'', t''⟩ <;>
      simp [lt_iff, Origin.before] at * <;> lia
  connex {a b} h hne := by
    rcases a with ⟨_ | s, t⟩ <;> rcases b with ⟨_ | s', t'⟩ <;>
      simp [lt_iff, Origin.before] at * <;> lia

end Dependence

/-- A set of control dependences. -/
abbrev DependenceSet := OrderedSet Dependence

end ConstantTime
