/-
# Tables of dominators

"Single-Path Constant-Time Transformation Engine", §3 and §12.2.

The analyses of this folder answer with a table: for some blocks, the set of
blocks that dominate them in the sense of the analysis.  A table without
entries means that the analysis could not establish any.
-/

import ConstantTime.Graph.Region

namespace ConstantTime

/-- For some blocks, their dominators. -/
abbrev DominatorTable := OrderedMap BlockId BlockSet

namespace DominatorTable

/-- The dominators of a block; none if the table does not list it. -/
def of (m : DominatorTable) (b : BlockId) : BlockSet := m.getD b ∅

theorem mem_of {m : DominatorTable} {b d : BlockId} :
    d ∈ m.of b ↔ ∃ row, m.get? b = some row ∧ d ∈ row := by
  unfold of OrderedMap.getD
  cases m.get? b with
  | none => simp [OrderedSet.not_mem_empty]
  | some row => simp

/-- Does the table list `d` as a dominator of `b`? -/
def dominates (m : DominatorTable) (d b : BlockId) : Bool := d ∈ m.of b

/-- The table on one line, with the names of the blocks. -/
def text (m : DominatorTable) (g : Shape) : String :=
  String.intercalate "; " (m.entries.map fun (b, s) =>
    let names := String.intercalate ", " (s.toList.map g.nameOf)
    g.nameOf b ++ ": \x7b" ++ names ++ "\x7d")

end DominatorTable

/-- Which loop headers have a constant number of iterations. -/
abbrev ConstantBounds := BlockId → Bool

/-- How many steps an iteration may take unless a configuration says otherwise. -/
def defaultStepLimit : Int64 := 10000

end ConstantTime
