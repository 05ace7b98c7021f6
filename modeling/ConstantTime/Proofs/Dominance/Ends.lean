/-
# What the bounded analysis answers for the function

The analysis from the entry fails at its limit only (`Bounded.code_of_run`).  Its answer
has no entries exactly if some loop cannot be left, and otherwise an entry for each block
without successors and for no other (`Accepted.boundedDominators_ends`).

The function itself is not left, so every way out of a loop leads to one of its nodes, and
a node that has successors is no end (`Bounded.mem_endsAt_of_isNode`).  Inside a loop that
is not so: there an end may also be a block that leaves the loop, or the target of an edge
that leaves several loops at once.
-/

import ConstantTime.Proofs.Dominance.Exitless
import ConstantTime.Proofs.Dominance.Shrinking

namespace ConstantTime
namespace Bounded

variable {g : Graph} {constant : ConstantBounds} {limit : Int64} {b h x : BlockId} {f : Failure}
  {fuel : Nat}

/-! ### Failures -/

theorem code_of_ofRegion {inner : DominatorTable}
    (hm : ofRegion g constant limit h inner = .error f) : f.code = .notConverged := by
  simp only [ofRegion] at hm
  split at hm
  · cases hm
    exact Cause.finding_code _
  · cases hm

/-- **A run fails at its limit only.** -/
theorem code_of_run (hm : run g constant limit fuel h = .error f) : f.code = .notConverged := by
  induction fuel generalizing h f with
  | zero => cases hm
  | succ fuel ih =>
    rcases Outcome.bind_eq_error.1 hm with hm | ⟨table, -, hm⟩
    · refine Outcome.foldlM_error (f := addInner (run g constant limit fuel))
        (P := fun e => e.code = .notConverged) (fun table x e he => ?_) hm
      cases table with
      | none => cases he
      | some table =>
        rcases Outcome.bind_eq_error.1 he with he | ⟨r, -, he⟩
        · exact ih he
        · cases he
    · cases table with
      | none => cases hm
      | some inner => exact code_of_ofRegion hm

/-! ### The ends of the function -/

section Ends

variable (hg : g.Checked)
include hg

/-- A node of the function is an end if it has no successors, and nothing else is one. -/
theorem mem_endsAt_of_isNode (hx : g.IsNode none x) :
    b ∈ endsAt g g.entry x ↔ b = x ∧ g.succs x = [] := by
  have hh : g.IsStart none g.entry := rfl
  by_cases hsuccs : g.succs x = []
  · simp [endsAt, hsuccs]
  have hempty : (g.succs x).isEmpty = false := List.isEmpty_eq_false_iff.2 hsuccs
  rw [endsAt, hempty, if_neg Bool.false_ne_true]
  refine iff_of_false (fun hb => ?_) fun h => hsuccs h.2
  rcases hx with hlevel | ⟨c, hc, rfl⟩
  · -- outside all loops there is nothing to leave
    rw [hg.isInner_eq_false hh hlevel, if_neg Bool.false_ne_true] at hb
    simp [leavesLoop, hlevel] at hb
  · rw [hg.isInner_header hc.1 (hg.header_child_ne hh hc), if_pos rfl, List.mem_filter,
      hg.mem_exitTargets hc.1] at hb
    obtain ⟨⟨y, hy, hs, hout⟩, hfar⟩ := hb
    have hnode := hg.isNode_of_edge Graph.inside_none hs (.inr ⟨c, hc, hy, hout⟩)
    rw [(hg.staysNear_iff hh).2 (hg.depth_node hnode)] at hfar
    cases hfar

/-- **The ends of the function** are the blocks without successors. -/
theorem mem_ends_iff : b ∈ (region g g.entry).flatMap (endsAt g g.entry) ↔
    b ∈ g.ids ∧ g.succs b = [] := by
  have hh : g.IsStart none g.entry := rfl
  rw [List.mem_flatMap]
  constructor
  · rintro ⟨x, hx, hb⟩
    have hid := hg.mem_ids_of_mem_region hh x hx
    rcases hg.region_cases hh x hx with ⟨-, hnode⟩ | ⟨⟨l, -, hl, -⟩, -⟩
    · obtain ⟨rfl, hsuccs⟩ := (mem_endsAt_of_isNode hg hnode).1 hb
      exact ⟨hid, hsuccs⟩
    · cases hl
  · rintro ⟨hid, hsuccs⟩
    have hnode : g.IsNode none b := .inl (hg.loopOf_eq_none.2 (hg.not_within_end hsuccs))
    exact ⟨b, hg.mem_region_of_isNode hh hid hnode, (mem_endsAt_of_isNode hg hnode).2 ⟨rfl, hsuccs⟩⟩

end Ends
end Bounded

open Bounded in
/-- **What the bounded analysis answers.**  Unless it meets its limit it answers, for every
accepted graph and whatever the constant bounds are: with no entries at all if some loop
cannot be left, and otherwise with an entry for every block without successors and for no
other. -/
theorem Graph.Accepted.boundedDominators_ends {g : Graph} {constant : ConstantBounds}
    {limit : Int64} (hg : g.Accepted)
    (hlimit : ∀ f, g.boundedDominators constant limit g.entry = .error f → f.code ≠ .notConverged) :
    ∃ m, g.boundedDominators constant limit g.entry = .ok m ∧
      (m.isEmpty = true ↔ ∃ L ∈ g.loops, L.exits = []) ∧
      ((∀ L ∈ g.loops, L.exits ≠ []) →
        ∀ b, m.contains b = true ↔ b ∈ g.ids ∧ g.succs b = []) := by
  have hc := hg.checked
  cases hm : g.boundedDominators constant limit g.entry with
  | error f => exact absurd (code_of_run hm) (hlimit f hm)
  | ok m =>
    have hempty := boundedDominators_isEmpty_iff hc hm
    refine ⟨m, rfl, hempty, fun hexits b => ?_⟩
    have hne : m.isEmpty = false := by
      by_contra hne
      rw [Bool.not_eq_false, hempty] at hne
      obtain ⟨L, hL, hno⟩ := hne
      exact hexits L hL hno
    obtain ⟨fuel, inner, -, hanswered⟩ := exists_answered hm hne
    obtain ⟨doms, -, hends⟩ := ofRegion_eq_ok hanswered.result
    rw [OrderedMap.contains_iff, ← mem_ends_iff hc]
    exact ⟨fun ⟨s, hs⟩ => ((hends b s).1 hs).1, fun hb => ⟨_, (hends b _).2 ⟨hb, rfl⟩⟩⟩

/-- A loop in a loop, left for the function at once or for the outer loop, which is left for
a loop beside it. -/
def Graph.leftInSteps : Graph :=
  drawn 8 [(0, 1), (1, 2), (2, 3), (3, 2), (3, 6), (2, 4), (4, 1), (4, 5), (5, 5), (5, 7)]
    (by decide +kernel)

/-- The two blocks without successors have entries, and no others. -/
theorem Graph.boundedDominators_ends_leftInSteps :
    ∃ m, leftInSteps.boundedDominators (fun h => h = 2) 65 leftInSteps.entry = .ok m ∧
      ∀ b, m.contains b = true ↔ b = 6 ∨ b = 7 := by
  have hg : leftInSteps.Accepted := accepted_drawn _
  have hlimit : ((leftInSteps.size * leftInSteps.size + 1 : Nat) : Int) ≤ (65 : Int64).toInt := by
    decide +kernel
  obtain ⟨m, hm⟩ := exists_boundedDominators hg.checked hlimit fun h => h = 2
  obtain ⟨m', hm', -, hends⟩ := hg.boundedDominators_ends fun f hf => by
    rw [hm] at hf
    cases hf
  have hsuccs : ∀ b ∈ leftInSteps.ids, leftInSteps.succs b = [] ↔ b = 6 ∨ b = 7 := by
    decide +kernel
  refine ⟨m', hm', fun b => (hends (by decide +kernel) b).trans ⟨fun h => ?_, fun h => ?_⟩⟩
  · exact (hsuccs b h.1).1 h.2
  · have hid : b ∈ leftInSteps.ids := by
      rcases h with rfl | rfl <;> decide +kernel
    exact ⟨hid, (hsuccs b hid).2 h⟩

end ConstantTime
