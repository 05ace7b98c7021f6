/-
# What the bounded analysis explores

From the start of a region the exploration follows the edges on the level of the
region and, at the header of an inner loop, the ways out of that loop
(`mem_explored_of_level`, `mem_explored_of_child`).

The exploration of a loop may also leave it: an inner loop may have a way out
to the header of a loop beside the region.  Nothing else outside is explored
(`region_cases`), and what is explored there lies after the start
(`place_region`).
-/

import ConstantTime.Dominance.Bounded
import ConstantTime.Proofs.Graph.Closure
import ConstantTime.Proofs.Graph.Passes

namespace ConstantTime
namespace Graph

variable {g : Graph} {o : Option LoopId} {c l m : LoopId} {b h q t x : BlockId}

namespace Checked

variable (hg : g.Checked)
include hg

open Bounded

theorem mem_exitTargets (hl : l < g.loops.length) :
    t ∈ exitTargets g (g.header l) ↔ ∃ x, g.Within l x ∧ t ∈ g.succs x ∧ ¬ g.Within l t := by
  obtain ⟨L, hL⟩ := exists_loop hl
  simp only [exitTargets, hg.headedBy_header hl, Option.bind_some, hL, List.mem_map]
  constructor
  · rintro ⟨⟨x, t⟩, he, rfl⟩
    exact ⟨x, (hg.mem_exits hL).1 he⟩
  · rintro ⟨x, hx⟩
    exact ⟨⟨x, t⟩, (hg.mem_exits hL).2 hx, rfl⟩

theorem isInner_header (hl : l < g.loops.length) (hne : g.header l ≠ h) :
    isInner g h (g.header l) = true := by
  simp [isInner, hne, isHeader, hg.headedBy_header hl]

/-- The loops inside a region are met at their headers. -/
theorem isInner_iff :
    isInner g h b = true ↔ b ≠ h ∧ ∃ l, l < g.loops.length ∧ g.header l = b := by
  rw [isInner, Bool.and_eq_true, decide_eq_true_eq, hg.isHeader_iff]

theorem isInner_eq_false (hh : g.IsStart o h) (hb : g.loopOf b = o) : isInner g h b = false := by
  by_contra hinner
  rw [Bool.not_eq_false, hg.isInner_iff] at hinner
  obtain ⟨hne, l, hl, rfl⟩ := hinner
  rw [hg.loopOf_header hl] at hb
  subst hb
  exact hne hh.2.symm

theorem mem_explored_of_level (hh : g.IsStart o h) (hq : g.loopOf q = o) :
    b ∈ explored g h q ↔ b ∈ g.succs q ∧ g.Inside o b ∧ (o.isSome = true → b ≠ h) := by
  rw [explored, hg.isInner_eq_false hh hq, if_neg Bool.false_ne_true, List.mem_filter, leavesLoop,
    hq]
  refine and_congr_right fun _ => ?_
  cases o with
  | none => simp
  | some l =>
    obtain ⟨-, rfl⟩ := hh
    have hcomm : g.headerOf (some l) = b ↔ b = g.header l := eq_comm
    simp [inside_some, contains_eq, hcomm]

theorem staysNear_iff (hh : g.IsStart o h) :
    staysNear g h t = true ↔ g.depth t = g.loopDepth o ∨ g.depth t = g.loopDepth o + 1 := by
  rw [staysNear, depth_of_level (hg.loopOf_start hh), Bool.or_eq_true, decide_eq_true_eq,
    decide_eq_true_eq]

theorem mem_explored_of_header (hh : g.IsStart o h) (hl : l < g.loops.length)
    (hne : g.header l ≠ h) :
    t ∈ explored g h (g.header l) ↔
      (∃ x, g.Within l x ∧ t ∈ g.succs x ∧ ¬ g.Within l t) ∧
        (g.depth t = g.loopDepth o ∨ g.depth t = g.loopDepth o + 1) := by
  rw [explored, hg.isInner_header hl hne, if_pos rfl, List.mem_filter, hg.mem_exitTargets hl,
    hg.staysNear_iff hh]

theorem mem_explored_of_child (hh : g.IsStart o h) (hc : g.IsChild o c) (hq : g.Within c q)
    (hs : b ∈ g.succs q) (hout : ¬ g.Within c b) (hb : g.Inside o b) :
    b ∈ explored g h (g.header c) := by
  rw [hg.mem_explored_of_header hh hc.1 (hg.header_child_ne hh hc)]
  exact ⟨⟨q, hq, hs, hout⟩, hg.depth_node (hg.isNode_of_edge hb hs (.inr ⟨c, hc, hq, hout⟩))⟩

/-- A way out of an inner loop that leads far away is an end. -/
theorem mem_endsAt_header (hl : l < g.loops.length) (hne : g.header l ≠ h) (hx : g.Within l x)
    (hs : t ∈ g.succs x) (ht : ¬ g.Within l t) (hfar : staysNear g h t = false) :
    t ∈ endsAt g h (g.header l) := by
  obtain ⟨y, hy⟩ := hg.exists_succ_of_within (hg.within_header hl)
  have hempty : (g.succs (g.header l)).isEmpty = false := by
    rw [List.isEmpty_eq_false_iff]
    exact List.ne_nil_of_mem hy
  rw [endsAt, hempty, if_neg Bool.false_ne_true, hg.isInner_header hl hne, if_pos rfl,
    List.mem_filter, hg.mem_exitTargets hl, hfar]
  exact ⟨⟨x, hx, hs, ht⟩, rfl⟩

/-- A block on the level of a loop that is left from it is an end. -/
theorem mem_endsAt_level (hh : g.IsStart (some l) h) (hx : g.loopOf x = some l)
    (hs : t ∈ g.succs x) (ht : ¬ g.Within l t) : x ∈ endsAt g h x := by
  have hempty : (g.succs x).isEmpty = false := by
    rw [List.isEmpty_eq_false_iff]
    exact List.ne_nil_of_mem hs
  have hleaves : (g.succs x).any (leavesLoop g x) = true := by
    refine List.any_eq_true.2 ⟨t, hs, ?_⟩
    simp [leavesLoop, hx, contains_eq, ht]
  rw [endsAt, hempty, if_neg Bool.false_ne_true, hg.isInner_eq_false hh hx,
    if_neg Bool.false_ne_true, if_pos hleaves]
  exact List.mem_singleton.2 rfl

theorem place_start_le (hh : g.IsStart o h) (hb : g.Inside o b) : g.place h ≤ g.place b := by
  cases o with
  | none =>
    obtain rfl : h = g.entry := hh
    rw [hg.place_entry]
    omega
  | some l =>
    obtain ⟨-, rfl⟩ := hh
    exact hg.place_header_le hb

/-- **What is explored** are nodes of the region and, after its start, headers of
loops beside it. -/
theorem region_cases (hh : g.IsStart o h) :
    ∀ b ∈ region g h, (g.Inside o b ∧ g.IsNode o b) ∨ (g.IsBeside o b ∧ g.place h ≤ g.place b) := by
  -- A way out of a loop that was come to later, as deep as the region itself.
  have beside : ∀ l n x t, o = some l → g.place h ≤ g.place (g.header n) → n < g.loops.length →
      g.parent (some n) = g.parent (some l) → g.loopDepth (some n) = g.loopDepth o →
      g.Within n x → t ∈ g.succs x → ¬ g.Within n t →
      (g.depth t = g.loopDepth o ∨ g.depth t = g.loopDepth o + 1) →
      g.IsBeside o t ∧ g.place h ≤ g.place t := by
    intro l n x t ho hplace hn hpar hdepth hx hs ht hnear
    obtain ⟨k, hk, rfl, hpk, hkx⟩ := hg.beside_of_exit hx hs ht (by omega)
    refine ⟨⟨l, k, ho, hk, hpk.trans hpar, rfl⟩, ?_⟩
    have hfwd : ¬ g.place (g.header k) ≤ g.place x := fun hle =>
      hkx (hg.within_of_retreats hk ⟨hs, hle⟩)
    have := hg.place_header_le hx
    omega
  refine breadthFirst_induction ?_ fun a b ha hb => ?_
  · have hlevel := hg.loopOf_start hh
    exact .inl ⟨hg.inside_of_level hlevel, .inl hlevel⟩
  rcases ha with ⟨hin, hlevel | ⟨c, hc, rfl⟩⟩ | ⟨⟨l, n, ho, hn, hpar, rfl⟩, hplace⟩
  · obtain ⟨hs, hinb, -⟩ := (hg.mem_explored_of_level hh hlevel).1 hb
    exact .inl ⟨hinb, hg.isNode_of_edge hinb hs (.inl hlevel)⟩
  · obtain ⟨⟨x, hx, hs, hout⟩, hnear⟩ :=
      (hg.mem_explored_of_header hh hc.1 (hg.header_child_ne hh hc)).1 hb
    by_cases hinb : g.Inside o b
    · exact .inl ⟨hinb, hg.isNode_of_edge hinb hs (.inr ⟨c, hc, hx, hout⟩)⟩
    · cases o with
      | none => simp at hinb
      | some l =>
        obtain ⟨hl, rfl⟩ := hh
        exact .inr (beside l l x b rfl (Nat.le_refl _) hl rfl rfl (hg.inside_of_child hc hx) hs hinb
          hnear)
  · by_cases hne : g.header n = h
    · -- The start itself may have been come to again.
      rw [hne] at hb
      have hlevel := hg.loopOf_start hh
      obtain ⟨hs, hinb, -⟩ := (hg.mem_explored_of_level hh hlevel).1 hb
      exact .inl ⟨hinb, hg.isNode_of_edge hinb hs (.inl hlevel)⟩
    · obtain ⟨⟨x, hx, hs, hout⟩, hnear⟩ := (hg.mem_explored_of_header hh hn hne).1 hb
      have hdepth : g.loopDepth (some n) = g.loopDepth o := by
        subst ho
        exact hg.loopDepth_eq_of_parent_eq hn hh.1 hpar
      exact .inr (beside l n x b ho hplace hn hpar hdepth hx hs hout hnear)

/-- What is explored is as deep as the start or one deeper. -/
theorem depth_region (hh : g.IsStart o h) (hb : b ∈ region g h) :
    g.depth b = g.loopDepth o ∨ g.depth b = g.loopDepth o + 1 := by
  rcases hg.region_cases hh b hb with ⟨-, hnode⟩ | ⟨⟨l, n, rfl, hn, hpar, rfl⟩, -⟩
  · exact hg.depth_node hnode
  · exact .inl (by rw [hg.depth_header hn, hg.loopDepth_eq_of_parent_eq hn hh.1 hpar])

theorem place_region (hh : g.IsStart o h) (hb : b ∈ region g h) : g.place h ≤ g.place b := by
  rcases hg.region_cases hh b hb with ⟨hin, -⟩ | ⟨-, hplace⟩
  · exact hg.place_start_le hh hin
  · exact hplace

theorem mem_ids_of_mem_explored (hb : b ∈ explored g h x) : b ∈ g.ids := by
  rw [explored] at hb
  split at hb
  · next hinner =>
    obtain ⟨-, l, hl, rfl⟩ := hg.isInner_iff.1 hinner
    obtain ⟨x, -, hs, -⟩ := (hg.mem_exitTargets hl).1 (List.mem_filter.1 hb).1
    exact hg.wellFormed.isBlock_of_mem_succs hs
  · exact hg.wellFormed.isBlock_of_mem_succs (List.mem_filter.1 hb).1

theorem mem_ids_of_mem_region (hh : g.IsStart o h) : ∀ b ∈ region g h, b ∈ g.ids :=
  breadthFirst_induction (hg.start_mem_ids hh) fun _ _ _ => hg.mem_ids_of_mem_explored

/-- **Everything that can be explored is.** -/
theorem region_closed (hh : g.IsStart o h) :
    h ∈ region g h ∧ ∀ a ∈ region g h, ∀ b ∈ explored g h a, b ∈ region g h :=
  breadthFirst_closed (fun _ _ _ => hg.mem_ids_of_mem_explored) (hg.start_mem_ids hh)

/-- **All nodes are explored.** -/
theorem mem_region_of_isNode (hh : g.IsStart o h) (hid : b ∈ g.ids) (hb : g.IsNode o b) :
    b ∈ region g h := by
  obtain ⟨hstart, hclosed⟩ := hg.region_closed hh
  refine (hg.node_induction hh (P := fun b => g.IsNode o b ∧ b ∈ region g h)
    ⟨hg.isNode_start hh, hstart⟩ ?_ hid hb).2
  rintro u s ⟨hu, hmem⟩ hs
  refine ⟨(hg.isNode_of_mem_regionSuccs hh hu hs).1, hclosed u hmem s ?_⟩
  rcases hu with hlevel | ⟨c, hc, rfl⟩
  · obtain ⟨hsucc, hin, hne⟩ := (hg.mem_regionSuccs_of_level hh hlevel).1 hs
    exact (hg.mem_explored_of_level hh hlevel).2 ⟨hsucc, hin, fun _ => hne⟩
  · obtain ⟨⟨x, hx, hsucc, hout⟩, hin, -⟩ := (hg.mem_regionSuccs_of_child hh hc).1 hs
    exact hg.mem_explored_of_child hh hc hx hsucc hout hin

end Checked
end Graph
end ConstantTime
