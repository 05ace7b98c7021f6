/-
# What an edge does to the loops around a block

An edge leaves some loops and enters at most one, and it enters that one at its
header.  So an amount kept for every loop around a block changes along an edge
by what was kept for the loops left and, where a loop is entered, by what is
kept for that loop (`Checked.aroundSum_of_stay`, `Checked.aroundSum_of_enter`).
-/

import ConstantTime.Proofs.Graph.Nesting
import Mathlib.Algebra.BigOperators.Group.List.Basic

namespace ConstantTime
namespace Graph

variable {M : Type} [AddCommMonoid M]

/-- The sum of an amount over the loops around a block. -/
def aroundSum (g : Graph) (f : LoopId → M) (b : BlockId) : M := ((g.around b).map f).sum

/-- The sum of an amount over the loops that an edge leaves. -/
def leftSum (g : Graph) (f : LoopId → M) (u v : BlockId) : M := ((g.loopsLeft u v).map f).sum

theorem sum_filter_add_sum_filter_not (p : LoopId → Bool) (f : LoopId → M) (ls : List LoopId) :
    ((ls.filter p).map f).sum + ((ls.filter fun l => !p l).map f).sum = (ls.map f).sum := by
  induction ls with
  | nil => simp
  | cons l ls ih =>
    rw [List.map_cons, List.sum_cons, ← ih]
    cases h : p l
    · simp only [h, Bool.false_eq_true, not_false_eq_true, List.filter_cons_of_neg, Bool.not_false,
        List.filter_cons_of_pos, List.map_cons, List.sum_cons]
      rw [add_left_comm]
    · simp [h, add_assoc]

theorem sum_map_update {f : LoopId → M} {l : LoopId} {d : M} {ls : List LoopId} (hls : ls.Nodup)
    (hl : l ∈ ls) : (ls.map (Function.update f l (f l + d))).sum = (ls.map f).sum + d := by
  induction ls with
  | nil => simp at hl
  | cons m ls ih =>
    obtain ⟨hm, hls⟩ := List.nodup_cons.1 hls
    rw [List.map_cons, List.sum_cons, List.map_cons, List.sum_cons]
    by_cases he : m = l
    · subst he
      have hrest : ls.map (Function.update f m (f m + d)) = ls.map f := by
        refine List.map_congr_left fun x hx => ?_
        have hne : x ≠ m := fun h => hm (h ▸ hx)
        rw [Function.update_of_ne hne]
      rw [hrest, Function.update_self, add_right_comm]
    · rw [Function.update_of_ne he, ih hls ((List.mem_cons.1 hl).resolve_left (Ne.symm he)),
        add_assoc]

/-- More for one of the loops around a block. -/
theorem aroundSum_update {g : Graph} {f : LoopId → M} {l : LoopId} {d : M} {b : BlockId}
    (h : g.Within l b) :
    g.aroundSum (Function.update f l (f l + d)) b = g.aroundSum f b + d :=
  sum_map_update (nodup_around ..) (mem_around.2 h)

namespace Checked

variable {g : Graph} (hg : g.Checked) {l : LoopId} {u v : BlockId} (f : LoopId → M)
include hg

/-- The loops around the source: those left, and those also around the target. -/
theorem leftSum_add (u v : BlockId) :
    g.leftSum f u v + (((g.around u).filter fun l => g.Within l v).map f).sum =
      g.aroundSum f u := by
  have hperm : (g.loopsLeft u v).Perm ((g.around u).filter fun l => !decide (g.Within l v)) := by
    refine ((hg.loopsAround_spec u).1.filter _).trans (List.Perm.of_eq (List.filter_congr ?_))
    intro l _
    rw [contains_eq]
  rw [leftSum, (hperm.map f).sum_eq, add_comm, sum_filter_add_sum_filter_not]
  rfl

/-- **An edge that enters no loop.** -/
theorem aroundSum_of_stay (h : ∀ l, g.Within l v → g.Within l u) :
    g.leftSum f u v + g.aroundSum f v = g.aroundSum f u := by
  have hkeep : (g.around u).filter (fun l => decide (g.Within l v)) = g.around v := by
    rw [around, List.filter_filter]
    refine List.filter_congr fun l _ => ?_
    rw [Bool.eq_iff_iff]
    simpa using fun hv => h l hv
  rw [← hg.leftSum_add f u v, hkeep]
  rfl

/-- **An edge that enters a loop.** -/
theorem aroundSum_of_enter (hv : g.Within l v) (hu : ¬ g.Within l u)
    (h : ∀ l', l' ≠ l → g.Within l' v → g.Within l' u) :
    g.leftSum f u v + g.aroundSum f v = g.aroundSum f u + f l := by
  have hsplit := sum_filter_add_sum_filter_not (fun l => g.Within l u) f (g.around v)
  have hnew : (g.around v).filter (fun l => !decide (g.Within l u)) = [l] := by
    refine List.perm_singleton.1 ((List.perm_ext_iff_of_nodup ((nodup_around ..).filter _)
      (List.nodup_singleton l)).2 fun l' => ?_)
    rw [List.mem_filter, mem_around, List.mem_singleton, Bool.not_eq_true', decide_eq_false_iff_not]
    constructor
    · rintro ⟨hl', hnot⟩
      by_contra hne
      exact hnot (h l' hne hl')
    · rintro rfl
      exact ⟨hv, hu⟩
  have hold : (g.around v).filter (fun l => decide (g.Within l u)) =
      (g.around u).filter fun l => decide (g.Within l v) := by
    rw [around, around, List.filter_filter, List.filter_filter]
    refine List.filter_congr fun l _ => Bool.and_comm ..
  rw [hnew, hold, List.map_singleton, List.sum_singleton] at hsplit
  rw [aroundSum, ← hsplit, ← add_assoc, hg.leftSum_add f u v]

/-- The loops around the target of an edge, unless it is their header, are
around the source. -/
theorem within_of_edge (hs : v ∈ g.succs u) (hv : g.Within l v)
    (h : g.header l = v → g.Retreats u v) : g.Within l u := by
  by_cases he : v = g.header l
  · exact hg.within_of_retreats (lt_of_within hv) (he ▸ h he.symm)
  · exact hg.within_of_succ hv he hs

theorem not_within_of_forward (hs : g.header l ∈ g.succs u) (h : ¬ g.Retreats u (g.header l)) :
    ¬ g.Within l u := fun hu => h (hg.retreats_of_within hu hs)

end Checked
end Graph
end ConstantTime
