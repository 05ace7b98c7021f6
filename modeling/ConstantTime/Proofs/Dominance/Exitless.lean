/-
# When the bounded analysis has no answer

"Single-Path Constant-Time Transformation Engine", §4.1 and §7.

The bounded analysis answers with no entries at all exactly if some loop of the graph
cannot be left (`boundedDominators_isEmpty_iff`).

A loop without exits has no ends, and everything that is explored from its header lies in
it (`endsAt_of_exitless`).  The other way round, a region whose loops can all be
left has an end (`exists_endsAt`): a way out of the region ends there, or leads to a loop
beside it, which is explored as well; from there a way out ends, or leads on to a loop
after that one.
-/

import ConstantTime.Proofs.Dominance.Fixpoint

namespace ConstantTime
namespace Bounded

variable {g : Graph} {constant : ConstantBounds} {limit : Int64} {m : DominatorTable}
  {o : Option LoopId} {b e h t x : BlockId} {c l n : LoopId} {L : Loop} {fuel : Nat}

section Exits

variable (hg : g.Checked) (hexits : ∀ L ∈ g.loops, L.exits ≠ [])
include hg hexits

/-- **From a loop beside the region an end is come to.** -/
theorem exists_endsAt_beside (hl : l < g.loops.length) (hn : n < g.loops.length)
    (hparent : g.parent (some n) = g.parent (some l)) (hne : g.header n ≠ g.header l)
    (hregion : g.header n ∈ region g (g.header l)) :
    ∃ b ∈ region g (g.header l), endsAt g (g.header l) b ≠ [] := by
  have hh : g.IsStart (some l) (g.header l) := ⟨hl, rfl⟩
  -- the loops that are come to follow one another in the order of the graph
  induction hk : g.size - g.place (g.header n) using Nat.strong_induction_on generalizing n with
  | _ k ih =>
    subst hk
    obtain ⟨N, hN⟩ := Graph.exists_loop hn
    obtain ⟨x, t, hx, hs, ht⟩ := hg.exists_exit hN (hexits N (List.mem_of_getElem? hN))
    cases hnear : staysNear g (g.header l) t with
    | false => exact ⟨_, hregion, List.ne_nil_of_mem (hg.mem_endsAt_header hn hne hx hs ht hnear)⟩
    | true =>
      rw [hg.staysNear_iff hh] at hnear
      have hdepth := hg.loopDepth_eq_of_parent_eq hn hl hparent
      obtain ⟨k, hk, rfl, hpk, hkx⟩ := hg.beside_of_exit hx hs ht (by omega)
      have hlater : g.place (g.header n) < g.place (g.header k) := by
        have := hg.place_header_le hx
        have hfwd : ¬ g.place (g.header k) ≤ g.place x := fun hle =>
          hkx (hg.within_of_retreats hk ⟨hs, hle⟩)
        omega
      have hafter := hg.place_region hh hregion
      have hlt := hg.place_lt_size (hg.header_ids hk)
      refine ih _ (by omega) hk (hpk.trans hparent) (fun he => ?_) ?_ rfl
      · rw [he] at hlater
        omega
      · exact (hg.region_closed hh).2 _ hregion _
          ((hg.mem_explored_of_header hh hn hne).2 ⟨⟨x, hx, hs, ht⟩, hnear⟩)

/-- **Every region has an end**, if every loop can be left. -/
theorem exists_endsAt (hh : g.IsStart o h) : ∃ b ∈ region g h, endsAt g h b ≠ [] := by
  cases o with
  | none =>
    obtain ⟨e, hid, hsuccs⟩ := hg.exists_end hexits
    refine ⟨e, hg.mem_region_of_isNode hh hid ?_, by simp [endsAt, hsuccs]⟩
    exact .inl (hg.loopOf_eq_none.2 (hg.not_within_end hsuccs))
  | some l =>
    obtain ⟨hl, rfl⟩ := hh
    have hh : g.IsStart (some l) (g.header l) := ⟨hl, rfl⟩
    obtain ⟨L, hL⟩ := Graph.exists_loop hl
    obtain ⟨x, t, hx, hs, ht⟩ := hg.exists_exit hL (hexits L (List.mem_of_getElem? hL))
    rcases hg.level_or_child (o := some l) hx with hlevel | ⟨c, hc, hcx⟩
    · refine ⟨x, hg.mem_region_of_isNode hh (hg.mem_ids_of_within hx) (.inl hlevel), ?_⟩
      exact List.ne_nil_of_mem (hg.mem_endsAt_level hh hlevel hs ht)
    · -- the way out starts in an inner loop
      have hct : ¬ g.Within c t := fun h => ht (hg.inside_of_child (o := some l) hc h)
      have hne := hg.header_child_ne hh hc
      have hregion := hg.mem_region_of_isNode hh (hg.header_ids hc.1) (.inr ⟨c, hc, rfl⟩)
      cases hnear : staysNear g (g.header l) t with
      | false =>
        exact ⟨_, hregion,
          List.ne_nil_of_mem (hg.mem_endsAt_header hc.1 hne hcx hs hct hnear)⟩
      | true =>
        rw [hg.staysNear_iff hh] at hnear
        obtain ⟨k, hk, rfl, hpk, hkx⟩ := hg.beside_of_exit hx hs ht (by omega)
        refine exists_endsAt_beside hg hexits hl hk hpk (fun he => hkx ?_) ?_
        · rwa [hg.header_inj hk hl he]
        · exact (hg.region_closed hh).2 _ hregion _
            ((hg.mem_explored_of_header hh hc.1 hne).2 ⟨⟨x, hcx, hs, hct⟩, hnear⟩)

/-- The loops whose headers come after a block. -/
def loopsAfter (g : Graph) (b : BlockId) : List LoopId :=
  (List.range g.loops.length).filter fun l => g.place b < g.place (g.header l)

omit hexits in
/-- Fewer loops come after a loop inside a region than after its start. -/
theorem length_loopsAfter_lt (hh : g.IsStart o h) (hn : n < g.loops.length)
    (hregion : g.header n ∈ region g h) (hne : g.header n ≠ h) :
    (loopsAfter g (g.header n)).length < (loopsAfter g h).length := by
  have hlt : g.place h < g.place (g.header n) :=
    Nat.lt_of_le_of_ne (hg.place_region hh hregion) fun he =>
      hne (hg.place_inj (hg.start_mem_ids hh) (hg.header_ids hn) he).symm
  have hnot : n ∉ loopsAfter g (g.header n) := by simp [loopsAfter]
  have hsub : n :: loopsAfter g (g.header n) ⊆ loopsAfter g h := by
    intro k hk
    rw [loopsAfter, List.mem_filter, List.mem_range, decide_eq_true_eq]
    rcases List.mem_cons.1 hk with rfl | hk
    · exact ⟨hn, hlt⟩
    · rw [loopsAfter, List.mem_filter, List.mem_range, decide_eq_true_eq] at hk
      exact ⟨hk.1, hlt.trans hk.2⟩
  exact (List.nodup_cons.2 ⟨hnot, List.nodup_range.filter _⟩).length_le_of_subset hsub

/-- **A run answers**, if every loop can be left. -/
theorem isEmpty_run (hh : g.IsStart o h) (hfuel : (loopsAfter g h).length < fuel)
    (hm : run g constant limit fuel h = .ok m) :
    m.isEmpty = false := by
  induction fuel generalizing o h m with
  | zero => omega
  | succ fuel ih =>
    obtain ⟨table, htable, hrest⟩ := Outcome.bind_eq_ok.1 hm
    cases table with
    | none =>
      obtain ⟨x, hx, r, hr, hempty⟩ := exists_isEmpty_of_addInner htable
      obtain ⟨hregion, hinner⟩ := List.mem_filter.1 hx
      obtain ⟨hne, n, hn, rfl⟩ := hg.isInner_iff.1 hinner
      have hless := length_loopsAfter_lt hg hh hn hregion hne
      have hh' : g.IsStart (some n) (g.header n) := ⟨hn, rfl⟩
      rw [ih hh' (by omega) hr] at hempty
      cases hempty
    | some inner =>
      obtain ⟨doms, -, hends⟩ := ofRegion_eq_ok hrest
      obtain ⟨b, hb, hne⟩ := exists_endsAt hg hexits hh
      obtain ⟨k, hk⟩ := List.exists_mem_of_ne_nil _ hne
      exact OrderedMap.isEmpty_eq_false_iff.2
        ⟨k, _, (hends k _).2 ⟨List.mem_flatMap.2 ⟨b, hb, hk⟩, rfl⟩⟩

end Exits

/-! ### A loop without exits -/

section NeverLeft

variable (hg : g.Checked) (hL : g.loop? l = some L) (hno : L.exits = [])
include hg hL hno

/-- What is explored from its header lies in the loop. -/
theorem within_of_mem_region (hb : b ∈ region g (g.header l)) : g.Within l b := by
  have hchild := hg.isChild_of_exitless hL hno
  refine breadthFirst_induction (hg.within_header hchild.1) (fun a b ha hb => ?_) b hb
  rw [explored] at hb
  split at hb
  · next hinner =>
    obtain ⟨-, n, hn, rfl⟩ := hg.isInner_iff.1 hinner
    obtain ⟨x, hx, hs, -⟩ := (hg.mem_exitTargets hn).1 (List.mem_filter.1 hb).1
    exact hg.within_of_succ_of_exitless hL hno (hg.within_trans ha hx) hs
  · exact hg.within_of_succ_of_exitless hL hno ha (List.mem_filter.1 hb).1

/-- **It has no ends.** -/
theorem endsAt_of_exitless (hb : b ∈ region g (g.header l)) : endsAt g (g.header l) b = [] := by
  have hchild := hg.isChild_of_exitless hL hno
  have hh : g.IsStart (some l) (g.header l) := ⟨hchild.1, rfl⟩
  have hin := within_of_mem_region hg hL hno hb
  have hstays : ∀ x s, g.Within l x → s ∈ g.succs x → g.Within l s := fun _ _ hx hs =>
    hg.within_of_succ_of_exitless hL hno hx hs
  have hnode : g.IsNode (some l) b := by
    rcases hg.region_cases hh b hb with ⟨-, hnode⟩ | ⟨⟨l', k, ho, hk, hparent, rfl⟩, -⟩
    · exact hnode
    · -- a loop beside it would be around the same blocks
      cases ho
      rw [hg.parent_eq_none hk (hparent.trans hchild.2) hin]
      exact .inl (hg.loopOf_header hk)
  obtain ⟨s, hs⟩ := hg.exists_succ_of_within hin
  have hempty : (g.succs b).isEmpty = false := by
    rw [List.isEmpty_eq_false_iff]
    exact List.ne_nil_of_mem hs
  rw [endsAt, hempty, if_neg Bool.false_ne_true]
  rcases hnode with hlevel | ⟨c, hc, rfl⟩
  · have hleaves : (g.succs b).any (leavesLoop g b) = false := by
      rw [List.any_eq_false]
      intro s hs
      simp [leavesLoop, hlevel, Graph.contains_eq, hstays b s hin hs]
    rw [hg.isInner_eq_false hh hlevel, hleaves]
    rfl
  · rw [hg.isInner_header hc.1 (hg.header_child_ne hh hc), if_pos rfl, List.filter_eq_nil_iff]
    intro t ht
    obtain ⟨x, hx, hs, hout⟩ := (hg.mem_exitTargets hc.1).1 ht
    have hxl : g.Within l x := hg.inside_of_child (o := some l) hc hx
    have hnear := (hg.staysNear_iff hh).2 (hg.depth_node
      (hg.isNode_of_edge (o := some l) (hstays x t hxl hs) hs (.inr ⟨c, hc, hx, hout⟩)))
    simp [hnear]

/-- **Nor an answer.** -/
theorem isEmpty_run_of_exitless (hm : run g constant limit fuel (g.header l) = .ok m) :
    m.isEmpty = true := by
  by_contra hne
  rw [Bool.not_eq_true] at hne
  obtain ⟨fuel', inner, -, hanswered⟩ := exists_answered hm hne
  obtain ⟨doms, -, hends⟩ := ofRegion_eq_ok hanswered.result
  obtain ⟨k, s, hk⟩ := OrderedMap.isEmpty_eq_false_iff.1 hne
  obtain ⟨b, hb, hkb⟩ := List.mem_flatMap.1 ((hends k s).1 hk).1
  rw [endsAt_of_exitless hg hL hno hb] at hkb
  cases hkb

end NeverLeft

end Bounded

open Bounded in
/-- **The bounded analysis has no answer if and only if some loop cannot be left.** -/
theorem boundedDominators_isEmpty_iff {g : Graph} {constant : ConstantBounds} {limit : Int64}
    {m : DominatorTable} (hg : g.Checked)
    (hm : g.boundedDominators constant limit g.entry = .ok m) :
    m.isEmpty = true ↔ ∃ L ∈ g.loops, L.exits = [] := by
  have hh : g.IsStart none g.entry := rfl
  constructor
  · intro hempty
    by_contra hexits
    push Not at hexits
    have hfuel : (loopsAfter g g.entry).length < g.loops.length + 1 :=
      Nat.lt_succ_of_le ((List.length_filter_le _ _).trans (by simp))
    rw [isEmpty_run hg hexits hh hfuel hm] at hempty
    cases hempty
  · rintro ⟨L, hL, hno⟩
    obtain ⟨l, hl⟩ := List.mem_iff_getElem?.1 hL
    by_contra hne
    rw [Bool.not_eq_true] at hne
    -- an answer would have come from an answer for the loop
    obtain ⟨fuel, inner, -, hanswered⟩ := exists_answered hm hne
    obtain ⟨r, hr, hrne, -⟩ := hanswered.analysed_child hg hh (hg.isChild_of_exitless hl hno)
    rw [isEmpty_run_of_exitless hg hl hno hr] at hrne
    cases hrne

end ConstantTime
