/-
# The post-dominators of a node form a chain

In a settled table the post-dominators of a node that is no end are itself and what
its successors share.  So whatever holds of a node once it holds of its successors
holds of all (`Checked.later_induction`), and by this induction a post-dominator
comes later in the order (`Settled.place_lt`) and two post-dominators of one node
post-dominate one another in one direction (`Settled.chain`).

A function that is answered for has a settled table for each of its regions, and no
others (`IsAnswer`, `isAnswer_of_ofGraph`).
-/

import ConstantTime.Proofs.Outcome
import ConstantTime.Proofs.Postdominance.Settled

namespace ConstantTime

open ConstantTime.Graph

variable {g : Graph} {a b c e h n : BlockId} {o : Option LoopId} {doms : DominatorTable}

namespace Postdominators
namespace Settled

variable (hg : g.Checked) (hs : Settled g e o doms) (hh : g.IsStart o h)
include hs

omit hs in
theorem contains_of_mem (ha : a ∈ doms.of b) : doms.contains b = true :=
  OrderedMap.contains_of_mem_getD ha

theorem self_mem (hb : doms.contains b = true) : b ∈ doms.of b := by
  obtain ⟨s, hs'⟩ := OrderedMap.contains_iff.1 hb
  rw [DominatorTable.of, OrderedMap.getD_eq, hs', Option.getD_some]
  by_cases hroot : b ∈ roots g e o
  · rw [hs.ends b hroot] at hs'
    cases hs'
    exact OrderedSet.mem_singleton.2 rfl
  · rw [(hs.rule b s hs' hroot).2]
    exact OrderedSet.mem_insert.2 (.inl rfl)

/-- An end is post-dominated by itself only. -/
theorem mem_iff_of_mem_roots (hroot : b ∈ roots g e o) : a ∈ doms.of b ↔ a = b := by
  rw [DominatorTable.of, OrderedMap.getD_eq, hs.ends b hroot, Option.getD_some,
    OrderedSet.mem_singleton]

include hg hh

/-- **What post-dominates a node that is no end** is the node itself, or post-dominates all
its successors, of which there is one. -/
theorem mem_iff_of_notMem_roots (hb : doms.contains b = true) (hroot : b ∉ roots g e o) :
    a ∈ doms.of b ↔ a = b ∨
      (∃ s, s ∈ g.regionSuccs b h) ∧ ∀ s ∈ g.regionSuccs b h, a ∈ doms.of s := by
  obtain ⟨s, hget⟩ := OrderedMap.contains_iff.1 hb
  have hsucc : ∀ t, t ∈ successors g o b ↔ t ∈ g.regionSuccs b h := fun t =>
    mem_successors_of_notMem_roots hg hh (hs.node b hb).2 hroot
  rw [DominatorTable.of, OrderedMap.getD_eq, hget, Option.getD_some, (hs.rule b s hget hroot).2,
    OrderedSet.mem_insert, OrderedSet.mem_interAll]
  refine or_congr_right (and_congr ?_ ?_)
  · rw [ne_eq, List.map_eq_nil_iff, List.eq_nil_iff_forall_not_mem, not_forall]
    exact exists_congr fun t => not_not.trans (hsucc t)
  · simp only [List.forall_mem_map, hsucc]

/-- What post-dominates a node is the node itself, or post-dominates all its
successors, of which there is one. -/
theorem mem_cases (ha : a ∈ doms.of b) : a = b ∨
    (∃ s, s ∈ g.regionSuccs b h) ∧ ∀ s ∈ g.regionSuccs b h, a ∈ doms.of s := by
  by_cases hroot : b ∈ roots g e o
  · exact .inl ((hs.mem_iff_of_mem_roots hroot).1 ha)
  · exact (hs.mem_iff_of_notMem_roots hg hh (contains_of_mem ha) hroot).1 ha

/-- What post-dominates a node is a node, and no earlier one. -/
theorem contains_and_le (ha : a ∈ doms.of b) :
    doms.contains a = true ∧ g.place b ≤ g.place a := by
  obtain ⟨hid, hb⟩ := hs.node b (contains_of_mem ha)
  refine hg.later_induction hh (P := fun b => a ∈ doms.of b →
    doms.contains a = true ∧ g.place b ≤ g.place a) (fun b hb ih ha => ?_) hb hid ha
  rcases hs.mem_cases hg hh ha with rfl | ⟨⟨s, hsucc⟩, hall⟩
  · exact ⟨contains_of_mem ha, Nat.le_refl _⟩
  · obtain ⟨hnode, hle⟩ := ih s hsucc (hall s hsucc)
    exact ⟨hnode, (hg.isNode_of_mem_regionSuccs hh hb hsucc).2.2.le.trans hle⟩

/-- **A post-dominator comes later.** -/
theorem place_lt (ha : a ∈ doms.of b) (hne : a ≠ b) : g.place b < g.place a := by
  obtain ⟨hca, hle⟩ := hs.contains_and_le hg hh ha
  refine lt_of_le_of_ne hle fun he => hne ?_
  exact hg.place_inj (hs.node a hca).1 (hs.node b (contains_of_mem ha)).1 he.symm

/-- **Of two post-dominators of a node one post-dominates the other.** -/
theorem chain (ha : a ∈ doms.of b) (hc : c ∈ doms.of b) : a ∈ doms.of c ∨ c ∈ doms.of a := by
  obtain ⟨hid, hb⟩ := hs.node b (contains_of_mem ha)
  refine hg.later_induction hh (P := fun b => a ∈ doms.of b → c ∈ doms.of b →
    a ∈ doms.of c ∨ c ∈ doms.of a) (fun b _ ih ha hc => ?_) hb hid ha hc
  rcases hs.mem_cases hg hh ha with rfl | ⟨⟨s, hsucc⟩, halla⟩
  · exact .inr hc
  rcases hs.mem_cases hg hh hc with rfl | ⟨-, hallc⟩
  · exact .inl ha
  · exact ih s hsucc (halla s hsucc) (hallc s hsucc)

end Settled

/-! ### All regions -/

theorem mem_innerLoops (hg : g.Checked) {l : LoopId} (hh : g.IsStart o h) :
    l ∈ g.innerLoops o ↔ g.IsChild o l := by
  cases o with
  | none => rw [innerLoops, mem_topLoops, IsChild]
  | some p =>
    obtain ⟨L, hL⟩ := exists_loop hh.1
    rw [innerLoops, hL, Option.map_some, Option.getD_some, hg.children_eq hL, List.mem_filter,
      List.mem_range, decide_eq_true_eq, IsChild]

/-- A region and what is walked inside it are regions. -/
theorem isStart_of_mem_regionsFrom (hg : g.Checked) {fuel : Nat} {r : Option LoopId}
    (hh : g.IsStart o h) (hr : r ∈ g.regionsFrom fuel o) : ∃ h', g.IsStart r h' := by
  induction fuel generalizing o h with
  | zero => exact List.mem_singleton.1 hr ▸ ⟨h, hh⟩
  | succ fuel ih =>
    rcases List.mem_cons.1 hr with rfl | hr
    · exact ⟨h, hh⟩
    · obtain ⟨c, hc, hr⟩ := List.mem_flatMap.1 hr
      have hstart : g.IsStart (some c) (g.header c) := ⟨((mem_innerLoops hg hh).1 hc).1, rfl⟩
      exact ih hstart hr

theorem self_mem_regionsFrom (fuel : Nat) : o ∈ g.regionsFrom fuel o := by
  cases fuel <;> simp [regionsFrom]

/-- Every loop inside a region is walked. -/
theorem mem_regionsFrom (hg : g.Checked) {fuel : Nat} {m : LoopId} (hh : g.IsStart o h)
    (hm : m < g.loops.length) (hin : g.Inside o (g.header m))
    (hdepth : g.loopDepth (some m) ≤ g.loopDepth o + fuel) : some m ∈ g.regionsFrom fuel o := by
  induction fuel generalizing o h with
  | zero =>
    rcases hg.level_or_child hin with hlevel | ⟨c, hc, hcm⟩
    · rw [hg.loopOf_header hm] at hlevel
      exact hlevel ▸ self_mem_regionsFrom 0
    · have h₁ := hg.loopDepth_child hc
      have h₂ := hg.loopDepth_le_of_within hm hcm
      omega
  | succ fuel ih =>
    rcases hg.level_or_child hin with hlevel | ⟨c, hc, hcm⟩
    · rw [hg.loopOf_header hm] at hlevel
      exact hlevel ▸ self_mem_regionsFrom _
    · have hdepth' := hg.loopDepth_child hc
      refine List.mem_cons_of_mem _ (List.mem_flatMap.2 ⟨c, (mem_innerLoops hg hh).2 hc, ?_⟩)
      have hstart : g.IsStart (some c) (g.header c) := ⟨hc.1, rfl⟩
      exact ih hstart hcm (by omega)

/-- The answer for a function: a settled table for each region. -/
structure IsAnswer (g : Graph) (e : BlockId) (p : Postdominators) : Prop where
  isEnd : g.end? = some e
  settled : ∀ r ∈ p.regions, Settled g e r.loop r.doms
  isRegion : ∀ r ∈ p.regions, ∃ h, g.IsStart r.loop h
  listed : ∀ o h, g.IsStart o h → ∃ r ∈ p.regions, r.loop = o
  region : ∀ r ∈ p.regions, p.region r.loop = r.doms

/-- The table of every region is settled. -/
theorem IsAnswer.settled_region {p : Postdominators} (hp : IsAnswer g e p) (hh : g.IsStart o h) :
    Settled g e o (p.region o) := by
  obtain ⟨r, hr, rfl⟩ := hp.listed o h hh
  rw [hp.region r hr]
  exact hp.settled r hr

/-- **What is answered for a function.** -/
theorem isAnswer_of_ofGraph (hg : g.Checked) {limit : Int64} {p : Postdominators}
    (h : ofGraph g limit = .ok p) : ∃ e, IsAnswer g e p := by
  unfold ofGraph at h
  split at h
  · cases h
  next e hend =>
  simp only [Outcome.bind_eq_ok, Outcome.pure_eq_ok] at h
  obtain ⟨regions, hregions, rfl⟩ := h
  obtain ⟨hall, honly⟩ := Outcome.mapM_eq_ok hregions
  have hof : ∀ r ∈ regions, r.loop ∈ g.regionsWithin none ∧ ofRegion g limit e r.loop = .ok r := by
    intro r hr
    obtain ⟨o, ho, he⟩ := honly r hr
    obtain ⟨rfl, -⟩ := settled_ofRegion hg hend he
    exact ⟨ho, he⟩
  have hentry : g.IsStart none g.entry := rfl
  refine ⟨e, hend, fun r hr => ?_, fun r hr => ?_, fun o h hh => ?_, fun r hr => ?_⟩
  · exact (settled_ofRegion hg hend (hof r hr).2).2
  · exact isStart_of_mem_regionsFrom hg hentry (hof r hr).1
  · have ho : o ∈ g.regionsWithin none := by
      cases o with
      | none => exact self_mem_regionsFrom _
      | some l =>
        have := hg.loopDepth_le hh.1
        exact mem_regionsFrom hg hentry hh.1 rfl (by omega)
    obtain ⟨r, hr, he⟩ := hall o ho
    exact ⟨r, hr, (settled_ofRegion hg hend he).1⟩
  · -- two tables of one region are computed alike
    unfold region
    cases hfind : regions.find? fun r' => r'.loop = r.loop with
    | none => exact absurd (decide_eq_true rfl) (List.find?_eq_none.1 hfind r hr)
    | some r' =>
      have hloop : r'.loop = r.loop := by simpa using List.find?_some hfind
      have h₁ := (hof r' (List.mem_of_find?_eq_some hfind)).2
      rw [hloop, (hof r hr).2] at h₁
      cases h₁
      rfl

end Postdominators
end ConstantTime
