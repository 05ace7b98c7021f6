/-
# The edges of a region

A node of a region leads out to where the edges of its blocks lead: those of the
block itself, or those that leave the inner loop it is the header of (`LeadsOut`).
The region is drawn twice, as `regionSuccs` from a start block, by comparing
depths, and as `Postdominators.successors`, by looking up nodes.  Both draw the
edges that lead out, and differ in the edges back to the start only, which the
first leaves out (`Checked.mem_regionSuccs_iff`, `Checked.mem_successors_iff`).

`regionSuccs` has no cycle, whatever block it starts from, also one that starts
no region.  An edge to an earlier node goes back to the header of a loop around
its source (`Checked.returns_to_header`).  But what comes to a header that is not
the start has left the loop (`Checked.not_within_of_header`), and comes back into
it at the header only (`Checked.enters_at_header`).
-/

import ConstantTime.Postdominance.Basic
import ConstantTime.Proofs.Graph.Passes
import Mathlib.Logic.Relation

namespace ConstantTime
namespace Graph

/-- An edge leads from the node to `s`: an edge of the block itself, or, for the
header of an inner loop, an edge that leaves this loop. -/
def LeadsOut (g : Graph) (o : Option LoopId) (n s : BlockId) : Prop :=
  (g.loopOf n = o ∧ s ∈ g.succs n) ∨
    ∃ c, g.IsChild o c ∧ n = g.header c ∧ ∃ x, g.Within c x ∧ s ∈ g.succs x ∧ ¬ g.Within c s

/-- The node stands for a block with an edge back to the start of the region. -/
def HoldsLatch (g : Graph) (o : Option LoopId) (n : BlockId) : Prop :=
  ∃ l L u, o = some l ∧ g.loop? l = some L ∧ u ∈ L.latches ∧
    (u = n ∨ ∃ c, g.IsChild o c ∧ n = g.header c ∧ g.Within c u)

/-- The edges as seen from `start`. -/
def Leads (g : Graph) (start x y : BlockId) : Prop := y ∈ g.regionSuccs x start

variable {g : Graph} {o : Option LoopId} {l m : LoopId} {a b h n s start u x y : BlockId}

namespace Checked

variable (hg : g.Checked)
include hg

/-! ### Edges that lead out -/

theorem isNode_of_leadsOut (hs : g.LeadsOut o n s) (hin : g.Inside o s) : g.IsNode o s := by
  rcases hs with ⟨hlevel, hs⟩ | ⟨c, hc, -, x, hx, hs, hout⟩
  · exact hg.isNode_of_edge hin hs (.inl hlevel)
  · exact hg.isNode_of_edge hin hs (.inr ⟨c, hc, hx, hout⟩)

theorem leadsOut_of_level (hlevel : g.loopOf n = o) : g.LeadsOut o n s ↔ s ∈ g.succs n := by
  refine ⟨?_, fun hs => .inl ⟨hlevel, hs⟩⟩
  rintro (⟨-, hs⟩ | ⟨c, hc, rfl, -⟩)
  · exact hs
  · exact absurd (hg.within_header hc.1) (hg.not_within_of_level hc hlevel)

theorem leadsOut_of_child {c : LoopId} (hc : g.IsChild o c) : g.LeadsOut o (g.header c) s ↔
    ∃ x, g.Within c x ∧ s ∈ g.succs x ∧ ¬ g.Within c s := by
  constructor
  · rintro (⟨hlevel, -⟩ | ⟨c', hc', he, hx⟩)
    · exact absurd (hg.within_header hc.1) (hg.not_within_of_level hc hlevel)
    · rwa [hg.header_inj hc.1 hc'.1 he]
  · exact fun hx => .inr ⟨c, hc, rfl, hx⟩

/-- **The edges from a start** are those that lead out to other nodes. -/
theorem mem_regionSuccs_iff (hh : g.IsStart o h) (hn : g.IsNode o n) :
    s ∈ g.regionSuccs n h ↔ g.IsNode o s ∧ s ≠ h ∧ g.LeadsOut o n s := by
  have hout : g.LeadsOut o n s → (g.IsNode o s ↔ g.Inside o s) := fun hs =>
    ⟨hg.inside_of_isNode, hg.isNode_of_leadsOut hs⟩
  have hsucc : s ∈ g.regionSuccs n h ↔ g.LeadsOut o n s ∧ g.Inside o s ∧ s ≠ h := by
    rcases hn with hlevel | ⟨c, hc, rfl⟩
    · rw [hg.mem_regionSuccs_of_level hh hlevel, hg.leadsOut_of_level hlevel]
    · rw [hg.mem_regionSuccs_of_child hh hc, hg.leadsOut_of_child hc]
  rw [hsucc]
  constructor
  · exact fun ⟨hs, hin, hne⟩ => ⟨(hout hs).2 hin, hne, hs⟩
  · exact fun ⟨hnode, hne, hs⟩ => ⟨hs, (hout hs).1 hnode, hne⟩

/-- Outside all loops there is no header. -/
theorem headedBy_of_outermost (hn : g.loopOf n = none) : g.headedBy n = none := by
  by_contra hsome
  obtain ⟨l, hl⟩ := Option.ne_none_iff_exists'.1 hsome
  obtain ⟨L, hL, rfl⟩ := hg.headedBy_eq_some.1 hl
  rw [← header_eq hL, hg.loopOf_header (List.getElem?_eq_some_iff.1 hL).1] at hn
  cases hn

/-- Only what is inside a region has a node there. -/
theorem regionNode_eq_some : g.regionNode b o = some n ↔ g.Inside o b ∧ g.nodeIn o b = n := by
  constructor
  · intro h
    have hin : g.Inside o b := by
      by_cases hlevel : g.loopOf b = o
      · exact hg.inside_of_level hlevel
      · by_contra hout
        rw [regionNode, if_neg hlevel, if_pos (by simpa [Inside] using hout)] at h
        cases h
    exact ⟨hin, by rw [nodeIn, h, Option.getD_some]⟩
  · rintro ⟨hin, rfl⟩
    exact hg.regionNode_eq hin

/-- Only a block on the level of the region stands for itself there. -/
theorem regionNode_eq_level (hn : g.loopOf n = o) : g.regionNode b o = some n ↔ b = n := by
  rw [hg.regionNode_eq_some]
  constructor
  · rintro ⟨hin, rfl⟩
    rcases hg.level_or_child hin with hlevel | ⟨c, hc, hcb⟩
    · rw [nodeIn_of_level hlevel]
    · rw [hg.nodeIn_of_child hc hcb] at hn
      exact absurd (hg.within_header hc.1) (hg.not_within_of_level hc hn)
  · rintro rfl
    exact ⟨hg.inside_of_level hn, nodeIn_of_level hn⟩

/-- The header of an inner loop stands for the blocks of this loop. -/
theorem regionNode_eq_header {c : LoopId} (hc : g.IsChild o c) :
    g.regionNode b o = some (g.header c) ↔ g.Within c b := by
  constructor
  · intro hb
    obtain ⟨hin, hnode⟩ := hg.regionNode_eq_some.1 hb
    rcases hg.level_or_child hin with hlevel | ⟨c', hc', hcb⟩
    · rw [nodeIn_of_level hlevel] at hnode
      exact hnode ▸ hg.within_header hc.1
    · rw [hg.nodeIn_of_child hc' hcb] at hnode
      exact hg.header_inj hc'.1 hc.1 hnode ▸ hcb
  · exact fun hb => hg.regionNode_of_child hc hb

/-- A block on the level of the region leads on to the nodes of its successors. -/
theorem mem_successors_of_level (hh : g.IsStart o h) (hlevel : g.loopOf n = o) :
    s ∈ Postdominators.successors g o n ↔ ∃ t ∈ g.succs n, g.Inside o t ∧ g.nodeIn o t = s := by
  have hinner : (if o.isSome && g.headerOf o = n then none
      else (g.headedBy n).bind g.loop?) = none := by
    cases o with
    | none => simp [hg.headedBy_of_outermost hlevel]
    | some l =>
      obtain ⟨-, rfl⟩ := hh
      by_cases hne : n = g.header l
      · rw [hne]
        simp [header]
      · have hstart : g.IsStart (some l) (g.header l) :=
          ⟨lt_of_within (hg.inside_of_level hlevel), rfl⟩
        rw [hg.headedBy_of_level hstart hlevel hne]
        simp
  rw [Postdominators.successors, hinner]
  simp only [OrderedSet.mem_toList, OrderedSet.mem_ofList, List.mem_filterMap,
    hg.regionNode_eq_some]

/-- An inner loop leads on to the targets of its exits inside the region. -/
theorem mem_successors_of_child {c : LoopId} {L : Loop} (hh : g.IsStart o h) (hc : g.IsChild o c)
    (hL : g.loop? c = some L) :
    s ∈ Postdominators.successors g o (g.header c) ↔
      (∃ x, (⟨x, s⟩ : FlowEdge) ∈ L.exits) ∧ g.Inside o s := by
  have hinner : (if o.isSome && g.headerOf o = g.header c then none
      else (g.headedBy (g.header c)).bind g.loop?) = some L := by
    rw [if_neg, hg.headedBy_header hc.1, Option.bind_some, hL]
    cases o with
    | none => simp
    | some l =>
      rw [Bool.and_eq_true, decide_eq_true_eq]
      exact fun he => hg.header_child_ne hh hc (he.2.symm.trans hh.2.symm)
  rw [Postdominators.successors, hinner]
  simp only [OrderedSet.mem_toList, OrderedSet.mem_ofList, List.mem_filter, List.mem_map]
  constructor
  · rintro ⟨⟨⟨x, s⟩, he, rfl⟩, hin⟩
    exact ⟨⟨x, he⟩, hin⟩
  · rintro ⟨⟨x, he⟩, hin⟩
    exact ⟨⟨⟨x, s⟩, he, rfl⟩, hin⟩

/-- **The edges between nodes** are those that lead out, back to the start or not. -/
theorem mem_successors_iff (hh : g.IsStart o h) (hn : g.IsNode o n) :
    s ∈ Postdominators.successors g o n ↔ g.IsNode o s ∧ g.LeadsOut o n s := by
  rcases hn with hlevel | ⟨c, hc, rfl⟩
  · rw [hg.mem_successors_of_level hh hlevel, hg.leadsOut_of_level hlevel]
    constructor
    · rintro ⟨t, ht, hin, rfl⟩
      have hnode := hg.isNode_of_edge hin ht (.inl hlevel)
      rw [hg.nodeIn_of_isNode hnode]
      exact ⟨hnode, ht⟩
    · rintro ⟨hnode, hs⟩
      exact ⟨s, hs, hg.inside_of_isNode hnode, hg.nodeIn_of_isNode hnode⟩
  · obtain ⟨L, hL⟩ := exists_loop hc.1
    have hleads : g.LeadsOut o (g.header c) s ↔ ∃ x, (⟨x, s⟩ : FlowEdge) ∈ L.exits := by
      rw [hg.leadsOut_of_child hc]
      exact exists_congr fun x => (hg.mem_exits hL).symm
    rw [hg.mem_successors_of_child hh hc hL, ← hleads]
    constructor
    · exact fun ⟨hs, hin⟩ => ⟨hg.isNode_of_leadsOut hs hin, hs⟩
    · exact fun ⟨hnode, hs⟩ => ⟨hs, hg.inside_of_isNode hnode⟩

/-- What leads out to the start holds a latch. -/
theorem leadsOut_start_iff (hh : g.IsStart o h) (hn : g.IsNode o n) :
    g.LeadsOut o n h ↔ g.HoldsLatch o n := by
  have hlatch : ∀ u, g.Inside o u → h ∈ g.succs u →
      ∃ l L, o = some l ∧ g.loop? l = some L ∧ u ∈ L.latches := by
    intro u hu hs
    cases o with
    | none =>
      obtain rfl : h = g.entry := hh
      have := hg.wellFormed.mem_preds_iff.2 hs
      rw [hg.preds_entry] at this
      cases this
    | some l =>
      obtain ⟨hl, rfl⟩ := hh
      obtain ⟨L, hL⟩ := exists_loop hl
      refine ⟨l, L, rfl, hL, (hg.mem_latches hL).2 ?_⟩
      rw [← header_eq hL]
      exact hg.retreats_of_within hu hs
  constructor
  · rintro (⟨hlevel, hs⟩ | ⟨c, hc, rfl, u, hu, hs, -⟩)
    · obtain ⟨l, L, rfl, hL, hn⟩ := hlatch n (hg.inside_of_level hlevel) hs
      exact ⟨l, L, n, rfl, hL, hn, .inl rfl⟩
    · obtain ⟨l, L, rfl, hL, hn⟩ := hlatch u (hg.inside_of_child hc hu) hs
      exact ⟨l, L, u, rfl, hL, hn, .inr ⟨c, hc, rfl, hu⟩⟩
  · rintro ⟨l, L, u, rfl, hL, hu, hnu⟩
    have hs : h ∈ g.succs u := by
      rw [hh.2, header_eq hL]
      exact ((hg.mem_latches hL).1 hu).1
    have hchild : ∀ c, g.IsChild (some l) c → g.Within c u → g.LeadsOut (some l) (g.header c) h :=
      fun c hc hcu => (hg.leadsOut_of_child hc).2 ⟨u, hcu, hs, hg.start_not_in_child hh hc⟩
    rcases hnu with rfl | ⟨c, hc, rfl, hcu⟩
    · rcases hn with hlevel | ⟨c, hc, rfl⟩
      · exact .inl ⟨hlevel, hs⟩
      · exact hchild c hc (hg.within_header hc.1)
    · exact hchild c hc hcu

/-- What leads from a node leads from a block that it stands for. -/
theorem exists_succ_of_leadsOut (hn : g.LeadsOut o n s) :
    ∃ x, s ∈ g.succs x ∧ g.regionNode x o = some n := by
  rcases hn with ⟨hlevel, hs⟩ | ⟨c, hc, rfl, x, hx, hs, -⟩
  · exact ⟨n, hs, regionNode_of_level hlevel⟩
  · exact ⟨x, hs, hg.regionNode_of_child hc hx⟩

theorem isNode_of_regionNode (hb : b ∈ g.ids) (h : g.regionNode b o = some n) :
    n ∈ g.ids ∧ g.IsNode o n := by
  obtain ⟨hin, rfl⟩ := hg.regionNode_eq_some.1 h
  exact ⟨hg.nodeIn_mem_ids hb hin, hg.isNode_nodeIn hin⟩

/-- Every node but the start is led to from an earlier one. -/
theorem exists_node_before (hh : g.IsStart o h) (hb : b ∈ g.ids) (hn : g.IsNode o b)
    (hne : b ≠ h) : ∃ n, g.IsNode o n ∧ b ∈ g.regionSuccs n h ∧ g.place n < g.place b := by
  have key := hg.node_induction hh (P := fun b => g.IsNode o b ∧
    (b ≠ h → ∃ n, g.IsNode o n ∧ b ∈ g.regionSuccs n h ∧ g.place n < g.place b))
    ⟨hg.isNode_start hh, fun h => absurd rfl h⟩ ?_ hb hn
  · exact key.2 hne
  · rintro n s ⟨hn, -⟩ hs
    obtain ⟨hnode, -, hlt⟩ := hg.isNode_of_mem_regionSuccs hh hn hs
    exact ⟨hnode, fun _ => ⟨n, hn, hs, hlt⟩⟩

/-! ### No cycles -/

/-- What an edge is that is seen from a block. -/
theorem leads_cases (hxy : g.Leads start x y) : y ≠ start ∧
    (((x = start ∨ g.headedBy x = none) ∧ y ∈ g.succs x) ∨
      ∃ m < g.loops.length, x = g.header m ∧ x ≠ start ∧
        ∃ z, g.Within m z ∧ y ∈ g.succs z ∧ ¬ g.Within m y) := by
  rw [Leads, regionSuccs, OrderedSet.mem_toList, OrderedSet.mem_ofList, List.mem_filter] at hxy
  obtain ⟨hcand, hregion⟩ := hxy
  simp only [inRegionOf, Bool.and_eq_true, decide_eq_true_eq] at hregion
  refine ⟨hregion.1.1, ?_⟩
  by_cases hstart : x = start
  · exact .inl ⟨.inl hstart, by simpa [regionCandidates, hstart] using hcand⟩
  cases hm : g.headedBy x with
  | none => exact .inl ⟨.inr rfl, by simpa [regionCandidates, hstart, hm] using hcand⟩
  | some m =>
    obtain ⟨L, hL, rfl⟩ := hg.headedBy_eq_some.1 hm
    simp only [regionCandidates, if_neg hstart, hm, Option.bind_some, hL, List.mem_filter,
      List.mem_map] at hcand
    obtain ⟨⟨⟨z, y⟩, he, rfl⟩, -⟩ := hcand
    exact .inr ⟨m, (List.getElem?_eq_some_iff.1 hL).1, (header_eq hL).symm, hstart, z,
      (hg.mem_exits hL).1 he⟩

/-- **An edge that goes back** leads to the header of a loop around its source. -/
theorem returns_to_header (hxy : g.Leads start x y) (hle : g.place y ≤ g.place x) :
    ∃ m < g.loops.length, y = g.header m ∧ g.Within m x ∧ x ≠ y ∧ y ≠ start := by
  obtain ⟨hne, ⟨hx, hs⟩ | ⟨n, hn, rfl, -, z, hz, hs, hout⟩⟩ := hg.leads_cases hxy
  · obtain ⟨m, M, hM, rfl⟩ := hg.exists_loop_of_retreats ⟨hs, hle⟩
    have hm := (List.getElem?_eq_some_iff.1 hM).1
    rw [← header_eq hM] at hs hle hne ⊢
    refine ⟨m, hm, rfl, hg.within_of_retreats hm ⟨hs, hle⟩, ?_, hne⟩
    rintro rfl
    rcases hx with hx | hx
    · exact hne hx
    · rw [hg.headedBy_header hm] at hx
      cases hx
  · -- the edge leaves the loop headed by the source, and comes from the loop it goes back to
    have hle' : g.place y ≤ g.place z := hle.trans (hg.place_header_le hz)
    obtain ⟨m, M, hM, rfl⟩ := hg.exists_loop_of_retreats ⟨hs, hle'⟩
    have hm := (List.getElem?_eq_some_iff.1 hM).1
    rw [← header_eq hM] at hs hle' hne hout ⊢
    have hmz := hg.within_of_retreats hm ⟨hs, hle'⟩
    refine ⟨m, hm, rfl, ?_, fun he => hout (he ▸ hg.within_header hn), hne⟩
    rcases hg.within_header_or hmz hz with h | h
    · exact h
    · exact absurd h hout

/-- From the header of a loop, unless it is the start, every edge leaves the loop. -/
theorem not_within_of_header (hm : m < g.loops.length) (hne : g.header m ≠ start)
    (hxy : g.Leads start (g.header m) y) : ¬ g.Within m y := by
  obtain ⟨-, ⟨hx, -⟩ | ⟨n, hn, he, -, z, -, -, hout⟩⟩ := hg.leads_cases hxy
  · rcases hx with hx | hx
    · exact absurd hx hne
    · rw [hg.headedBy_header hm] at hx
      cases hx
  · rwa [hg.header_inj hm hn he]

/-- An edge comes into a loop at its header only. -/
theorem enters_at_header (hxy : g.Leads start x y) (hx : ¬ g.Within m x) (hy : g.Within m y) :
    y = g.header m := by
  by_contra hne
  obtain ⟨-, ⟨-, hs⟩ | ⟨n, hn, rfl, -, z, hz, hs, hout⟩⟩ := hg.leads_cases hxy
  · exact hx (hg.within_of_succ hy hne hs)
  · -- the source heads a loop inside `m`, or around it
    rcases hg.within_header_or (hg.within_of_succ hy hne hs) hz with h | h
    · exact hx h
    · exact hout (hg.within_trans h hy)

/-- What is reached from the header of a loop, unless it is the start, is outside the
loop or the header again. -/
theorem reached_from_header (hm : m < g.loops.length) (hne : g.header m ≠ start)
    (hx : Relation.ReflTransGen (g.Leads start) (g.header m) x) :
    ¬ g.Within m x ∨ x = g.header m := by
  induction hx with
  | refl => exact .inr rfl
  | @tail x y _ hxy ih =>
    by_cases hy : g.Within m y
    · rcases ih with hx | rfl
      · exact .inr (hg.enters_at_header hxy hx hy)
      · exact absurd hy (hg.not_within_of_header hm hne hxy)
    · exact .inl hy

/-- On a cycle every edge goes to a later node. -/
theorem place_lt_of_cycle (hxy : g.Leads start x y)
    (hyx : Relation.ReflTransGen (g.Leads start) y x) : g.place x < g.place y := by
  by_contra hle
  obtain ⟨m, hm, rfl, hmx, hne, hstart⟩ := hg.returns_to_header hxy (by omega)
  rcases hg.reached_from_header hm hstart hyx with hout | he
  · exact hout hmx
  · exact hne he

/-- **There is no cycle**, whatever block the edges are seen from. -/
theorem not_transGen_leads : ¬ Relation.TransGen (g.Leads start) a a := by
  have hlater : ∀ b, Relation.TransGen (g.Leads start) a b →
      Relation.ReflTransGen (g.Leads start) b a → g.place a < g.place b := by
    intro b hab
    induction hab with
    | single hab => exact fun hba => hg.place_lt_of_cycle hab hba
    | @tail b c hab hbc ih =>
      intro hca
      have hcb := hca.trans hab.to_reflTransGen
      exact (ih (.head hbc hca)).trans (hg.place_lt_of_cycle hbc hcb)
  exact fun h => lt_irrefl _ (hlater a h .refl)

end Checked

/-- **The edges of a region.**  From the start of a region a node leads to the
other nodes that its edges lead out to, those that leave the inner loop for a node
that heads one.  The successors that post-dominance goes over are the same, and the
start for a node that holds a latch.  There is no cycle, from any block. -/
theorem regionEdges {g : Graph} (hg : g.Accepted) :
    (∀ o h n, g.IsStart o h → g.IsNode o n → ∀ s,
      (s ∈ g.regionSuccs n h ↔ g.IsNode o s ∧ s ≠ h ∧ g.LeadsOut o n s) ∧
      (s ∈ Postdominators.successors g o n ↔
        s ∈ g.regionSuccs n h ∨ s = h ∧ g.HoldsLatch o n)) ∧
    ∀ start a, ¬ Relation.TransGen (g.Leads start) a a := by
  have hc := hg.checked
  refine ⟨fun o h n hh hn s => ⟨hc.mem_regionSuccs_iff hh hn, ?_⟩, fun _ _ =>
    hc.not_transGen_leads⟩
  rw [hc.mem_successors_iff hh hn, hc.mem_regionSuccs_iff hh hn]
  by_cases hs : s = h
  · subst hs
    rw [hc.leadsOut_start_iff hh hn]
    simpa using fun _ => hc.isNode_start hh
  · simp [hs]

/-- Two loops one after the other inside a loop, which goes round from the second one
and is left from the first one. -/
def siblings : Graph :=
  drawn 7 [(0, 1), (1, 2), (2, 3), (3, 2), (3, 4), (4, 5), (5, 4), (5, 1), (2, 6)]
    (by decide +kernel)

/-- In the outer loop of `siblings` the first inner loop leads to the second one only,
and the second one only back to the start, which is not seen from there. -/
theorem regionEdges_siblings :
    (4 ∈ siblings.regionSuccs 2 1 ∧ 6 ∉ siblings.regionSuccs 2 1) ∧
      (1 ∈ Postdominators.successors siblings (some 0) 4 ∧ 1 ∉ siblings.regionSuccs 4 1) ∧
      ¬ Relation.TransGen (siblings.Leads 3) 2 2 := by
  obtain ⟨hedges, hacyclic⟩ := regionEdges (g := siblings) (accepted_drawn _)
  have hstart : siblings.IsStart (some 0) 1 := ⟨by decide +kernel, by decide +kernel⟩
  have hfirst : siblings.IsChild (some 0) 1 := ⟨by decide +kernel, by decide +kernel⟩
  have hsecond : siblings.IsChild (some 0) 2 := ⟨by decide +kernel, by decide +kernel⟩
  have h2 : (2 : BlockId) = siblings.header 1 := by decide +kernel
  have h4 : (4 : BlockId) = siblings.header 2 := by decide +kernel
  have from2 := hedges (some 0) 1 2 hstart (.inr ⟨1, hfirst, h2⟩)
  have from4 := hedges (some 0) 1 4 hstart (.inr ⟨2, hsecond, h4⟩)
  have hc : siblings.Checked := (accepted_drawn _).checked
  have hlatch : siblings.HoldsLatch (some 0) 4 := by
    obtain ⟨L, hL⟩ := exists_loop (g := siblings) (l := 0) (by decide +kernel)
    refine ⟨0, L, 5, rfl, hL, (hc.mem_latches hL).2 ?_, .inr ⟨2, hsecond, h4, by decide +kernel⟩⟩
    rw [← header_eq hL, ← hc.isBackEdge_iff]
    decide +kernel
  refine ⟨⟨(from2 4).1.2 ⟨.inr ⟨2, hsecond, h4⟩, by decide, .inr ⟨1, hfirst, h2, 3, ?_⟩⟩, ?_⟩,
    ⟨(from4 1).2.2 (.inr ⟨rfl, hlatch⟩), fun h => ((from4 1).1.1 h).2.1 rfl⟩, hacyclic 3 2⟩
  · exact ⟨by decide +kernel, by decide +kernel, by decide +kernel⟩
  · have hout : ¬ siblings.Within 0 6 := by decide +kernel
    exact fun h => hout (hc.inside_of_isNode ((from2 6).1.1 h).1)

end Graph
end ConstantTime
