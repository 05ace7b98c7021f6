/-
# Post-dominators are the nodes on every way out

"Single-Path Constant-Time Transformation Engine", §12.3.

A way out of a region leads along its edges from a node to where it may stop: to a block
without successors, or in a loop to a node from which the loop goes round or is left
(`Graph.IsWayOut`).  The nodes where a way may stop are the ends from which the nodes of the region
are settled (`mem_roots_iff_isStop`), and from an end there is the way that stops at once.
From any other node a way goes on to a successor, so by induction from the later nodes to the
earlier ones the table of a region holds exactly what is on every way out
(`Settled.mem_iff_onEveryWayOut`).

There is a table for every region exactly if the function has one end that every block leads
to: then and only then can all loops be left (`Checked.exits_ne_nil_iff`).  So the
post-dominators are found or not whatever the limit is, as long as it allows for the waits
(`mem_region_iff_onEveryWayOut`).
-/

import ConstantTime.Proofs.Graph.Search
import ConstantTime.Proofs.Postdominance.Waiting

namespace ConstantTime
namespace Graph

/-- Where a way through a region may stop: at a block without successors, and in a loop at
the node of a block from which control goes back to the header or out of the loop. -/
def IsStop (g : Graph) : Option LoopId → BlockId → Prop
  | none, n => n ∈ g.ids ∧ g.succs n = []
  | some l, n => ∃ x, g.regionNode x (some l) = some n ∧
      ∃ s ∈ g.succs x, s = g.header l ∨ ¬ g.Within l s

/-- A way from `b` out of the region with start `h`, along the edges of the region. -/
structure IsWayOut (g : Graph) (o : Option LoopId) (h b : BlockId) (q : List BlockId)
    (r : BlockId) : Prop where
  trail : Trail (fun n => g.regionSuccs n h) b q r
  stop : g.IsStop o r

/-- The function has one end, and every block leads to it. -/
def AlwaysEnds (g : Graph) : Prop :=
  ∃ e, g.end? = some e ∧ ∀ b ∈ g.ids, ∃ q, g.IsPath b q e

variable {g : Graph} {a b e h n : BlockId} {o : Option LoopId}

/-! ### Ways to the end of the function -/

namespace Checked

variable (hg : g.Checked)
include hg

/-- The header of a loop leads to its blocks. -/
theorem exists_path_from_header {c : LoopId} (hb : g.Within c b) :
    ∃ q, g.IsPath (g.header c) q b := by
  obtain ⟨p, hp, -, -⟩ := hg.exists_ascending (hg.mem_ids_of_within hb)
  obtain ⟨q, r, rfl, -, hr⟩ := hp.split (hg.onEveryPath_header hb p hp)
  exact ⟨_, hr⟩

/-- The blocks of a loop lead to its header. -/
theorem exists_path_to_header {c : LoopId} (hb : g.Within c b) :
    ∃ q, g.IsPath b q (g.header c) := by
  by_cases hne : b = g.header c
  · exact ⟨[b], hne ▸ .single b⟩
  · obtain ⟨u, p, hu, hp, -, -⟩ :=
      hg.exists_path_to_latch ((hg.within_iff_natural (lt_of_within hb)).1 hb) hne
    exact ⟨_, hp.snoc hu.1⟩

variable (hend : g.end? = some e) (hexits : ∀ L ∈ g.loops, L.exits ≠ [])
include hend hexits

/-- The nodes of the function lead to its end, if every loop can be left. -/
theorem exists_path_of_isNode (hn : g.IsNode none n) (hid : n ∈ g.ids) :
    ∃ q, g.IsPath n q e := by
  have hh : g.IsStart none g.entry := rfl
  refine hg.later_induction hh (P := fun n => n ∈ g.ids → ∃ q, g.IsPath n q e)
    (fun n hn ih hid => ?_) hn hid hid
  by_cases hne : n = e
  · exact ⟨[n], hne ▸ .single n⟩
  obtain ⟨s, hs⟩ := Postdominators.exists_regionSucc hg hend hexits hh hid hn
    fun hroot => hne (List.mem_singleton.1 hroot)
  obtain ⟨q, hq⟩ := ih s hs (hg.mem_ids_of_mem_regionSuccs hs)
  rcases ((hg.mem_regionSuccs_iff hh hn).1 hs).2.2 with ⟨-, hns⟩ | ⟨c, hc, rfl, x, hx, hxs, -⟩
  · exact ⟨_, hq.cons hns⟩
  · obtain ⟨p, hp⟩ := hg.exists_path_from_header hx
    exact ⟨_, (hp.snoc hxs).append hq⟩

/-- **Every block leads to the end**, if every loop can be left. -/
theorem exists_path_to_end (hid : b ∈ g.ids) : ∃ q, g.IsPath b q e := by
  rcases hg.level_or_child (o := none) (b := b) rfl with hlevel | ⟨c, hc, hcb⟩
  · exact hg.exists_path_of_isNode hend hexits (.inl hlevel) hid
  · obtain ⟨p, hp⟩ := hg.exists_path_to_header hcb
    obtain ⟨q, hq⟩ := hg.exists_path_of_isNode hend hexits (.inr ⟨c, hc, rfl⟩) (hg.header_ids hc.1)
    exact ⟨_, hp.append hq⟩

omit hexits

/-- **Every loop can be left if and only if every block leads to the end.** -/
theorem exits_ne_nil_iff :
    (∀ L ∈ g.loops, L.exits ≠ []) ↔ ∀ b ∈ g.ids, ∃ q, g.IsPath b q e := by
  refine ⟨fun hexits b hb => hg.exists_path_to_end hend hexits hb, fun hpaths L hL hno => ?_⟩
  obtain ⟨l, hl⟩ := List.mem_iff_getElem?.1 hL
  have hlt : l < g.loops.length := (List.getElem?_eq_some_iff.1 hl).1
  obtain ⟨q, hq⟩ := hpaths _ (hg.header_ids hlt)
  have hin : g.Within l e := hq.snoc_induction (motive := fun _ x => g.Within l x)
    (hg.within_header hlt) fun _ _ _ _ hs hx => hg.within_of_succ_of_exitless hl hno hx hs
  exact hg.not_within_end (Shape.end?_eq_some hend).2 l hin

end Checked
end Graph

namespace Postdominators

open ConstantTime.Graph

variable {g : Graph} {a b e h n : BlockId} {o : Option LoopId} {doms : DominatorTable}
  {limit : Int64} {p : Postdominators}

/-! ### One region -/

/-- **The ends of a region** are where its ways may stop. -/
theorem mem_roots_iff_isStop (hg : g.Checked) (hend : g.end? = some e) (hh : g.IsStart o h) :
    b ∈ roots g e o ↔ g.IsStop o b := by
  cases o with
  | none =>
    obtain ⟨hid, hsuccs⟩ := Shape.end?_eq_some hend
    rw [roots, List.mem_singleton]
    constructor
    · rintro rfl
      exact ⟨hid, hsuccs⟩
    · exact fun hb => Shape.eq_of_end? hend hb.1 hb.2
  | some l =>
    obtain ⟨L, hL⟩ := exists_loop hh.1
    rw [mem_roots_some hL]
    refine exists_congr fun x => and_comm.trans (and_congr_right fun hx => ?_)
    have hin : g.Within l x := (hg.regionNode_eq_some.1 hx).1
    rw [hg.mem_latches hL, ← header_eq hL]
    constructor
    · rintro (hlatch | ⟨t, ht⟩)
      · exact ⟨_, hlatch.1, .inl rfl⟩
      · obtain ⟨-, hs, hout⟩ := (hg.mem_exits hL).1 ht
        exact ⟨t, hs, .inr hout⟩
    · rintro ⟨s, hs, rfl | hout⟩
      · exact .inl (hg.retreats_of_within hin hs)
      · exact .inr ⟨s, (hg.mem_exits hL).2 ⟨hin, hs, hout⟩⟩

/-- **The table of a region holds what is on every way out**, if every loop can be left. -/
theorem Settled.mem_iff_onEveryWayOut (hg : g.Checked) (hend : g.end? = some e)
    (hexits : ∀ L ∈ g.loops, L.exits ≠ []) (hs : Settled g e o doms) (hh : g.IsStart o h)
    (hn : g.IsNode o b) (hid : b ∈ g.ids) :
    a ∈ doms.of b ↔ ∀ q r, g.IsWayOut o h b q r → a ∈ q := by
  refine hg.later_induction hh (P := fun b => b ∈ g.ids →
    (a ∈ doms.of b ↔ ∀ q r, g.IsWayOut o h b q r → a ∈ q)) (fun b hn ih hid => ?_) hn hid hid
  by_cases hroot : b ∈ roots g e o
  · -- a way may stop at once
    have hstop := (mem_roots_iff_isStop hg hend hh).1 hroot
    rw [hs.mem_iff_of_mem_roots hroot]
    constructor
    · rintro rfl q r ⟨hq, -⟩
      exact List.mem_of_mem_head? hq.head
    · exact fun hall => List.mem_singleton.1 (hall [b] b ⟨.single b, hstop⟩)
  · have hstop : ¬ g.IsStop o b := mt (mem_roots_iff_isStop hg hend hh).2 hroot
    have hnext : ∀ s ∈ g.regionSuccs b h, (a ∈ doms.of s ↔ ∀ q r, g.IsWayOut o h s q r → a ∈ q) :=
      fun s hs => ih s hs (hg.mem_ids_of_mem_regionSuccs hs)
    rw [hs.mem_iff_of_notMem_roots hg hh (hs.contains hg hend hh hid hn) hroot,
      and_iff_right (exists_regionSucc hg hend hexits hh hid hn hroot)]
    constructor
    · rintro (rfl | hall) q r ⟨hq, hr⟩
      · exact List.mem_of_mem_head? hq.head
      · rcases hq.eq_single_or_cons with ⟨-, rfl⟩ | ⟨s, q, rfl, hbs, hq⟩
        · exact absurd hr hstop
        · exact List.mem_cons_of_mem _ ((hnext s hbs).1 (hall s hbs) q r ⟨hq, hr⟩)
    · intro hall
      by_cases hab : a = b
      · exact .inl hab
      · refine .inr fun s hbs => (hnext s hbs).2 fun q r ⟨hq, hr⟩ => ?_
        exact (List.mem_cons.1 (hall (b :: q) r ⟨hq.cons hbs, hr⟩)).resolve_left hab

/-! ### Functions -/

/-- Where post-dominators are found every loop can be left. -/
theorem exits_ne_nil_of_ofGraph (hg : g.Checked) (hend : g.end? = some e)
    (hp : ofGraph g limit = .ok p) : ∀ L ∈ g.loops, L.exits ≠ [] := by
  intro L hL hno
  rw [ofGraph_of_exitless hg hend hL hno] at hp
  cases hp

/-- **Post-dominators are found** only where every block leads to the one end. -/
theorem alwaysEnds_of_ofGraph (hg : g.Checked) (hp : ofGraph g limit = .ok p) : g.AlwaysEnds := by
  obtain ⟨e, he⟩ := isAnswer_of_ofGraph hg hp
  exact ⟨e, he.isEnd, (hg.exits_ne_nil_iff he.isEnd).1 (exits_ne_nil_of_ofGraph hg he.isEnd hp)⟩

/-- **Post-dominators are the nodes on every way out.**  Where they are found for an accepted
graph, every node of every region has its post-dominators, and they are what all ways from
there along the edges of the region to where they may stop have in common.  They are found,
with a limit that allows for the waits, if the function has one end that every block leads to;
otherwise they are refused, whatever the limit. -/
theorem mem_region_iff_onEveryWayOut {g : Graph} (hg : g.Accepted) :
    (∀ limit p, ofGraph g limit = .ok p → ∀ o h, g.IsStart o h →
      ∀ b ∈ g.ids, g.IsNode o b → (p.region o).contains b = true ∧
        ∀ a, a ∈ (p.region o).of b ↔ ∀ q r, g.IsWayOut o h b q r → a ∈ q) ∧
    (g.AlwaysEnds → ∀ limit : Int64,
      ((g.size * g.size * g.size : Nat) : Int) ≤ (waitLimit g limit).toInt →
        ∃ p, ofGraph g limit = .ok p) ∧
    (¬ g.AlwaysEnds → ∀ limit, ∃ f, ofGraph g limit = .error f) := by
  have hc := hg.checked
  refine ⟨fun limit p hp o h hh b hb hn => ?_, fun ⟨e, hend, hpaths⟩ limit hwaits => ?_,
    fun hnot limit => ?_⟩
  · obtain ⟨e, he⟩ := isAnswer_of_ofGraph hc hp
    have hs := he.settled_region hh
    exact ⟨hs.contains hc he.isEnd hh hb hn, fun a =>
      hs.mem_iff_onEveryWayOut hc he.isEnd (exits_ne_nil_of_ofGraph hc he.isEnd hp) hh hn hb⟩
  · exact exists_ofGraph_of_waits hc hend ((hc.exits_ne_nil_iff hend).2 hpaths) (by omega)
  · cases hp : ofGraph g limit with
    | ok p => exact absurd (alwaysEnds_of_ofGraph hc hp) hnot
    | error f => exact ⟨f, rfl⟩

/-- A loop on one of two ways that cannot be left. -/
def stuck : Graph := drawn 3 [(0, 1), (0, 2), (1, 1)] (by decide +kernel)

/-- In the outer loop of `siblings` every way out from its header passes the first inner loop,
over which the loop is left, and not every way passes the second, over which it goes round.
Of `stuck` there are no post-dominators. -/
theorem mem_region_iff_onEveryWayOut_siblings :
    (∃ p, ofGraph siblings 50 = .ok p ∧
      2 ∈ (p.region (some 0)).of 1 ∧ 4 ∉ (p.region (some 0)).of 1) ∧
      ∃ f, ofGraph stuck 50 = .error f := by
  obtain ⟨hways, hfound, -⟩ := mem_region_iff_onEveryWayOut (g := siblings) (accepted_drawn _)
  obtain ⟨-, -, hrefused⟩ := mem_region_iff_onEveryWayOut (g := stuck) (accepted_drawn _)
  have hc : siblings.Checked := (accepted_drawn _).checked
  have hend : siblings.end? = some 6 := by decide +kernel
  have hends : siblings.AlwaysEnds := ⟨6, hend, (hc.exits_ne_nil_iff hend).1 (by decide +kernel)⟩
  have hstuck : ¬ stuck.AlwaysEnds := by
    rintro ⟨e, he, hpaths⟩
    have := ((accepted_drawn _).checked.exits_ne_nil_iff he).2 hpaths
    exact absurd this (by decide +kernel)
  have hstart : siblings.IsStart (some 0) 1 := ⟨by decide +kernel, by decide +kernel⟩
  have hlevel : siblings.loopOf 1 = some 0 := by decide +kernel
  obtain ⟨p, hp⟩ := hfound hends 50 (by decide +kernel)
  have hiff := (hways 50 p hp (some 0) 1 hstart 1 (by decide +kernel) (.inl hlevel)).2
  have hsuccs : siblings.regionSuccs 1 1 = [2] := by decide +kernel
  refine ⟨⟨p, hp, (hiff 2).2 fun q r ⟨hq, hr⟩ => ?_, fun hmem => ?_⟩, hrefused hstuck 50⟩
  · rcases hq.eq_single_or_cons with ⟨-, rfl⟩ | ⟨s, q, rfl, hs, hq⟩
    · exact absurd ((mem_roots_iff_isStop hc hend hstart).2 hr) (by decide +kernel)
    · rw [hsuccs, List.mem_singleton] at hs
      exact List.mem_cons_of_mem _ (hs ▸ List.mem_of_mem_head? hq.head)
  · have hstop : siblings.IsStop (some 0) 2 :=
      (mem_roots_iff_isStop hc hend hstart).1 (by decide +kernel)
    have := (hiff 4).1 hmem [1, 2] 2 ⟨.cons (by decide +kernel) (.single 2), hstop⟩
    exact absurd this (by decide)

end Postdominators
end ConstantTime
