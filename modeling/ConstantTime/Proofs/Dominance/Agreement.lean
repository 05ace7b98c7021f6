/-
# Without loops the analyses agree

In a graph without loops nothing is counted and nothing goes round.  Both analyses then
list, each for its blocks, just the blocks on every path, which are the dominators found by
walking up the tree (`dominators_agree`).

* They list no more: what is listed is on every path that goes round the constant loops, and
  without loops that is every path.
* They list no less: neither ever takes a dominator away.  A block on every path to the
  target of an edge is the target, or on every path to the source, so it comes over every
  edge.  This is kept by each edge that the queue follows (`CountsDominators.follow`) and by
  each block that a sweep refines (`ListsDominators.refine`), in whatever order they come.
-/

import ConstantTime.Proofs.Dominance.Ends
import ConstantTime.Proofs.Dominance.FixedVisits
import ConstantTime.Proofs.Dominance.Soundness
import ConstantTime.Proofs.Dominance.Work
import ConstantTime.Proofs.Dominance.Worklist

namespace ConstantTime

variable {g : Graph} {constant : ConstantBounds} {limit : Int64} {b d : BlockId}

/-- The table has entries for the blocks of a kind and for no others, and the entries are
the dominators of these blocks. -/
def DominatorTable.ListsExactly (m : DominatorTable) (g : Graph) (kind : BlockId → Prop) : Prop :=
  (∀ b, m.contains b = true ↔ kind b) ∧
    ∀ b, kind b → ∀ a, a ∈ m.of b ↔ g.dominates a b = true

/-! ### Graphs without loops -/

namespace Graph

theorem not_within_of_loops_eq_nil (hloops : g.loops = []) (l : LoopId) (b : BlockId) :
    ¬ g.Within l b := fun h => by
  have := lt_of_within h
  rw [hloops] at this
  exact Nat.not_lt_zero l this

namespace Checked

variable (hg : g.Checked) (hloops : g.loops = [])
include hg hloops

theorem loopOf_of_loops_eq_nil (b : BlockId) : g.loopOf b = none :=
  hg.loopOf_eq_none.2 fun l => not_within_of_loops_eq_nil hloops l b

theorem isHeader_of_loops_eq_nil (b : BlockId) : g.isHeader b = false := by
  rw [← Bool.not_eq_true, hg.isHeader_iff, hloops]
  exact fun ⟨l, hl, _⟩ => Nat.not_lt_zero l hl

end Checked

/-- Only the entry is on every path to the entry. -/
theorem eq_entry_of_onEveryPath {g : Shape} (h : g.OnEveryPath d g.entry) : d = g.entry :=
  List.mem_singleton.1 (h _ (.single _))

end Graph

/-! ### The constant-loop analysis -/

namespace ConstantLoop

variable {known : Regions} {current s : BlockId} {w w' : Work}

/-- Every tally counts once what is on every path to its block. -/
def CountsDominators (g : Graph) (w : Work) : Prop :=
  ∀ b t, w.tallies.get? b = some t → ∀ d, g.OnEveryPath d b → t.get? d = some .once

section Counts

variable (hg : g.Checked) (hloops : g.loops = [])
include hg hloops

/-- **An edge takes no dominator away.** -/
theorem CountsDominators.follow (hw : CountsDominators g w) (hs : s ∈ g.succs current)
    (hcurrent : ∃ t, w.tallies.get? current = some t)
    (hf : follow g constant known g.entry current w s = .ok w') : CountsDominators g w' := by
  have hh : g.IsStart none g.entry := rfl
  have hlevel := hg.loopOf_of_loops_eq_nil hloops
  obtain ⟨t, ht⟩ := hcurrent
  have hentry : ∀ b, g.OnEveryPath g.entry b := fun b p hp => List.mem_of_mem_head? hp.head
  obtain ⟨-, htallies, -⟩ := follow_eq_ok hf
  unfold CountsDominators
  rw [htallies, leaving_of_level hg hh (hlevel current), OrderedMap.getD, ht, Option.getD_some]
  refine OrderedMap.forall_get?_insert hw fun d hd => ?_
  unfold arriving
  rw [hg.isHeader_of_loops_eq_nil hloops, Bool.not_false, Bool.true_or, if_pos rfl,
    OrderedMap.get?_insert]
  split
  · rfl
  · next hne =>
    exact (get?_merged fun t' ht' => hw s t' ht' g.entry (hentry s)).2
      ⟨hw current t ht d (Graph.onEveryPath_pred hd hne hs), fun t' ht' => hw s t' ht' d hd⟩

/-- **Every node** counts what dominates it. -/
theorem countsDominators_of_analyse {r : Region}
    (hr : analyse g constant limit known g.entry = .ok r) {t : Tally}
    (ht : r.nodes.get? b = some t) (hd : g.OnEveryPath d b) : t.get? d = some .once := by
  have hh : g.IsStart none g.entry := rfl
  have hlevel := hg.loopOf_of_loops_eq_nil hloops
  obtain ⟨w, hw, hnodes, -⟩ := exists_work (P := CountsDominators g) (fun _ _ hw => hw)
    (fun current s hs w w' hcurrent hf hw => hw.follow hg hloops
      ((hg.mem_regionSuccs_of_level hh (hlevel current)).1 hs).1 hcurrent hf)
    (OrderedMap.forall_get?_insert (by simp) fun d hd => by
      rw [Graph.eq_entry_of_onEveryPath hd, OrderedMap.get?_insert, if_pos rfl]) hr
  exact hw b t (hnodes ▸ ht) d hd

/-- Every block is a node, and no block is in a loop inside. -/
theorem get?_blocks_of_analyse {r : Region}
    (hr : analyse g constant limit known g.entry = .ok r) (b : BlockId) :
    r.blocks.get? b = r.nodes.get? b ∧ ((∃ t, r.nodes.get? b = some t) ↔ b ∈ g.ids) := by
  have hh : g.IsStart none g.entry := rfl
  have hlevel := hg.loopOf_of_loops_eq_nil hloops b
  have hexits : ExitsLocal g (exitTally g constant known (g.loops.length + 1)) := fun l hl => by
    rw [hloops] at hl
    exact absurd hl (Nat.not_lt_zero l)
  obtain ⟨hdrained, -, hblocks⟩ := analyse_eq_ok hg hh hexits hr
  obtain ⟨w, hw, hnodes, -⟩ := exists_work_placed hg hh hr
  exact ⟨hblocks b hlevel, fun ⟨t, ht⟩ => (hw.node b t (hnodes ▸ ht)).1,
    fun hid => hdrained.complete hg hh hid (.inl hlevel)⟩

/-- **The answer without loops.** -/
theorem listsExactly_constantLoopDominators {k : DominatorTable}
    (hk : g.constantLoopDominators constant limit false g.entry = .ok k) :
    k.ListsExactly g (· ∈ g.ids) := by
  obtain ⟨r, hr, hget⟩ := get?_constantLoopDominators hg hk
  have hrow : ∀ b doms, k.get? b = some doms ↔ ∃ t, r.nodes.get? b = some t ∧ t.blocks = doms := by
    intro b doms
    rw [hget, (get?_blocks_of_analyse hg hloops hr b).1]
    exact and_iff_left fun h => absurd h Bool.false_ne_true
  refine ⟨fun b => ?_, fun b hb a => ?_⟩
  · refine OrderedMap.contains_iff.trans (Iff.trans ?_ (get?_blocks_of_analyse hg hloops hr b).2)
    exact ⟨fun ⟨doms, hdoms⟩ => ((hrow b doms).1 hdoms).imp fun _ => And.left,
      fun ⟨t, ht⟩ => ⟨_, (hrow b _).2 ⟨t, ht, rfl⟩⟩⟩
  · rw [hg.dominates_iff hb]
    constructor
    · intro ha p hp
      -- there is no loop that a path could leave too early
      have hout := Graph.not_within_of_loops_eq_nil hloops
      obtain ⟨v, hv⟩ := exists_visits hg hk (hout · b) ha
      refine (hv (fun _ => 2) (fun _ => p.length) p hp ?_).2 fun _ _ _ => Nat.le_refl 2
      rintro l - x stay y - - hne hin -
      obtain ⟨z, hz⟩ := List.exists_mem_of_ne_nil _ hne
      exact absurd (hin z hz) (hout l z)
    · intro hd
      obtain ⟨t, ht⟩ := (get?_blocks_of_analyse hg hloops hr b).2.2 hb
      refine DominatorTable.mem_of.2 ⟨_, (hrow b _).2 ⟨t, ht, rfl⟩, Tally.mem_blocks.2 ⟨.once, ?_⟩⟩
      exact countsDominators_of_analyse hg hloops hr ht hd

end Counts
end ConstantLoop

/-! ### The bounded analysis -/

namespace Bounded

variable {inner doms m : DominatorTable}

/-- Every set lists what is on every path to its block. -/
def ListsDominators (g : Graph) (doms : DominatorTable) : Prop :=
  ∀ b ∈ g.ids, ∀ d, g.OnEveryPath d b → d ∈ doms.of b

section Lists

variable (hg : g.Checked) (hloops : g.loops = [])
include hg hloops

/-- **A refinement takes no dominator away.** -/
theorem ListsDominators.refine (hdoms : ListsDominators g doms) (b : BlockId) :
    ListsDominators g (doms.insert b (Bounded.refine g constant inner g.entry doms b)) := by
  have hlevel := hg.loopOf_of_loops_eq_nil hloops
  intro x hx d hd
  rw [of_insert]
  split
  · next he =>
    subst he
    rw [Bounded.refine, OrderedSet.mem_insert]
    by_cases hdx : d = x
    · exact .inl hdx
    have hne : x ≠ g.entry := by
      rintro rfl
      exact hdx (Graph.eq_entry_of_onEveryPath hd)
    have key : ∀ (ps : List BlockId) (shared : BlockSet), (∀ p ∈ ps, p ∈ outerPreds g x) →
        d ∈ shared → d ∈ ps.foldl (arrive g constant inner g.entry doms x) shared := by
      intro ps
      induction ps with
      | nil => exact fun _ _ hshared => hshared
      | cons p ps ih =>
        intro shared hps hshared
        have hp := hps p List.mem_cons_self
        have hs := ((mem_outerPreds hg).1 hp).1
        refine ih _ (fun y hy => hps y (List.mem_cons_of_mem _ hy))
          (mem_arrive_of_offers hg (.inl (hlevel x)) hne hp hshared (.inl ⟨hlevel p, ?_⟩) ?_)
        · exact hdoms p (Shape.mem_ids_of_mem_succs hs) d (Graph.onEveryPath_pred hd hdx hs)
        · intro c hc
          exact absurd (hg.within_header hc.1) (Graph.not_within_of_loops_eq_nil hloops c _)
    exact .inr (key _ _ (fun _ hp => hp) (hdoms x hx d hd))
  · exact hdoms x hx d hd

theorem listsDominators_candidates (inner : DominatorTable) :
    ListsDominators g (candidates (OrderedSet.ofList (region g g.entry)) inner g.entry) := by
  have hh : g.IsStart none g.entry := rfl
  have hregion : ∀ b ∈ g.ids, b ∈ region g g.entry := fun b hb =>
    hg.mem_region_of_isNode hh hb (.inl (hg.loopOf_of_loops_eq_nil hloops b))
  intro b hb d hd
  rw [mem_candidates (hregion b hb)]
  by_cases hbe : b = g.entry
  · exact .inl ⟨hbe, Graph.eq_entry_of_onEveryPath (hbe ▸ hd)⟩
  · obtain ⟨p, hp, -⟩ := hg.exists_ascending hb
    exact .inr ⟨hbe, .inl (hregion d (hp.mem_ids hg.wellFormed hg.entry_mem d (hd p hp)))⟩

/-- **The sets that the sweeps end with.** -/
theorem listsDominators_of_settle {sweeps : Nat} {blocks : List BlockId}
    (hsettle : settle (sweep g constant inner g.entry blocks) sweeps
      (candidates (OrderedSet.ofList (region g g.entry)) inner g.entry) = some doms) :
    ListsDominators g doms := by
  have key : ∀ (bs : List BlockId) (doms : DominatorTable), ListsDominators g doms →
      ListsDominators g (sweep g constant inner g.entry bs doms) := by
    intro bs
    induction bs with
    | nil => exact fun _ hdoms => hdoms
    | cons b bs ih => exact fun _ hdoms => ih _ (hdoms.refine hg hloops b)
  exact (settle_induction (key blocks) (listsDominators_candidates hg hloops inner) hsettle).1

/-- **The answer without loops.** -/
theorem listsExactly_boundedDominators
    (hm : g.boundedDominators constant limit g.entry = .ok m) :
    m.ListsExactly g fun b => b ∈ g.ids ∧ g.succs b = [] := by
  have hout := Graph.not_within_of_loops_eq_nil hloops
  have hne : m.isEmpty = false := by
    rw [← Bool.not_eq_true, boundedDominators_isEmpty_iff hg hm, hloops]
    simp
  obtain ⟨fuel, inner, -, hanswered⟩ := exists_answered hm hne
  obtain ⟨doms, hsettle, hends⟩ := ofRegion_eq_ok hanswered.result
  have hdoms := listsDominators_of_settle hg hloops hsettle
  refine ⟨fun b => ?_, fun b ⟨hid, hsuccs⟩ a => ?_⟩
  · refine OrderedMap.contains_iff.trans (Iff.trans ?_ (mem_ends_iff hg))
    exact ⟨fun ⟨s, hs⟩ => ((hends b s).1 hs).1, fun hb => ⟨_, (hends b _).2 ⟨hb, rfl⟩⟩⟩
  · rw [hg.dominates_iff hid]
    constructor
    · intro ha p hp
      have hround : g.GoesRound constant p := by
        intro l _ xs stay ys _ hstay hin
        obtain ⟨z, hz⟩ := List.exists_mem_of_ne_nil _ hstay
        exact absurd (hin z hz) (hout l z)
      refine (covered_of_entry hg hm hsuccs ha hp hround).resolve_right ?_
      exact fun ⟨l, hl, _⟩ => hout l a hl
    · intro hd
      refine DominatorTable.mem_of.2 ⟨_, (hends b _).2 ⟨(mem_ends_iff hg).2 ⟨hid, hsuccs⟩, rfl⟩, ?_⟩
      exact OrderedSet.mem_union.2 (.inl (hdoms b hid a hd))

end Lists
end Bounded

/-- **Without loops the three analyses agree.**  Let an accepted graph have no loops.
Whatever the constant headers and the limit are, the constant-loop analysis, if it succeeds,
lists for every block the blocks that dominate it, and the bounded analysis, if it does, for
every block without successors.  With a limit that is large enough for the graph both
succeed. -/
theorem dominators_agree {g : Graph} (hg : g.Accepted) (hloops : g.loops = [])
    (constant : ConstantBounds) (limit : Int64) :
    (∀ k, g.constantLoopDominators constant limit false g.entry = .ok k →
        k.ListsExactly g (· ∈ g.ids)) ∧
      (∀ m, g.boundedDominators constant limit g.entry = .ok m →
        m.ListsExactly g fun b => b ∈ g.ids ∧ g.succs b = []) ∧
      (((g.size * g.size + 1 : Nat) : Int) ≤ limit.toInt →
        limit.toInt * ((g.size + 1 : Nat) : Int) < 2 ^ 63 →
        (∃ k, g.constantLoopDominators constant limit false g.entry = .ok k) ∧
          ∃ m, g.boundedDominators constant limit g.entry = .ok m) :=
  ⟨fun _ hk => ConstantLoop.listsExactly_constantLoopDominators hg.checked hloops hk,
    fun _ hm => Bounded.listsExactly_boundedDominators hg.checked hloops hm,
    fun hsquare hfits => ⟨exists_constantLoopDominators hg.checked hsquare hfits constant false,
      exists_boundedDominators hg.checked hsquare constant⟩⟩

/-- Of the two ways to the end of `forked` neither is listed, and its entry is. -/
theorem dominators_agree_forked :
    ∃ k m, Graph.forked.constantLoopDominators (fun _ => true) 17 false 0 = .ok k ∧
      Graph.forked.boundedDominators (fun _ => true) 17 0 = .ok m ∧
      (0 ∈ k.of 3 ∧ 1 ∉ k.of 3) ∧ ∀ a, a ∈ m.of 3 ↔ a ∈ k.of 3 := by
  obtain ⟨hcounted, hbounded, hlimit⟩ := dominators_agree (g := Graph.forked)
    (Graph.accepted_drawn _) (by decide +kernel) (fun _ => true) 17
  obtain ⟨⟨k, hk⟩, m, hm⟩ := hlimit (by decide +kernel) (by decide +kernel)
  have hk3 := (hcounted k hk).2 3 (by decide +kernel)
  have hm3 := (hbounded m hm).2 3 (by decide +kernel)
  refine ⟨k, m, hk, hm, ⟨(hk3 0).2 (by decide +kernel), fun h => ?_⟩, fun a =>
    (hm3 a).trans (hk3 a).symm⟩
  exact absurd ((hk3 1).1 h) (by decide +kernel)

end ConstantTime
