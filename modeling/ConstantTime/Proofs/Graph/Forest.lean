/-
# The loops of an accepted graph form a forest

"Single-Path Constant-Time Transformation Engine", §3 and §12.1.

The loops of a graph are listed with their latches, blocks and exits, each with
its parent and depth, and every block knows its innermost loop.  `LoopForest`
collects what all of this means in terms of edges, paths and dominators alone:
which edges are back edges, which blocks a loop holds, that two loops are nested
or share no block, that a loop is entered at its header only, and that parents,
depths and innermost loops follow the nesting.

`loopForest` proves it of every accepted graph.  Nothing here is new about single
loops; what has to be shown is that "inside" said with headers, as the other
modules say it (`g.Within l (g.header m)`), is strict containment of the blocks
(`Checked.isInside_iff`).
-/

import ConstantTime.Proofs.Graph.Ancestors

namespace ConstantTime

/-- All blocks of the first loop are in the second, which has others besides. -/
def Loop.IsInside (L M : Loop) : Prop :=
  (∀ x ∈ L.members, x ∈ M.members) ∧ ∃ x ∈ M.members, x ∉ L.members

namespace Graph

/-- Of the loops with a property, the one that lies inside all others. -/
def IsInnermostWith (g : Graph) (P : Loop → Prop) (l : LoopId) : Prop :=
  ∃ L, g.loop? l = some L ∧ P L ∧ ∀ m M, g.loop? m = some M → P M → m = l ∨ L.IsInside M

/-- The loops of a graph are its natural loops, and they form a forest. -/
structure LoopForest (g : Graph) : Prop where
  /-- A back edge leads to a dominator of its source. -/
  backEdge : ∀ u v, g.isBackEdge u v = true ↔ v ∈ g.succs u ∧ g.dominates v u = true
  /-- Every other edge goes forward in the reverse postorder. -/
  forward : ∀ u v, v ∈ g.succs u → g.isBackEdge u v = false → [u, v].Sublist g.order
  /-- The target of a back edge heads exactly one loop. -/
  headed : ∀ u h, g.isBackEdge u h = true → ∃! l, ∃ L, g.loop? l = some L ∧ L.header = h
  /-- The latches of a loop are the sources of the back edges to its header. -/
  latches : ∀ l L, g.loop? l = some L →
    L.latches ≠ [] ∧ ∀ u, u ∈ L.latches ↔ g.isBackEdge u L.header = true
  /-- A loop holds its header and what leads to a latch without passing the header. -/
  members : ∀ l L, g.loop? l = some L → ∀ x, x ∈ L.members ↔
    x = L.header ∨ ∃ u ∈ L.latches, ∃ p, g.IsPath x p u ∧ L.header ∉ p
  dominated : ∀ l L, g.loop? l = some L → ∀ x ∈ L.members, g.dominates L.header x = true
  /-- Two loops share no block, or one lies inside the other. -/
  nested : ∀ l L m M, g.loop? l = some L → g.loop? m = some M → l ≠ m →
    (∀ x ∈ L.members, x ∉ M.members) ∨ L.IsInside M ∨ M.IsInside L
  /-- The parent of a loop is the smallest one around it. -/
  parent : ∀ l L, g.loop? l = some L →
    (∀ p, L.parent = some p ↔ g.IsInnermostWith L.IsInside p) ∧
      (L.parent = none ↔ ∀ m M, g.loop? m = some M → ¬ L.IsInside M)
  /-- The depth of a loop is the number of loops around its header. -/
  depth : ∀ l L, g.loop? l = some L → L.depth = g.loops.countP (·.contains L.header)
  /-- The loop of a block is the smallest one that holds it. -/
  innermost : ∀ b, (∀ l, g.loopOf b = some l ↔ g.IsInnermostWith (b ∈ ·.members) l) ∧
    (g.loopOf b = none ↔ ∀ l L, g.loop? l = some L → b ∉ L.members)
  /-- A loop is entered at its header only. -/
  entered : ∀ u v, v ∈ g.succs u → ∀ l L, g.loop? l = some L → v ∈ L.members → u ∉ L.members →
    v = L.header
  /-- The exits of a loop are the edges that leave it, each once. -/
  exits : ∀ l L, g.loop? l = some L → L.exits.Nodup ∧ ∀ u v, (⟨u, v⟩ : FlowEdge) ∈ L.exits ↔
    u ∈ L.members ∧ v ∈ g.succs u ∧ v ∉ L.members
  /-- The list of all loops has each of them once. -/
  listed : g.innerFirst.Nodup ∧ ∀ l, l ∈ g.innerFirst ↔ l < g.loops.length
  /-- It has a loop before those it lies inside. -/
  innerFirst : ∀ l L m M, g.loop? l = some L → g.loop? m = some M → L.IsInside M →
    [l, m].Sublist g.innerFirst

variable {g : Graph} {L M : Loop} {l m p : LoopId} {b u v x : BlockId}

theorem loop?_eq_some_iff : (∃ L, g.loop? l = some L) ↔ l < g.loops.length :=
  ⟨fun ⟨_, h⟩ => (List.getElem?_eq_some_iff.1 h).1, exists_loop⟩

theorem parent_of_loop (h : g.loop? l = some L) : g.parent (some l) = L.parent := by
  rw [parent, Option.bind_some, h, Option.bind_some]

theorem count_within (g : Graph) (b : BlockId) :
    (g.around b).length = g.loops.countP (·.contains b) := by
  have hlist : (List.range g.loops.length).map (fun l => decide (g.Within l b)) =
      g.loops.map (·.contains b) := by
    refine List.ext_getElem (by simp) fun i hi _ => ?_
    have hi : i < g.loops.length := by simpa using hi
    simp [within_iff_mem (List.getElem?_eq_getElem hi), Loop.contains]
  have hcount : ∀ (α : Type) (f : α → Bool) (xs : List α), xs.countP f = (xs.map f).countP id :=
    fun α f xs => by rw [List.countP_map]; rfl
  rw [around, ← List.countP_eq_length_filter, hcount, hlist, ← hcount]

namespace Checked

variable (hg : g.Checked)
include hg

theorem sublist_order_of_place_lt (hu : u ∈ g.ids) (hv : v ∈ g.ids) (h : g.place u < g.place v) :
    [u, v].Sublist g.order := by
  have hu' := getElem?_place hg.nodup_order (hg.mem_order u hu)
  have hv' := getElem?_place hg.nodup_order (hg.mem_order v hv)
  change (placesOf g.order).getD u 0 < (placesOf g.order).getD v 0 at h
  generalize (placesOf g.order).getD u 0 = i at h hu'
  generalize (placesOf g.order).getD v 0 = k at h hv'
  obtain ⟨_, hu'⟩ := List.getElem?_eq_some_iff.1 hu'
  obtain ⟨hlt, hv'⟩ := List.getElem?_eq_some_iff.1 hv'
  rw [← List.take_append_drop k g.order]
  refine (List.singleton_sublist.2 ?_).append (List.singleton_sublist.2 ?_)
  · exact List.mem_iff_getElem.2 ⟨i, by simp; omega, by simpa using hu'⟩
  · exact List.mem_iff_getElem.2 ⟨0, by simp; omega, by simpa using hv'⟩

/-- **Inside, said with headers.** -/
theorem isInside_iff (hL : g.loop? l = some L) (hM : g.loop? m = some M) :
    L.IsInside M ↔ g.Within m (g.header l) ∧ m ≠ l := by
  have hl := loop?_eq_some_iff.1 ⟨L, hL⟩
  have hm := loop?_eq_some_iff.1 ⟨M, hM⟩
  constructor
  · rintro ⟨hsub, x, hx, hxl⟩
    refine ⟨(within_iff_mem hM).2 (hsub _ ((within_iff_mem hL).1 (hg.within_header hl))), ?_⟩
    rintro rfl
    rw [hL] at hM
    cases hM
    exact hxl hx
  · rintro ⟨hw, hne⟩
    refine ⟨fun x hx => ?_, g.header m, ?_, fun hx => hne ?_⟩
    · exact (within_iff_mem hM).1 (hg.within_trans hw ((within_iff_mem hL).2 hx))
    · exact (within_iff_mem hM).1 (hg.within_header hm)
    · exact hg.within_antisymm hw ((within_iff_mem hL).2 hx)

/-- Something is the innermost loop with a property of headers if it lies inside all
others with the property. -/
theorem isInnermostWith_iff {P : Loop → Prop} {Q : LoopId → Prop}
    (hPQ : ∀ m M, g.loop? m = some M → (P M ↔ Q m)) :
    g.IsInnermostWith P l ↔ l < g.loops.length ∧ Q l ∧
      ∀ m < g.loops.length, Q m → g.Within m (g.header l) := by
  constructor
  · rintro ⟨L, hL, hPL, hmin⟩
    have hl := loop?_eq_some_iff.1 ⟨L, hL⟩
    refine ⟨hl, (hPQ l L hL).1 hPL, fun m hm hQ => ?_⟩
    obtain ⟨M, hM⟩ := exists_loop hm
    rcases hmin m M hM ((hPQ m M hM).2 hQ) with rfl | hin
    · exact hg.within_header hl
    · exact ((hg.isInside_iff hL hM).1 hin).1
  · rintro ⟨hl, hQ, hmin⟩
    obtain ⟨L, hL⟩ := exists_loop hl
    refine ⟨L, hL, (hPQ l L hL).2 hQ, fun m M hM hPM => ?_⟩
    by_cases hml : m = l
    · exact .inl hml
    · have hm := loop?_eq_some_iff.1 ⟨M, hM⟩
      exact .inr ((hg.isInside_iff hL hM).2 ⟨hmin m hm ((hPQ m M hM).1 hPM), hml⟩)

theorem parent_eq_some_iff (hL : g.loop? l = some L) :
    L.parent = some p ↔ g.IsInnermostWith L.IsInside p := by
  have hl := loop?_eq_some_iff.1 ⟨L, hL⟩
  rw [hg.isInnermostWith_iff fun m M hM => hg.isInside_iff hL hM, ← parent_of_loop hL]
  constructor
  · intro hp
    obtain ⟨hne, hw, hmin⟩ := hg.parent_eq_some hl hp
    exact ⟨lt_of_within hw, ⟨hw, hne⟩, fun m _ hm => hmin m hm.2 hm.1⟩
  · rintro ⟨-, ⟨hw, hne⟩, hmin⟩
    rcases hg.parent_cases hl with ⟨-, hnone⟩ | ⟨q, hq, hql, hqw, hqmin⟩
    · exact absurd (hnone p hw) hne
    · rw [hq, Option.some_inj]
      exact hg.within_antisymm (hmin q (lt_of_within hqw) ⟨hqw, hql⟩) (hqmin p hne hw)

theorem parent_eq_none_iff (hL : g.loop? l = some L) :
    L.parent = none ↔ ∀ m M, g.loop? m = some M → ¬ L.IsInside M := by
  have hl := loop?_eq_some_iff.1 ⟨L, hL⟩
  rw [← parent_of_loop hL]
  constructor
  · intro hp m M hM hin
    obtain ⟨hw, hne⟩ := (hg.isInside_iff hL hM).1 hin
    exact hne (hg.parent_eq_none hl hp hw)
  · intro hnone
    by_contra hsome
    obtain ⟨q, hq⟩ := Option.ne_none_iff_exists'.1 hsome
    obtain ⟨hne, hw, -⟩ := hg.parent_eq_some hl hq
    obtain ⟨M, hM⟩ := exists_loop (lt_of_within hw)
    exact hnone q M hM ((hg.isInside_iff hL hM).2 ⟨hw, hne⟩)

theorem loopOf_eq_some_iff : g.loopOf b = some l ↔ g.IsInnermostWith (b ∈ ·.members) l := by
  rw [hg.isInnermostWith_iff fun m M hM => (within_iff_mem hM).symm, hg.loopOf_eq_some]
  constructor
  · rintro ⟨hw, hmin⟩
    exact ⟨lt_of_within hw, hw, fun m _ => hmin m⟩
  · rintro ⟨-, hw, hmin⟩
    exact ⟨hw, fun m hm => hmin m (lt_of_within hm) hm⟩

theorem loopOf_eq_none_iff :
    g.loopOf b = none ↔ ∀ l L, g.loop? l = some L → b ∉ L.members := by
  rw [hg.loopOf_eq_none]
  constructor
  · exact fun h l L hL hb => h l ((within_iff_mem hL).2 hb)
  · intro h l hw
    obtain ⟨L, hL, hb⟩ := within_iff.1 hw
    exact h l L hL hb

/-- **Two loops are nested or share no block.** -/
theorem disjoint_or_isInside (hL : g.loop? l = some L) (hM : g.loop? m = some M) (hne : l ≠ m) :
    (∀ x ∈ L.members, x ∉ M.members) ∨ L.IsInside M ∨ M.IsInside L := by
  by_cases hshare : ∃ x ∈ L.members, x ∈ M.members
  · obtain ⟨x, hxL, hxM⟩ := hshare
    rcases hg.within_header_or ((within_iff_mem hL).2 hxL) ((within_iff_mem hM).2 hxM) with h | h
    · exact .inr (.inr ((hg.isInside_iff hM hL).2 ⟨h, hne⟩))
    · exact .inr (.inl ((hg.isInside_iff hL hM).2 ⟨h, hne.symm⟩))
  · exact .inl fun x hxL hxM => hshare ⟨x, hxL, hxM⟩

/-- **The blocks of a loop** lead to a latch past the header. -/
theorem mem_members_iff (hL : g.loop? l = some L) : x ∈ L.members ↔
    x = L.header ∨ ∃ u ∈ L.latches, ∃ p, g.IsPath x p u ∧ L.header ∉ p := by
  have hl := loop?_eq_some_iff.1 ⟨L, hL⟩
  constructor
  · intro hx
    by_cases hxh : x = L.header
    · exact .inl hxh
    · obtain ⟨u, p, hu, hp, hnot, -⟩ := hg.exists_path_to_latch ((hg.mem_members hL).1 hx) hxh
      exact .inr ⟨u, (hg.mem_latches hL).2 hu, p, hp, hnot⟩
  · rw [← within_iff_mem hL, ← header_eq hL]
    rintro (rfl | ⟨u, hu, p, hp, hnot⟩)
    · exact hg.within_header hl
    · -- back along the path from the latch, no block is entered past the header
      have hlatch : g.Within l u := by
        have := (hg.mem_latches hL).1 hu
        rw [← header_eq hL] at this
        exact hg.within_of_retreats hl this
      clear hu
      induction hn : p.length generalizing p u with
      | zero => exact absurd (List.length_eq_zero_iff.1 hn) hp.ne_nil
      | succ n ih =>
        rcases hp.eq_single_or_snoc with ⟨-, rfl⟩ | ⟨w, q, rfl, hs, hq⟩
        · exact hlatch
        · have huh : u ≠ g.header l := by
            rintro rfl
            exact hnot (by simp)
          exact ih w q hq (fun hmem => hnot (List.mem_append_left _ hmem))
            (hg.within_of_succ hlatch huh hs) (by simpa using hn)

theorem nodup_exits (hL : g.loop? l = some L) : L.exits.Nodup := by
  rw [(hg.loop?_eq_some hL).2.2.2, Loops.exitsOf]
  refine List.nodup_flatMap.2 ⟨fun b _ => ?_, ?_⟩
  · refine List.Nodup.map (fun s t he => ?_) ((hg.wellFormed.nodup_succs b).filter _)
    exact congrArg FlowEdge.target he
  · refine (OrderedSet.nodup_toList L.members).imp fun {b c} hne e hb hc => ?_
    obtain ⟨s, -, rfl⟩ := List.mem_map.1 hb
    obtain ⟨t, -, he⟩ := List.mem_map.1 hc
    exact hne (congrArg FlowEdge.source he).symm

theorem sublist_innerFirst (hl : l < g.loops.length) (h : g.Within m (g.header l)) (hne : m ≠ l) :
    [l, m].Sublist g.innerFirst := by
  have hm := lt_of_within h
  obtain ⟨front, back, hsplit⟩ := List.append_of_mem (hg.mem_innerFirst hm)
  have hpair := hg.pairwise_innerFirst
  have hmem := hg.mem_innerFirst hl
  rw [hsplit] at hpair hmem ⊢
  obtain ⟨-, hback, -⟩ := List.pairwise_append.1 hpair
  rcases List.mem_append.1 hmem with hfront | hback'
  · exact (List.singleton_sublist.2 hfront).append ((List.nil_sublist _).cons_cons m)
  · rcases List.mem_cons.1 hback' with rfl | hback'
    · exact absurd rfl hne
    · exact absurd h ((List.pairwise_cons.1 hback).1 l hback')

end Checked

/-- **The loops of an accepted graph form a forest.**  Back edges are the edges to
dominators, and all others go forward; there is one loop for every target of back
edges, with the blocks that lead to a latch past the header, all dominated by it;
loops are nested or disjoint, and entered at their headers only; parents, depths,
innermost loops, exits and the list of all loops are what the nesting says. -/
theorem loopForest {g : Graph} (hg : g.Accepted) : g.LoopForest := by
  have hc := hg.checked
  have hretreats : ∀ u v, g.isBackEdge u v = true ↔ g.Retreats u v := fun _ _ => hc.isBackEdge_iff
  have hlatch : ∀ l L, g.loop? l = some L →
      ∀ u, u ∈ L.latches ↔ g.isBackEdge u L.header = true := fun l L hL u => by
    rw [hretreats, hc.mem_latches hL]
  refine
    { backEdge := fun u v => ?_
      forward := fun u v hs hb => ?_
      headed := fun u h hb => ?_
      latches := fun l L hL => ⟨?_, hlatch l L hL⟩
      members := fun l L hL x => hc.mem_members_iff hL
      dominated := fun l L hL x hx => ?_
      nested := fun l L m M hL hM hne => hc.disjoint_or_isInside hL hM hne
      parent := fun l L hL => ⟨fun p => hc.parent_eq_some_iff hL, hc.parent_eq_none_iff hL⟩
      depth := fun l L hL => ?_
      innermost := fun b => ⟨fun l => hc.loopOf_eq_some_iff, hc.loopOf_eq_none_iff⟩
      entered := fun u v hs l L hL hv hu => ?_
      exits := fun l L hL => ⟨hc.nodup_exits hL, fun u v => ?_⟩
      listed := ⟨hc.nodup_innerFirst, fun l => ⟨hc.lt_of_mem_innerFirst, hc.mem_innerFirst⟩⟩
      innerFirst := fun l L m M hL hM hin => ?_ }
  · rw [hretreats]
    refine and_congr_right fun hs => ?_
    have hu := Shape.mem_ids_of_mem_succs hs
    rw [hc.dominates_iff hu]
    exact ⟨fun hle => hc.onEveryPath_of_retreating hs hle, hc.place_le_of_onEveryPath hu⟩
  · refine hc.sublist_order_of_place_lt (Shape.mem_ids_of_mem_succs hs)
      (hc.wellFormed.isBlock_of_mem_succs hs) (Nat.lt_of_not_le fun hle => ?_)
    rw [(hretreats u v).2 ⟨hs, hle⟩] at hb
    cases hb
  · obtain ⟨l, L, hL, he⟩ := hc.exists_loop_of_retreats ((hretreats u h).1 hb)
    exact ⟨l, ⟨L, hL, he⟩, fun m ⟨M, hM, he'⟩ => hc.header_injective hM hL (he'.trans he.symm)⟩
  · obtain ⟨u, hu⟩ := hc.retreats_header hL
    exact List.ne_nil_of_mem ((hc.mem_latches hL).2 hu)
  · have hw := (within_iff_mem hL).2 hx
    rw [hc.dominates_iff (hc.mem_ids_of_within hw), ← header_eq hL]
    exact hc.onEveryPath_header hw
  · have hl := loop?_eq_some_iff.1 ⟨L, hL⟩
    rw [← count_within, ← header_eq hL, ← hc.loopDepth_eq hl, loopDepth, Option.bind_some, hL]
  · by_contra hne
    rw [← header_eq hL] at hne
    exact hu ((within_iff_mem hL).1 (hc.within_of_succ ((within_iff_mem hL).2 hv) hne hs))
  · rw [hc.mem_exits hL, within_iff_mem hL, within_iff_mem hL]
  · obtain ⟨hw, hne⟩ := (hc.isInside_iff hL hM).1 hin
    exact hc.sublist_innerFirst (loop?_eq_some_iff.1 ⟨L, hL⟩) hw hne

/-- A loop inside a loop, with one exit from the inner one that leaves both. -/
def twoLevels : Graph :=
  drawn 6 [(0, 1), (1, 2), (2, 3), (3, 2), (3, 5), (2, 4), (4, 1), (4, 5)] (by decide +kernel)

/-- In `twoLevels` the loop of block 2 lies inside its parent, the loop of block 1,
the edge from block 3 to the end is an exit of both, and the inner loop is listed
first. -/
theorem loopForest_two_levels : ∃ L M, twoLevels.loop? 1 = some L ∧ L.header = 2 ∧
    twoLevels.loop? 0 = some M ∧ M.header = 1 ∧ L.IsInside M ∧
    (⟨3, 5⟩ : FlowEdge) ∈ L.exits ∧ (⟨3, 5⟩ : FlowEdge) ∈ M.exits ∧
    [1, 0].Sublist twoLevels.innerFirst := by
  have forest : twoLevels.LoopForest := loopForest (accepted_drawn _)
  obtain ⟨L, hL⟩ := exists_loop (g := twoLevels) (l := 1) (by decide +kernel)
  have hhead : L.header = 2 := by
    rw [← header_eq hL]
    decide +kernel
  have hparent : L.parent = some 0 := by
    rw [← parent_of_loop hL]
    decide +kernel
  obtain ⟨M, hM, hin, -⟩ := ((forest.parent 1 L hL).1 0).1 hparent
  have hhead' : M.header = 1 := by
    rw [← header_eq hM]
    decide +kernel
  have hedge : (5 : BlockId) ∈ twoLevels.succs 3 := by decide +kernel
  have h3 : 3 ∈ L.members := (within_iff_mem hL).1 (by decide +kernel)
  have h5 : 5 ∉ M.members := fun h => absurd ((within_iff_mem hM).2 h) (by decide +kernel)
  exact ⟨L, M, hL, hhead, hM, hhead', hin,
    ((forest.exits 1 L hL).2 3 5).2 ⟨h3, hedge, fun h => h5 (hin.1 5 h)⟩,
    ((forest.exits 0 M hM).2 3 5).2 ⟨hin.1 3 h3, hedge, h5⟩,
    forest.innerFirst 1 L 0 M hL hM hin⟩

end Graph
end ConstantTime
