/-
# Passes through a region

One pass through a region is a path from its start that stays inside and does not
come back to the start.  A block is represented by its node, the block itself or
the header of the inner loop that holds it.  An edge on a pass either stays in an
inner loop or leads to a later node, along an edge of the region
(`Checked.edge_cases`).  So a pass never comes back to a node that it has left
(`IsPass.place_le`): at any time it is on a stretch that began when it came to
the node, after blocks that all belong to other nodes (`IsPass.exists_stretch`).

The edges of a region reach all its nodes (`Checked.node_induction`) and lead to later
nodes, so what a node has once its successors have it all nodes have
(`Checked.later_induction`).  If every loop can be left, the way on comes to a block
without successors (`Checked.exists_end`).
-/

import ConstantTime.Graph.Region
import ConstantTime.Proofs.Graph.Path
import ConstantTime.Proofs.Graph.Regions

namespace ConstantTime
namespace Graph

/-- The node that stands for a block of a region. -/
def nodeIn (g : Graph) (o : Option LoopId) (b : BlockId) : BlockId := (g.regionNode b o).getD b

/-- One pass through the region with start `h`, as far as `u`. -/
structure IsPass (g : Graph) (o : Option LoopId) (h : BlockId) (q : List BlockId) (u : BlockId) :
    Prop where
  path : g.IsPath h q u
  inside : ∀ b ∈ q, g.Inside o b
  once : h ∉ q.tail

variable {g : Graph} {o : Option LoopId} {c : LoopId} {b h n s u x y : BlockId} {q : List BlockId}

/-! ### Nodes -/

namespace Checked

variable (hg : g.Checked)
include hg

omit hg in
theorem regionNode_of_level (hb : g.loopOf b = o) : g.regionNode b o = some b := by
  rw [regionNode, if_pos hb]

theorem regionNode_of_child (hc : g.IsChild o c) (hb : g.Within c b) :
    g.regionNode b o = some (g.header c) := by
  have hin : g.contains o b = true := hg.inside_of_child hc hb
  have hinner : g.outermostInner o b = some c := by
    refine (hg.outermostInner_eq_some fun l hl => ?_).2 ⟨hb, hc.2⟩
    exact hg.parent_lt hc.1 (hc.2.trans hl)
  rw [regionNode, if_neg fun hl => hg.not_within_of_level hc hl hb, hin, if_neg (by simp), hinner]
  rfl

omit hg in
theorem nodeIn_of_level (hb : g.loopOf b = o) : g.nodeIn o b = b := by
  rw [nodeIn, regionNode_of_level hb, Option.getD_some]

theorem nodeIn_of_child (hc : g.IsChild o c) (hb : g.Within c b) :
    g.nodeIn o b = g.header c := by
  rw [nodeIn, hg.regionNode_of_child hc hb, Option.getD_some]

theorem nodeIn_of_isNode (hn : g.IsNode o n) : g.nodeIn o n = n := by
  rcases hn with hlevel | ⟨c, hc, rfl⟩
  · exact nodeIn_of_level hlevel
  · exact hg.nodeIn_of_child hc (hg.within_header hc.1)

theorem regionNode_eq (hb : g.Inside o b) : g.regionNode b o = some (g.nodeIn o b) := by
  rcases hg.level_or_child hb with hlevel | ⟨c, hc, hcb⟩
  · rw [nodeIn_of_level hlevel, regionNode_of_level hlevel]
  · rw [hg.nodeIn_of_child hc hcb, hg.regionNode_of_child hc hcb]

theorem isNode_nodeIn (hb : g.Inside o b) : g.IsNode o (g.nodeIn o b) := by
  rcases hg.level_or_child hb with hlevel | ⟨c, hc, hcb⟩
  · rw [nodeIn_of_level hlevel]
    exact .inl hlevel
  · rw [hg.nodeIn_of_child hc hcb]
    exact .inr ⟨c, hc, rfl⟩

theorem inside_of_isNode (hn : g.IsNode o n) : g.Inside o n := by
  rcases hn with hlevel | ⟨c, hc, rfl⟩
  · exact hg.inside_of_level hlevel
  · exact hg.inside_of_child hc (hg.within_header hc.1)

theorem isNode_start (hh : g.IsStart o h) : g.IsNode o h := .inl (hg.loopOf_start hh)

theorem nodeIn_mem_ids (hid : b ∈ g.ids) (hb : g.Inside o b) : g.nodeIn o b ∈ g.ids := by
  rcases hg.level_or_child hb with hlevel | ⟨c, hc, hcb⟩
  · rwa [nodeIn_of_level hlevel]
  · rw [hg.nodeIn_of_child hc hcb]
    exact hg.header_ids hc.1

theorem place_nodeIn_le (hb : g.Inside o b) : g.place (g.nodeIn o b) ≤ g.place b := by
  rcases hg.level_or_child hb with hlevel | ⟨c, hc, hcb⟩
  · rw [nodeIn_of_level hlevel]
  · rw [hg.nodeIn_of_child hc hcb]
    exact hg.place_header_le hcb

/-- On the level of a region only its start is a header. -/
theorem headedBy_of_level (hh : g.IsStart o h) (hb : g.loopOf b = o) (hne : b ≠ h) :
    g.headedBy b = none := by
  by_contra hsome
  obtain ⟨l, hl⟩ := Option.ne_none_iff_exists'.1 hsome
  obtain ⟨L, hL, rfl⟩ := hg.headedBy_eq_some.1 hl
  have hlt := (List.getElem?_eq_some_iff.1 hL).1
  rw [← header_eq hL] at hb hne
  rw [hg.loopOf_header hlt] at hb
  subst hb
  exact hne hh.2.symm

/-! ### Edges of a region -/

/-- An edge from inside a region stays in it if it does not go back to the start
or out to a block that is less deep or in a loop beside. -/
theorem inRegionOf_iff (hh : g.IsStart o h) (hx : g.Inside o x) (hs : s ∈ g.succs x) :
    g.inRegionOf h s = true ↔ g.Inside o s ∧ s ≠ h := by
  have hstart := hg.loopOf_start hh
  simp only [inRegionOf, Bool.and_eq_true, decide_eq_true_eq, Bool.not_eq_true',
    Bool.and_eq_false_iff, decide_eq_false_iff_not, depth_of_level hstart, hstart, not_not, ne_eq]
  constructor
  · rintro ⟨⟨hne, hdepth⟩, hbeside⟩
    refine ⟨?_, hne⟩
    cases o with
    | none => rfl
    | some l =>
      by_contra hout
      obtain ⟨n, hn, rfl, hpar, -⟩ := hg.beside_of_exit hx hs hout hdepth
      rw [hg.depth_header hn, hg.loopOf_header hn] at hbeside
      rcases hbeside with hne | he
      · exact hne (hg.loopDepth_eq_of_parent_eq hn hh.1 hpar)
      · cases he
        exact hout (hg.within_header hn)
  · rintro ⟨hin, hne⟩
    rcases hg.level_or_child hin with hlevel | ⟨c, hc, hcs⟩
    · exact ⟨⟨hne, (depth_of_level hlevel).ge⟩, .inr hlevel⟩
    · have h₁ := hg.loopDepth_le_depth hcs
      have h₂ := hg.loopDepth_child hc
      exact ⟨⟨hne, by omega⟩, .inl (by omega)⟩

theorem mem_regionSuccs_of_level (hh : g.IsStart o h) (hu : g.loopOf u = o) :
    s ∈ g.regionSuccs u h ↔ s ∈ g.succs u ∧ g.Inside o s ∧ s ≠ h := by
  have hcand : g.regionCandidates h u = g.succs u := by
    unfold regionCandidates
    by_cases hne : u = h
    · rw [if_pos hne]
      rfl
    · rw [if_neg hne, hg.headedBy_of_level hh hu hne]
      rfl
  unfold regionSuccs
  rw [OrderedSet.mem_toList, OrderedSet.mem_ofList, hcand, List.mem_filter]
  exact and_congr_right fun hs => hg.inRegionOf_iff hh (hg.inside_of_level hu) hs

theorem mem_regionSuccs_of_child (hh : g.IsStart o h) (hc : g.IsChild o c) :
    s ∈ g.regionSuccs (g.header c) h ↔
      (∃ x, g.Within c x ∧ s ∈ g.succs x ∧ ¬ g.Within c s) ∧ g.Inside o s ∧ s ≠ h := by
  obtain ⟨L, hL⟩ := exists_loop hc.1
  have hcand : s ∈ g.regionCandidates h (g.header c) ↔
      (∃ x, g.Within c x ∧ s ∈ g.succs x ∧ ¬ g.Within c s) ∧
        (g.depth s = g.loopDepth o ∨ g.depth s = g.loopDepth o + 1) := by
    unfold regionCandidates
    simp only [if_neg (hg.header_child_ne hh hc), hg.headedBy_header hc.1, Option.bind_some, hL,
      depth_of_level (hg.loopOf_start hh), List.mem_filter, List.mem_map, Bool.or_eq_true,
      decide_eq_true_eq]
    refine and_congr_left fun _ => ?_
    constructor
    · rintro ⟨⟨x, s⟩, he, rfl⟩
      exact ⟨x, (hg.mem_exits hL).1 he⟩
    · rintro ⟨x, hx⟩
      exact ⟨⟨x, s⟩, (hg.mem_exits hL).2 hx, rfl⟩
  unfold regionSuccs
  rw [OrderedSet.mem_toList, OrderedSet.mem_ofList, List.mem_filter, hcand]
  constructor
  · rintro ⟨⟨⟨x, hx, hs, hout⟩, -⟩, hin⟩
    exact ⟨⟨x, hx, hs, hout⟩, (hg.inRegionOf_iff hh (hg.inside_of_child hc hx) hs).1 hin⟩
  · rintro ⟨⟨x, hx, hs, hout⟩, hin⟩
    refine ⟨⟨⟨x, hx, hs, hout⟩, ?_⟩, (hg.inRegionOf_iff hh (hg.inside_of_child hc hx) hs).2 hin⟩
    exact hg.depth_node (hg.isNode_of_edge hin.1 hs (.inr ⟨c, hc, hx, hout⟩))

theorem mem_ids_of_mem_regionSuccs (hs : s ∈ g.regionSuccs n h) : s ∈ g.ids := by
  unfold regionSuccs at hs
  rw [OrderedSet.mem_toList, OrderedSet.mem_ofList] at hs
  have hcand := (List.mem_filter.1 hs).1
  unfold regionCandidates at hcand
  dsimp only at hcand
  split at hcand
  · next L hL =>
    obtain ⟨l, -, hL⟩ := Option.bind_eq_some_iff.1 hL
    obtain ⟨⟨x, t⟩, he, rfl⟩ := List.mem_map.1 (List.mem_filter.1 hcand).1
    exact hg.wellFormed.isBlock_of_mem_succs ((hg.mem_exits hL).1 he).2.1
  · exact hg.wellFormed.isBlock_of_mem_succs hcand

/-- What an edge of a region leads to. -/
theorem isNode_of_mem_regionSuccs (hh : g.IsStart o h) (hn : g.IsNode o n)
    (hs : s ∈ g.regionSuccs n h) : g.IsNode o s ∧ s ≠ h ∧ g.place n < g.place s := by
  have hplace : ∀ x, g.place n ≤ g.place x → s ∈ g.succs x → g.Inside o s → s ≠ h →
      (∀ c, g.IsChild o c → g.Within c x → ¬ g.Within c s) → g.place n < g.place s := by
    intro x hle hsx hin hne hout
    by_contra hnot
    -- a back edge leads to the header of a loop around its source
    obtain ⟨l, L, hL, hhead⟩ := hg.exists_loop_of_retreats (u := x) (v := s) ⟨hsx, by omega⟩
    have hlt := (List.getElem?_eq_some_iff.1 hL).1
    obtain rfl : g.header l = s := by rw [header_eq hL, hhead]
    have hlx := hg.within_of_retreats hlt ⟨hsx, by omega⟩
    rcases hg.level_or_child hin with hlevel | ⟨c, hc, hcs⟩
    · have := hg.headedBy_of_level hh hlevel hne
      rw [hg.headedBy_header hlt] at this
      cases this
    · exact hout c hc (hg.within_trans hcs hlx) hcs
  rcases hn with hlevel | ⟨c, hc, rfl⟩
  · obtain ⟨hsn, hin, hne⟩ := (hg.mem_regionSuccs_of_level hh hlevel).1 hs
    exact ⟨hg.isNode_of_edge hin hsn (.inl hlevel), hne, hplace n le_rfl hsn hin hne
      fun c hc hcn => absurd hcn (hg.not_within_of_level hc hlevel)⟩
  · obtain ⟨⟨x, hx, hsx, hout⟩, hin, hne⟩ := (hg.mem_regionSuccs_of_child hh hc).1 hs
    exact ⟨hg.isNode_of_edge hin hsx (.inr ⟨c, hc, hx, hout⟩), hne,
      hplace x (hg.place_header_le hx) hsx hin hne
        fun c' hc' hx' => hg.child_unique hc hc' hx hx' ▸ hout⟩

/-- **An edge inside a region** stays in an inner loop, or it leads on along an
edge of the region. -/
theorem edge_cases (hh : g.IsStart o h) (hu : g.Inside o u) (hs : y ∈ g.succs u)
    (hy : g.Inside o y) (hne : y ≠ h) :
    (∃ c, g.IsChild o c ∧ g.Within c u ∧ g.Within c y) ∨
      ((∀ c, g.IsChild o c → g.Within c u → ¬ g.Within c y) ∧
        y ∈ g.regionSuccs (g.nodeIn o u) h) := by
  rcases hg.level_or_child hu with hlevel | ⟨c, hc, hcu⟩
  · refine .inr ⟨fun c hc hcu => absurd hcu (hg.not_within_of_level hc hlevel), ?_⟩
    rw [nodeIn_of_level hlevel]
    exact (hg.mem_regionSuccs_of_level hh hlevel).2 ⟨hs, hy, hne⟩
  · by_cases hcy : g.Within c y
    · exact .inl ⟨c, hc, hcu, hcy⟩
    · refine .inr ⟨fun c' hc' hcu' => hg.child_unique hc hc' hcu hcu' ▸ hcy, ?_⟩
      rw [hg.nodeIn_of_child hc hcu]
      exact (hg.mem_regionSuccs_of_child hh hc).2 ⟨⟨u, hcu, hs, hcy⟩, hy, hne⟩

/-- **The edges of a region reach all its nodes.** -/
theorem node_induction (hh : g.IsStart o h) {P : BlockId → Prop} (start : P h)
    (step : ∀ n s, P n → s ∈ g.regionSuccs n h → P s) {n : BlockId} (hid : n ∈ g.ids)
    (hn : g.IsNode o n) : P n := by
  induction hk : g.place n using Nat.strong_induction_on generalizing n with
  | _ k ih =>
    by_cases hne : n = h
    · exact hne ▸ start
    have hin := hg.inside_of_isNode hn
    have hentry : n ≠ g.entry := by
      rintro rfl
      cases o with
      | none => exact hne hh.symm
      | some l => exact hg.not_within_entry l hin
    obtain ⟨u, hs, hlt⟩ := hg.exists_pred_before hid hentry
    have hu := hg.inside_of_succ hh hin hne hs
    rcases hg.edge_cases hh hu hs hin hne with ⟨c, hc, hcu, hcn⟩ | ⟨-, hsucc⟩
    · -- the only node in an inner loop is its header, before everything in it
      have hhead : n = g.header c := by
        rw [← hg.nodeIn_of_isNode hn, hg.nodeIn_of_child hc hcn]
      have := hg.place_header_le hcu
      rw [← hhead] at this
      omega
    · have hle := hg.place_nodeIn_le hu
      exact step _ _ (ih _ (by omega) (hg.nodeIn_mem_ids (Shape.mem_ids_of_mem_succs hs) hu)
        (hg.isNode_nodeIn hu) rfl) hsucc

/-- What holds of a node once it holds of its successors in the region holds of all
nodes. -/
theorem later_induction (hh : g.IsStart o h) {P : BlockId → Prop}
    (step : ∀ n, g.IsNode o n → (∀ s ∈ g.regionSuccs n h, P s) → P n) {n : BlockId}
    (hn : g.IsNode o n) (hid : n ∈ g.ids) : P n := by
  induction hk : g.size - g.place n using Nat.strong_induction_on generalizing n with
  | _ k ih =>
    refine step n hn fun s hs => ?_
    obtain ⟨hnode, -, hlt⟩ := hg.isNode_of_mem_regionSuccs hh hn hs
    have hsid := hg.mem_ids_of_mem_regionSuccs hs
    have := hg.place_lt_size hsid
    exact ih _ (by omega) hnode hsid rfl

/-- **If every loop can be left, something ends**: from a node of the function that has
successors there is a way to a later one. -/
theorem exists_end (hexits : ∀ L ∈ g.loops, L.exits ≠ []) : ∃ e ∈ g.ids, g.succs e = [] := by
  have hh : g.IsStart none g.entry := rfl
  have hne : ∀ {u s}, s ∈ g.succs u → s ≠ g.entry := by
    rintro u s hs rfl
    have hpred := hg.wellFormed.mem_preds_iff.2 hs
    rw [hg.preds_entry] at hpred
    cases hpred
  refine hg.later_induction hh (P := fun n => n ∈ g.ids → ∃ e ∈ g.ids, g.succs e = [])
    (fun n hn ih hid => ?_) (hg.isNode_start hh) hg.entry_mem hg.entry_mem
  have hlater : ∀ s ∈ g.regionSuccs n g.entry, ∃ e ∈ g.ids, g.succs e = [] := fun s hs =>
    ih s hs (hg.mem_ids_of_mem_regionSuccs hs)
  rcases hn with hlevel | ⟨c, hc, rfl⟩
  · by_cases hsuccs : g.succs n = []
    · exact ⟨n, hid, hsuccs⟩
    · obtain ⟨s, hs⟩ := List.exists_mem_of_ne_nil _ hsuccs
      exact hlater s ((hg.mem_regionSuccs_of_level hh hlevel).2 ⟨hs, inside_none, hne hs⟩)
  · obtain ⟨L, hL⟩ := exists_loop hc.1
    obtain ⟨x, t, hx, hs, ht⟩ := hg.exists_exit hL (hexits L (List.mem_of_getElem? hL))
    exact hlater t ((hg.mem_regionSuccs_of_child hh hc).2 ⟨⟨x, hx, hs, ht⟩, inside_none, hne hs⟩)

end Checked

/-! ### Along a pass -/

namespace IsPass

theorem start (hh : g.Inside o h) : g.IsPass o h [h] h :=
  ⟨.single h, by simpa using hh, by simp⟩

theorem snoc (hq : g.IsPass o h q u) (hs : y ∈ g.succs u) (hy : g.Inside o y) (hne : y ≠ h) :
    g.IsPass o h (q ++ [y]) y := by
  refine ⟨hq.path.snoc hs, fun b hb => ?_, ?_⟩
  · rcases List.mem_append.1 hb with hb | hb
    · exact hq.inside b hb
    · exact List.mem_singleton.1 hb ▸ hy
  · rw [List.tail_append_of_ne_nil hq.path.ne_nil, List.mem_append, not_or, List.mem_singleton]
    exact ⟨hq.once, hne.symm⟩

/-- **Induction along a pass.** -/
theorem snoc_induction {motive : List BlockId → BlockId → Prop} (base : motive [h] h)
    (step : ∀ q u y, g.IsPass o h q u → y ∈ g.succs u → g.Inside o y → y ≠ h → motive q u →
      motive (q ++ [y]) y) (hq : g.IsPass o h q u) : motive q u := by
  obtain ⟨hpath, hin, honce⟩ := hq
  refine Shape.IsPath.snoc_induction (motive := fun q u => (∀ b ∈ q, g.Inside o b) → h ∉ q.tail →
    motive q u) (fun _ _ => base) (fun q u y hq hs ih hin honce => ?_) hpath hin honce
  rw [List.tail_append_of_ne_nil hq.ne_nil, List.mem_append, not_or, List.mem_singleton] at honce
  have hinq : ∀ b ∈ q, g.Inside o b := fun b hb => hin b (List.mem_append_left _ hb)
  exact step q u y ⟨hq, hinq, honce.1⟩ hs (hin y (by simp)) (Ne.symm honce.2) (ih hinq honce.1)

/-- A pass ends where it starts, or came over an edge. -/
theorem eq_start_or_snoc (hq : g.IsPass o h q u) : (q = [h] ∧ u = h) ∨
    ∃ p w, q = p ++ [u] ∧ g.IsPass o h p w ∧ u ∈ g.succs w ∧ u ≠ h :=
  hq.snoc_induction (motive := fun q u => (q = [h] ∧ u = h) ∨
      ∃ p w, q = p ++ [u] ∧ g.IsPass o h p w ∧ u ∈ g.succs w ∧ u ≠ h)
    (.inl ⟨rfl, rfl⟩) fun p w _ hp hs _ hne _ => .inr ⟨p, w, rfl, hp, hs, hne⟩

variable (hg : g.Checked) (hh : g.IsStart o h)
include hg hh

theorem mem_ids (hq : g.IsPass o h q u) : ∀ b ∈ q, b ∈ g.ids :=
  hq.path.mem_ids hg.wellFormed (hg.start_mem_ids hh)

/-- **A pass goes on to later nodes.** -/
theorem place_le (hq : g.IsPass o h q u) :
    ∀ b ∈ q, g.place (g.nodeIn o b) ≤ g.place (g.nodeIn o u) := by
  refine hq.snoc_induction (motive := fun q u =>
    ∀ b ∈ q, g.place (g.nodeIn o b) ≤ g.place (g.nodeIn o u)) ?_ ?_
  · intro b hb
    rw [List.mem_singleton.1 hb]
  · intro q u y hq hs hy hne ih b hb
    rcases List.mem_append.1 hb with hb | hb
    · refine (ih b hb).trans ?_
      have hu := hq.inside u hq.path.last_mem
      rcases hg.edge_cases hh hu hs hy hne with ⟨c, hc, hcu, hcy⟩ | ⟨-, hsucc⟩
      · rw [hg.nodeIn_of_child hc hcu, hg.nodeIn_of_child hc hcy]
      · obtain ⟨hnode, -, hlt⟩ := hg.isNode_of_mem_regionSuccs hh (hg.isNode_nodeIn hu) hsucc
        rw [hg.nodeIn_of_isNode hnode]
        exact hlt.le
    · rw [List.mem_singleton.1 hb]

end IsPass

/-- A path from the entry is a pass through the function. -/
theorem Checked.isPass (hg : g.Checked) (hp : g.IsPath g.entry q u) : g.IsPass none g.entry q u := by
  refine hp.snoc_induction (motive := g.IsPass none g.entry) (.start rfl) ?_
  intro q u y _ hs hq
  refine hq.snoc hs rfl fun he => ?_
  have := hg.wellFormed.mem_preds_iff.2 hs
  rw [he, hg.preds_entry] at this
  simp at this

/-- A pass that came to the node `n` after `q` and has since been on the stretch
`stay`, now at `u`. -/
structure IsStretch (g : Graph) (o : Option LoopId) (h : BlockId) (q : List BlockId) (n : BlockId)
    (stay : List BlockId) (u : BlockId) : Prop where
  arrival : g.IsPass o h (q ++ [n]) n
  node : g.IsNode o n
  fresh : ∀ b ∈ q, g.nodeIn o b ≠ n
  path : g.IsPath n stay u
  level_or_child : (g.loopOf n = o ∧ stay = [n]) ∨
    ∃ c, g.IsChild o c ∧ n = g.header c ∧ ∀ b ∈ stay, g.Within c b

namespace IsStretch

variable {stay : List BlockId}

theorem nodeIn_eq (hg : g.Checked) (h : g.IsStretch o h q n stay u) : g.nodeIn o u = n := by
  rcases h.level_or_child with ⟨hlevel, rfl⟩ | ⟨c, hc, rfl, hin⟩
  · obtain rfl : n = u := by simpa using h.path.last
    exact Checked.nodeIn_of_level hlevel
  · exact hg.nodeIn_of_child hc (hin u h.path.last_mem)

end IsStretch

/-- **A pass is on a stretch.** -/
theorem IsPass.exists_stretch (hg : g.Checked) (hh : g.IsStart o h) (hq : g.IsPass o h q u) :
    ∃ q₀ n stay, q = q₀ ++ stay ∧ g.IsStretch o h q₀ n stay u := by
  refine hq.snoc_induction (motive := fun q u =>
    ∃ q₀ n stay, q = q₀ ++ stay ∧ g.IsStretch o h q₀ n stay u) ?_ ?_
  · have hlevel := hg.loopOf_start hh
    exact ⟨[], h, [h], rfl, .start (hg.inside_of_level hlevel), .inl hlevel, by simp, .single h,
      .inl ⟨hlevel, rfl⟩⟩
  · rintro q u y hq hs hy hne ⟨q₀, n, stay, rfl, hst⟩
    have hu := hq.inside u hq.path.last_mem
    rcases hg.edge_cases hh hu hs hy hne with ⟨c, hc, hcu, hcy⟩ | ⟨-, hsucc⟩
    · -- the stretch goes on in the inner loop
      refine ⟨q₀, n, stay ++ [y], by rw [List.append_assoc], hst.arrival, hst.node, hst.fresh,
        hst.path.snoc hs, .inr ⟨c, hc, ?_, fun b hb => ?_⟩⟩
      · rw [← hst.nodeIn_eq hg, hg.nodeIn_of_child hc hcu]
      · rcases List.mem_append.1 hb with hb | hb
        · rcases hst.level_or_child with ⟨hlevel, rfl⟩ | ⟨c', hc', -, hin⟩
          · obtain rfl : n = u := by simpa using hst.path.last
            exact absurd hcu (hg.not_within_of_level hc hlevel)
          · have := hg.child_unique hc' hc (hin u hst.path.last_mem) hcu
            exact this ▸ hin b hb
        · exact List.mem_singleton.1 hb ▸ hcy
    · -- a new stretch begins
      obtain ⟨hnode, -, hlt⟩ := hg.isNode_of_mem_regionSuccs hh (hg.isNode_nodeIn hu) hsucc
      refine ⟨q₀ ++ stay, y, [y], rfl, hq.snoc hs hy hne, hnode, fun b hb he => ?_, .single y, ?_⟩
      · have := hq.place_le hg hh b hb
        rw [he] at this
        omega
      · rcases hnode with hlevel | ⟨c, hc, rfl⟩
        · exact .inl ⟨hlevel, rfl⟩
        · exact .inr ⟨c, hc, rfl, by simpa using hg.within_header hc.1⟩

end Graph
end ConstantTime
