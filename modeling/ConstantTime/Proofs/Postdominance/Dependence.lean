/-
# What a block depends on

"Single-Path Constant-Time Transformation Engine", §4.3.

The header of a loop depends on the entry of the loop only (`IsAnswer.mem_of_header`).  Any
other block depends on what decides about it in the region on whose level it is (`Decides`):
on the entry of the region if it post-dominates the start, and on the edges of the function that
lead to a node it post-dominates from a node that it does not (`IsAnswer.mem_of_iff_decides`).

The dependences are found at one predecessor after another, and over an inner loop all its
exits to the node are found together.  So what is found at a predecessor are the edges from all
blocks that the same node stands for (`IsAnswer.exists_overPred`).  No step fails: a predecessor
of a node that is not the start is inside the region, and what decides passes the check of
the dependences (`IsAnswer.exists_ofPostdominators`).

Something always decides: the start is post-dominated by the block or not, and on the way from
the start to the block itself some edge leads from a node that the block does not post-dominate
to one that it does (`IsAnswer.exists_dep`).
-/

import ConstantTime.Postdominance.ControlDependence
import ConstantTime.Proofs.Postdominance.Chain

namespace ConstantTime

open ConstantTime.Graph

variable {g : Graph} {a b e h n x y z : BlockId} {o r : Option LoopId} {dep : Dependence}
  {p : Postdominators} {d : Dependences}

namespace Postdominators

theorem dominates_iff {doms : DominatorTable} : doms.dominates a b = true ↔ a ∈ doms.of b :=
  decide_eq_true_iff

theorem mem_dominees : z ∈ p.dominees g o a ↔ ∃ r ∈ g.regionsWithin o, a ∈ (p.region r).of z := by
  simp only [dominees, OrderedSet.mem_ofList, List.mem_flatMap, List.mem_map, List.mem_filter,
    decide_eq_true_eq]
  refine exists_congr fun r => and_congr_right fun _ => ?_
  constructor
  · rintro ⟨⟨z, s⟩, ⟨hs, ha⟩, rfl⟩
    rwa [DominatorTable.of, OrderedMap.getD_eq, OrderedMap.get?_eq_some_iff.2 hs]
  · intro ha
    obtain ⟨s, hs⟩ := OrderedMap.contains_iff.1 (Settled.contains_of_mem ha)
    rw [DominatorTable.of, OrderedMap.getD_eq, hs] at ha
    exact ⟨(z, s), ⟨OrderedMap.get?_eq_some_iff.1 hs, ha⟩, rfl⟩

namespace IsAnswer

variable (hg : g.Checked) (hp : IsAnswer g e p)
include hp

/-- To post-dominate in some region is to do so in the table of that region. -/
theorem postdominates_iff :
    p.postdominates a b = true ↔ ∃ o h, g.IsStart o h ∧ a ∈ (p.region o).of b := by
  simp only [postdominates, List.any_eq_true, dominates_iff]
  constructor
  · rintro ⟨r, hr, ha⟩
    obtain ⟨h, hh⟩ := hp.isRegion r hr
    exact ⟨r.loop, h, hh, by rwa [hp.region r hr]⟩
  · rintro ⟨o, h, hh, ha⟩
    obtain ⟨r, hr, rfl⟩ := hp.listed o h hh
    exact ⟨r, hr, by rwa [← hp.region r hr]⟩

include hg

/-- A block that heads no loop is a node of one region only. -/
theorem eq_loopOf (hb : g.isHeader b = false) (hh : g.IsStart o h) (hmem : b ∈ (p.region o).of z) :
    o = g.loopOf b := by
  have hs := hp.settled_region hh
  rcases (hs.node b (hs.contains_and_le hg hh hmem).1).2 with hlevel | ⟨c, hc, rfl⟩
  · exact hlevel.symm
  · rw [isHeader, hg.headedBy_header hc.1] at hb
    cases hb

theorem mem_dominees_iff (hb : g.isHeader b = false) (hh : g.IsStart (g.loopOf b) h) :
    z ∈ p.dominees g (g.loopOf b) b ↔ b ∈ (p.region (g.loopOf b)).of z := by
  rw [mem_dominees]
  constructor
  · rintro ⟨r, hr, hmem⟩
    obtain ⟨h', hh'⟩ := isStart_of_mem_regionsFrom hg hh hr
    exact hp.eq_loopOf hg hb hh' hmem ▸ hmem
  · exact fun hmem => ⟨g.loopOf b, self_mem_regionsFrom _, hmem⟩

theorem postdominatesWithin_iff (hb : g.isHeader b = false) (hh : g.IsStart (g.loopOf b) h) :
    p.postdominatesWithin g (g.loopOf b) b z = true ↔ b ∈ (p.region (g.loopOf b)).of z := by
  rw [← hp.mem_dominees_iff hg hb hh, mem_dominees]
  simp only [postdominatesWithin, List.any_eq_true, dominates_iff]

end IsAnswer
end Postdominators

/-! ### What decides about a block -/

namespace Dependences

/-- **What decides about a block** in the region with start `h`, where `doms` are the
post-dominators of its nodes: the entry if the block post-dominates the start, and every edge to
another node that it post-dominates, from a node that it does not post-dominate. -/
inductive Decides (g : Graph) (doms : DominatorTable) (o : Option LoopId) (h b : BlockId) :
    Dependence → Prop
  | entry (hpost : b ∈ doms.of h) : Decides g doms o h b ⟨.entry, h⟩
  | edge {y n z : BlockId} (hedge : z ∈ g.succs y) (hne : z ≠ h) (hnode : g.IsNode o z)
      (hpost : b ∈ doms.of z) (hfrom : g.regionNode y o = some n) (hnot : b ∉ doms.of n) :
      Decides g doms o h b ⟨.block y, z⟩

theorem Decides.target_mem {doms : DominatorTable} (hdep : Decides g doms o h b dep) :
    b ∈ doms.of dep.target := by
  cases hdep with
  | entry hpost => exact hpost
  | edge _ _ _ hpost => exact hpost

/-- The entry decides together with the start, and with nothing else. -/
theorem Decides.origin_iff {doms : DominatorTable} (hdep : Decides g doms o h b dep) :
    dep.origin = .entry ↔ dep.target = h := by
  cases hdep with
  | entry => exact ⟨fun _ => rfl, fun _ => rfl⟩
  | edge _ hne => exact iff_of_false (by simp) hne

/-- A node is the start of its region if it has no predecessors or heads the loop. -/
theorem isStart_iff (hg : g.Checked) (hh : g.IsStart o h) (hid : z ∈ g.ids) (hz : g.IsNode o z) :
    ((g.preds z).isEmpty || (o.isSome && g.headerOf o = z)) = true ↔ z = h := by
  rw [Bool.or_eq_true, Bool.and_eq_true, decide_eq_true_eq, List.isEmpty_iff]
  have hempty : g.preds z = [] ↔ z = g.entry := by
    constructor
    · intro hnil
      by_contra hne
      obtain ⟨u, hu, -⟩ := hg.exists_pred_before hid hne
      rw [← hg.wellFormed.mem_preds_iff, hnil] at hu
      cases hu
    · rintro rfl
      exact hg.preds_entry
  rw [hempty]
  cases o with
  | none =>
    obtain rfl : h = g.entry := hh
    simp
  | some l =>
    obtain ⟨-, rfl⟩ := hh
    constructor
    · rintro (rfl | ⟨-, he⟩)
      · exact absurd (hg.inside_of_isNode hz) (hg.not_within_entry l)
      · exact he.symm
    · exact fun he => .inr ⟨rfl, he.symm⟩

/-- What decides passes the check of the dependences. -/
theorem Decides.isSound {doms : DominatorTable} (hg : g.Checked) (hh : g.IsStart o h)
    (hdep : Decides g doms o h b dep) : isSound g dep = true := by
  cases hdep with
  | entry =>
    show (g.isHeader h || (g.preds h).isEmpty) = true
    rw [Bool.or_eq_true, List.isEmpty_iff]
    cases o with
    | none =>
      obtain rfl : h = g.entry := hh
      exact .inr hg.preds_entry
    | some l => exact .inl (hg.isHeader_iff.2 ⟨l, hh.1, hh.2.symm⟩)
  | edge hedge => exact decide_eq_true hedge

end Dependences

/-! ### Dependences of a node -/

namespace Postdominators.IsAnswer

open Dependences

variable (hg : g.Checked) (hp : IsAnswer g e p)
include hg hp

section

variable (hb : g.isHeader b = false) (hh : g.IsStart (g.loopOf b) h)
include hb hh

/-- **What is found at a predecessor** are the edges to the node from all blocks that the node
of the predecessor stands for, if it is not post-dominated. -/
theorem exists_overPred (hz : b ∈ (p.region (g.loopOf b)).of z) (hne : z ≠ h)
    (hy : z ∈ g.succs y) :
    ∃ found, overPred p g (g.loopOf b) b z y = .ok found ∧ ∀ dep, dep ∈ found ↔
      ∃ x n, dep = ⟨.block x, z⟩ ∧ z ∈ g.succs x ∧ g.regionNode y (g.loopOf b) = some n ∧
        g.regionNode x (g.loopOf b) = some n ∧ b ∉ (p.region (g.loopOf b)).of n := by
  obtain ⟨-, hznode⟩ := (hp.settled_region hh).node z (Settled.contains_of_mem hz)
  have hin := hg.inside_of_succ hh (hg.inside_of_isNode hznode) hne hy
  obtain ⟨n, hn, hnode⟩ : ∃ n, g.regionNode y (g.loopOf b) = some n ∧ g.IsNode (g.loopOf b) n :=
    ⟨_, hg.regionNode_eq hin, hg.isNode_nodeIn hin⟩
  unfold overPred
  simp only [hn, hp.postdominatesWithin_iff hg hb hh, Option.some.injEq]
  by_cases hpost : b ∈ (p.region (g.loopOf b)).of n
  · rw [if_pos hpost]
    refine ⟨[], rfl, fun dep => iff_of_false List.not_mem_nil ?_⟩
    rintro ⟨x, n, -, -, rfl, -, hnot⟩
    exact hnot hpost
  rw [if_neg hpost]
  by_cases hlevel : g.loopOf n = g.loopOf b
  · -- a block on the level of the region stands for itself
    obtain rfl := (hg.regionNode_eq_level hlevel).1 hn
    rw [if_neg (not_not.2 hlevel)]
    refine ⟨_, rfl, fun dep => List.mem_singleton.trans ?_⟩
    constructor
    · rintro rfl
      exact ⟨y, y, rfl, hy, rfl, hn, hpost⟩
    · rintro ⟨x, n, rfl, -, rfl, hx, -⟩
      rw [(hg.regionNode_eq_level hlevel).1 hx]
  · -- the node is not in the inner loop, which it would head and not be post-dominated
    obtain ⟨c, hc, rfl⟩ := hnode.resolve_left hlevel
    obtain ⟨L, hL⟩ := exists_loop hc.1
    have hout : ¬ g.Within c z := fun hcz => hpost <| by
      rwa [← hg.nodeIn_of_child hc hcz, hg.nodeIn_of_isNode hznode]
    rw [if_pos hlevel, hg.loopOf_header hc.1, Option.bind_some, hL]
    refine ⟨_, rfl, fun dep => ?_⟩
    simp only [Option.map_some, Option.getD_some, List.mem_map, List.mem_filter, decide_eq_true_eq]
    constructor
    · rintro ⟨⟨x, z⟩, ⟨he, rfl⟩, rfl⟩
      obtain ⟨hx, hs, -⟩ := (hg.mem_exits hL).1 he
      exact ⟨x, _, rfl, hs, rfl, (hg.regionNode_eq_header hc).2 hx, hpost⟩
    · rintro ⟨x, n, rfl, hs, rfl, hx, -⟩
      have hx := (hg.regionNode_eq_header hc).1 hx
      exact ⟨⟨x, z⟩, ⟨(hg.mem_exits hL).2 ⟨hx, hs, hout⟩, rfl⟩, rfl⟩

/-- **What is found through a node** is what decides and leads to it. -/
theorem exists_throughDominee (hz : b ∈ (p.region (g.loopOf b)).of z) :
    ∃ found, throughDominee p g (g.loopOf b) b z = .ok found ∧ ∀ dep, dep ∈ found ↔
      dep.target = z ∧ Decides g (p.region (g.loopOf b)) (g.loopOf b) h b dep := by
  obtain ⟨hid, hznode⟩ := (hp.settled_region hh).node z (Settled.contains_of_mem hz)
  unfold throughDominee
  simp only [isStart_iff hg hh hid hznode]
  by_cases hstart : z = h
  · subst hstart
    rw [if_pos rfl]
    refine ⟨_, rfl, fun dep => List.mem_singleton.trans ?_⟩
    constructor
    · rintro rfl
      exact ⟨rfl, .entry hz⟩
    · rintro ⟨ht, hdep⟩
      cases hdep with
      | entry => rfl
      | edge _ hne => exact absurd ht hne
  · rw [if_neg hstart]
    obtain ⟨founds, hpreds, hmem⟩ := Outcome.exists_mapM_flatten fun y hy =>
      hp.exists_overPred hg hb hh hz hstart (hg.wellFormed.mem_preds_iff.1 hy)
    refine ⟨founds.flatten, by rw [hpreds]; rfl, fun dep => (hmem dep).trans ?_⟩
    constructor
    · rintro ⟨y, hy, x, n, rfl, hs, -, hx, hnot⟩
      exact ⟨rfl, .edge hs hstart hznode hz hx hnot⟩
    · rintro ⟨rfl, hdep⟩
      cases hdep with
      | entry => exact absurd rfl hstart
      | @edge y n z hs _ _ _ hy hnot =>
        exact ⟨y, hg.wellFormed.mem_preds_iff.2 hs, y, n, rfl, hs, hy, hy, hnot⟩

/-- **What is found for a block** that heads no loop is what decides. -/
theorem exists_ofNode :
    ∃ found, ofNode p g (g.loopOf b) b = .ok found ∧ ∀ dep, dep ∈ found ↔
      Decides g (p.region (g.loopOf b)) (g.loopOf b) h b dep := by
  obtain ⟨founds, hdominees, hmem⟩ := Outcome.exists_mapM_flatten fun z hz =>
    hp.exists_throughDominee hg hb hh
      ((hp.mem_dominees_iff hg hb hh).1 (OrderedSet.mem_toList.1 hz))
  rw [ofNode, if_neg (by simp [hb])]
  refine ⟨founds.flatten, by rw [hdominees]; rfl, fun dep => (hmem dep).trans ?_⟩
  constructor
  · rintro ⟨z, -, -, hdep⟩
    exact hdep
  · exact fun hdep => ⟨dep.target, OrderedSet.mem_toList.2
      ((hp.mem_dominees_iff hg hb hh).2 hdep.target_mem), rfl, hdep⟩

end

omit hg in
theorem mem_keys_iff {r : PostRegion} (hr : r ∈ p.regions) :
    b ∈ r.doms.keys ↔ (p.region r.loop).contains b = true := by
  rw [hp.region r hr, OrderedMap.mem_keys_iff, OrderedMap.contains]

/-- Every node of a region is a key of its table. -/
theorem exists_mem_keys (hh : g.IsStart o h) (hid : b ∈ g.ids) (hb : g.IsNode o b) :
    ∃ r ∈ p.regions, r.loop = o ∧ b ∈ r.doms.keys := by
  obtain ⟨r, hr, rfl⟩ := hp.listed o h hh
  exact ⟨r, hr, rfl, (hp.mem_keys_iff hr).2
    ((hp.settled_region hh).contains hg hp.isEnd hh hid hb)⟩

/-- A key that heads no loop is on the level of the region. -/
theorem eq_loopOf_of_mem_keys (hb : g.isHeader b = false) {r : PostRegion} (hr : r ∈ p.regions)
    (hkey : b ∈ r.doms.keys) : r.loop = g.loopOf b := by
  obtain ⟨h, hh⟩ := hp.isRegion r hr
  exact hp.eq_loopOf hg hb hh ((hp.settled_region hh).self_mem ((hp.mem_keys_iff hr).1 hkey))

end Postdominators.IsAnswer

/-! ### Dependences of all nodes -/

namespace Dependences

theorem mem_add {e : Dependence} : dep ∈ (d.add y e).of b ↔ dep ∈ d.of b ∨ (b = y ∧ dep = e) := by
  rw [of, add, OrderedMap.getD_insert]
  split
  · next he =>
    subst he
    rw [OrderedSet.mem_insert, or_comm, and_iff_right rfl]
  · next hne => simp [of, hne]

theorem mem_foldl_add {found : List Dependence} :
    dep ∈ (found.foldl (fun d e => d.add y e) d).of b ↔ dep ∈ d.of b ∨ (b = y ∧ dep ∈ found) := by
  induction found generalizing d with
  | nil => simp
  | cons e found ih =>
    rw [List.foldl_cons, ih, mem_add, List.mem_cons, or_assoc, ← and_or_left]

/-- **What is collected** is what is found for the nodes of all regions. -/
theorem mem_of_foldlM (h : p.regions.foldlM (addRegion p g) ∅ = .ok d) :
    dep ∈ d.of b ↔ ∃ r ∈ p.regions, b ∈ r.doms.keys ∧
      ∃ found, ofNode p g r.loop b = .ok found ∧ dep ∈ found := by
  have hempty : ¬ dep ∈ (∅ : Dependences).of b := OrderedSet.not_mem_empty
  rw [Outcome.foldlM_adds (P := fun d => dep ∈ of d b) (Q := fun r : PostRegion =>
    b ∈ r.doms.keys ∧ ∃ found, ofNode p g r.loop b = .ok found ∧ dep ∈ found) ?_ h]
  · exact or_iff_right hempty
  intro d r d' hadd
  rw [Outcome.foldlM_adds (P := fun d => dep ∈ of d b) (Q := fun y =>
    b = y ∧ ∃ found, ofNode p g r.loop b = .ok found ∧ dep ∈ found) ?_ hadd]
  · simp
  intro d y d' hstep
  simp only [Outcome.bind_eq_ok, Outcome.pure_eq_ok] at hstep
  obtain ⟨found, hfound, rfl⟩ := hstep
  rw [mem_foldl_add]
  refine or_congr_right (and_congr_right fun he => ?_)
  subst he
  simp [hfound]

/-- What blocks depend on is what is collected, if it passes the check. -/
theorem ofPostdominators_eq_ok : ofPostdominators p g = .ok d ↔
    p.regions.foldlM (addRegion p g) ∅ = .ok d ∧ validate g d = none := by
  unfold ofPostdominators
  rw [Outcome.bind_eq_ok]
  constructor
  · rintro ⟨d', hfold, hvalid⟩
    split at hvalid
    · cases hvalid
    · next hnone =>
      cases hvalid
      exact ⟨hfold, hnone⟩
  · rintro ⟨hfold, hnone⟩
    exact ⟨d, hfold, by rw [hnone]; rfl⟩

theorem mem_of_iff (h : ofPostdominators p g = .ok d) :
    dep ∈ d.of b ↔ ∃ r ∈ p.regions, b ∈ r.doms.keys ∧
      ∃ found, ofNode p g r.loop b = .ok found ∧ dep ∈ found :=
  mem_of_foldlM (ofPostdominators_eq_ok.1 h).1

/-- Nothing is complained about if every dependence is sound. -/
theorem validate_eq_none (h : ∀ b, ∀ dep ∈ d.of b, isSound g dep = true) : validate g d = none := by
  unfold validate
  rw [List.flatMap_eq_nil_iff.2]
  · rfl
  rintro ⟨b, s⟩ hs
  have hb : d.of b = s := by rw [of, OrderedMap.getD_eq, OrderedMap.get?_eq_some_iff.2 hs]; rfl
  rw [List.map_eq_nil_iff, List.filter_eq_nil_iff]
  intro dep hdep
  have := h b dep (hb ▸ OrderedSet.mem_toList.1 hdep)
  simp [this]

theorem ofNode_of_header (hb : g.isHeader b = true) : ofNode p g o b = .ok [⟨.entry, b⟩] := by
  rw [ofNode, if_pos hb]

end Dependences

/-! ### Dependences of a block -/

namespace Postdominators.IsAnswer

open Dependences

/-- The region on whose level a block is has a start. -/
theorem exists_isStart (hg : g.Checked) (b : BlockId) : ∃ h, g.IsStart (g.loopOf b) h := by
  cases hl : g.loopOf b with
  | none => exact ⟨g.entry, rfl⟩
  | some l => exact ⟨g.header l, lt_of_within (hg.loopOf_eq_some.1 hl).1, rfl⟩

variable (hg : g.Checked) (hp : IsAnswer g e p)
include hg hp

/-- For every key something sound is found. -/
theorem exists_sound_ofNode {r : PostRegion} (hr : r ∈ p.regions) (hkey : b ∈ r.doms.keys) :
    ∃ found, ofNode p g r.loop b = .ok found ∧ ∀ dep ∈ found, isSound g dep = true := by
  cases hb : g.isHeader b with
  | true =>
    refine ⟨_, ofNode_of_header hb, fun dep hdep => ?_⟩
    rw [List.mem_singleton.1 hdep]
    simp [isSound, hb]
  | false =>
    obtain ⟨h, hh⟩ := exists_isStart hg b
    obtain ⟨found, hfound, hmem⟩ := hp.exists_ofNode hg hb hh
    rw [hp.eq_loopOf_of_mem_keys hg hb hr hkey]
    exact ⟨found, hfound, fun dep hdep => ((hmem dep).1 hdep).isSound hg hh⟩

/-- **Dependences are always found.** -/
theorem exists_ofPostdominators : ∃ d, ofPostdominators p g = .ok d := by
  obtain ⟨d, hd, -⟩ : ∃ d, p.regions.foldlM (addRegion p g) ∅ = .ok d ∧ True := by
    refine Outcome.exists_foldlM (fun d r hr _ => ?_) trivial
    refine Outcome.exists_foldlM (fun d b hkey _ => ?_) trivial
    obtain ⟨found, hfound, -⟩ := hp.exists_sound_ofNode hg hr hkey
    exact ⟨_, by rw [hfound]; rfl, trivial⟩
  refine ⟨d, ofPostdominators_eq_ok.2 ⟨hd, validate_eq_none fun b dep hdep => ?_⟩⟩
  obtain ⟨r, hr, hkey, found, hfound, hmem⟩ := (mem_of_foldlM hd).1 hdep
  obtain ⟨found', hfound', hsound⟩ := hp.exists_sound_ofNode hg hr hkey
  rw [hfound] at hfound'
  cases hfound'
  exact hsound dep hmem

variable (hd : ofPostdominators p g = .ok d)
include hd

/-- **The header of a loop** depends on the entry of the loop only. -/
theorem mem_of_header (hb : g.isHeader b = true) : dep ∈ d.of b ↔ dep = ⟨.entry, b⟩ := by
  rw [mem_of_iff hd]
  constructor
  · rintro ⟨r, -, -, found, hfound, hdep⟩
    rw [ofNode_of_header hb] at hfound
    cases hfound
    exact List.mem_singleton.1 hdep
  · rintro rfl
    obtain ⟨l, hl, rfl⟩ := hg.isHeader_iff.1 hb
    have hh : g.IsStart (some l) (g.header l) := ⟨hl, rfl⟩
    obtain ⟨r, hr, -, hkey⟩ := hp.exists_mem_keys hg hh (hg.start_mem_ids hh) (hg.isNode_start hh)
    exact ⟨r, hr, hkey, _, ofNode_of_header hb, List.mem_singleton.2 rfl⟩

/-- **A block that heads no loop** depends on what decides about it. -/
theorem mem_of_iff_decides (hid : b ∈ g.ids) (hb : g.isHeader b = false)
    (hh : g.IsStart (g.loopOf b) h) :
    dep ∈ d.of b ↔ Decides g (p.region (g.loopOf b)) (g.loopOf b) h b dep := by
  obtain ⟨found, hfound, hmem⟩ := hp.exists_ofNode hg hb hh
  rw [mem_of_iff hd, ← hmem dep]
  constructor
  · rintro ⟨r, hr, hkey, found', hfound', hdep⟩
    rw [hp.eq_loopOf_of_mem_keys hg hb hr hkey, hfound] at hfound'
    cases hfound'
    exact hdep
  · intro hdep
    obtain ⟨r, hr, hloop, hkey⟩ := hp.exists_mem_keys hg hh hid (.inl rfl)
    exact ⟨r, hr, hkey, found, by rw [hloop, hfound], hdep⟩

/-- It post-dominates the target of what it depends on, and depends on an entry only with the
start of its region. -/
theorem of_dep (hb : g.isHeader b = false) (hh : g.IsStart (g.loopOf b) h) (hdep : dep ∈ d.of b) :
    b ∈ (p.region (g.loopOf b)).of dep.target ∧ (dep.origin = .entry ↔ dep.target = h) := by
  obtain ⟨r, hr, hkey, -⟩ := (mem_of_iff hd).1 hdep
  obtain ⟨h', hh'⟩ := hp.isRegion r hr
  have hid := ((hp.settled_region hh').node b ((hp.mem_keys_iff hr).1 hkey)).1
  have hdep := (hp.mem_of_iff_decides hg hd hid hb hh).1 hdep
  exact ⟨hdep.target_mem, hdep.origin_iff⟩

/-- **A block that heads no loop depends on something.** -/
theorem exists_dep (hid : b ∈ g.ids) (hb : g.isHeader b = false) : ∃ dep, dep ∈ d.of b := by
  obtain ⟨h, hh⟩ := exists_isStart hg b
  have hs := hp.settled_region hh
  by_contra hnone
  have hnot : ∀ dep, ¬ Decides g (p.region (g.loopOf b)) (g.loopOf b) h b dep := fun dep hdep =>
    hnone ⟨dep, (hp.mem_of_iff_decides hg hd hid hb hh).2 hdep⟩
  -- along the edges of the region the block never comes to post-dominate a node
  suffices hself : b ∉ (p.region (g.loopOf b)).of b from
    hself (hs.self_mem (hs.contains hg hp.isEnd hh hid (.inl rfl)))
  refine (hg.node_induction hh (P := fun n => g.IsNode (g.loopOf b) n ∧
    b ∉ (p.region (g.loopOf b)).of n) ⟨hg.isNode_start hh, fun hmem => ?_⟩ ?_ hid (.inl rfl)).2
  · exact hnot _ (.entry hmem)
  · rintro n s ⟨hn, hout⟩ hsucc
    obtain ⟨hnode, hne, hleads⟩ := (hg.mem_regionSuccs_iff hh hn).1 hsucc
    obtain ⟨y, hy, hyn⟩ := hg.exists_succ_of_leadsOut hleads
    exact ⟨hnode, fun hmem => hnot _ (.edge hy hne hnode hmem hyn hout)⟩

end Postdominators.IsAnswer

namespace Dependences

/-- **Blocks depend on what decides about them.**  Where post-dominators are found for an
accepted graph, dependences are found, for every block.  The header of a loop depends on the
entry of the loop only, and any other block of a region on what decides in this region whether
it is executed. -/
theorem depends_iff_decides {g : Graph} (hg : g.Accepted) {limit : Int64} {p : Postdominators}
    (hp : Postdominators.ofGraph g limit = .ok p) :
    ∃ d, ofPostdominators p g = .ok d ∧ (∀ b ∈ g.ids, d.contains b = true) ∧
      (∀ b ∈ g.ids, g.isHeader b = true → ∀ dep, dep ∈ d.of b ↔ dep = ⟨.entry, b⟩) ∧
      ∀ o h, g.IsStart o h → ∀ b ∈ g.ids, g.IsNode o b → g.isHeader b = false →
        ∀ dep, dep ∈ d.of b ↔ Decides g (p.region o) o h b dep := by
  have hc := hg.checked
  obtain ⟨e, hp⟩ := Postdominators.isAnswer_of_ofGraph hc hp
  obtain ⟨d, hd⟩ := hp.exists_ofPostdominators hc
  refine ⟨d, hd, fun b hid => ?_, fun b _ hb dep => hp.mem_of_header hc hd hb,
    fun o h hh b hid hn hb dep => ?_⟩
  · cases hb : g.isHeader b with
    | true => exact OrderedMap.contains_of_mem_getD ((hp.mem_of_header hc hd hb).2 rfl)
    | false =>
      obtain ⟨dep, hdep⟩ := hp.exists_dep hc hd hid hb
      exact OrderedMap.contains_of_mem_getD hdep
  · obtain rfl : g.loopOf b = o := hn.resolve_right fun ⟨c, hchild, he⟩ => by
      rw [hc.isHeader_iff.2 ⟨c, hchild.1, he.symm⟩] at hb
      cases hb
    exact hp.mem_of_iff_decides hc hd hid hb hh

/-- A loop that is left from its header and from its latch for different blocks. -/
def twoExits : Graph :=
  drawn 6 [(0, 1), (1, 2), (2, 1), (1, 3), (2, 4), (3, 5), (4, 5)] (by decide +kernel)

/-- The post-dominators of `twoExits`. -/
def twoExitsDoms : Postdominators :=
  (Postdominators.ofGraph twoExits 50).toOption.get (by decide +kernel)

/-- In `twoExits` what decides about the block after the latch is the edge from there, though the
node it comes from is the header; the exit from the header does not. -/
theorem depends_iff_decides_twoExits :
    ∃ d, ofPostdominators twoExitsDoms twoExits = .ok d ∧ ⟨.block 2, 4⟩ ∈ d.of 4 ∧
      ⟨.block 1, 3⟩ ∉ d.of 4 ∧ ⟨.entry, 1⟩ ∈ d.of 1 := by
  have hp : Postdominators.ofGraph twoExits 50 = .ok twoExitsDoms := Outcome.eq_ok_get _
  obtain ⟨d, hd, -, hheader, hlevel⟩ := depends_iff_decides (Graph.accepted_drawn _) hp
  have hiff := hlevel none 0 (by decide +kernel : 0 = twoExits.entry) 4 (by decide +kernel)
    (.inl (by decide +kernel)) (by decide +kernel)
  refine ⟨d, hd, (hiff _).2 ?_, fun hmem => ?_, (hheader 1 (by decide +kernel)
    (by decide +kernel) _).2 rfl⟩
  · exact .edge (n := 1) (by decide +kernel) (by decide) (.inl (by decide +kernel))
      (by decide +kernel) (by decide +kernel) (by decide +kernel)
  · exact absurd ((hiff _).1 hmem).target_mem (by decide +kernel)

end Dependences
end ConstantTime
