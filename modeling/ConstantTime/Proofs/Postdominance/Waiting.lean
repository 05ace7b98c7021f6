/-
# How long nodes wait

A node waits until all its successors are settled.  If every loop can be left, some node of
the queue is always ready (`Settling.exists_ready`): the last node that is not settled, in
the order of the graph, has settled successors only, and having one it was queued with it.
So before every node of the queue has waited once more a node is settled, and there are no
more nodes in the queue than edges into blocks, no more settlings than blocks.  With `n`
blocks at most `n * n * n` waits are needed (`Budget`), and the limit allows
`(n * n + 1) * (n + 1)`.

If a loop cannot be left, its header is before no node but itself.  It is never queued
(`Unqueued`), the nodes before it wait for ever, and whatever the limit it is met
(`ofGraph_of_exitless`).
-/

import ConstantTime.Proofs.Postdominance.Chain
import ConstantTime.Proofs.Word
import Mathlib.Algebra.GroupWithZero.Nat
import Mathlib.Algebra.Order.BigOperators.Group.List
import Mathlib.Algebra.Order.Group.Nat

namespace ConstantTime
namespace Postdominators

open ConstantTime.Graph

variable {g : Graph} {b e h n : BlockId} {o : Option LoopId} {doms : DominatorTable}
  {queue : List BlockId} {fuel waits edges : Nat} {limit : Int64}

/-- Is the node settled by the next look at it? -/
def isReady (g : Graph) (o : Option LoopId) (doms : DominatorTable) (b : BlockId) : Bool :=
  !doms.contains b && (successors g o b).all doms.contains

/-- The blocks that are not settled. -/
def unsettled (g : Graph) (doms : DominatorTable) : List BlockId :=
  g.ids.filter fun b => !doms.contains b

/-- The number of edges into blocks of a list. -/
def edgesInto (g : Graph) (bs : List BlockId) : Nat := (bs.map fun b => (g.preds b).length).sum

theorem mem_unsettled : b ∈ unsettled g doms ↔ b ∈ g.ids ∧ doms.contains b = false := by
  simp [unsettled]

theorem length_nodesBefore_le : (nodesBefore g o b).length ≤ (g.preds b).length :=
  List.length_filterMap_le _ _

/-- Settling a block takes it off those that are not settled. -/
theorem unsettled_insert {s : BlockSet} :
    unsettled g (doms.insert b s) = (unsettled g doms).erase b := by
  rw [unsettled, unsettled, (g.nodup_ids.filter _).erase_eq_filter, List.filter_filter]
  refine List.filter_congr fun x _ => ?_
  rw [Bool.eq_iff_iff, Bool.not_eq_true', Bool.and_eq_true, Bool.not_eq_true', bne_iff_ne,
    ← Bool.not_eq_true, OrderedMap.contains_insert, ← Bool.not_eq_true, not_or]

/-! ### A ready node -/

/-- **A node that is no end of its region leads to a node**, if every loop can be left. -/
theorem exists_regionSucc (hg : g.Checked) (hend : g.end? = some e)
    (hexits : ∀ L ∈ g.loops, L.exits ≠ []) (hh : g.IsStart o h) (hid : n ∈ g.ids)
    (hn : g.IsNode o n) (hroot : n ∉ roots g e o) : ∃ s, s ∈ g.regionSuccs n h := by
  -- an edge out of the node stays in the region and does not go back to its start
  have key : ∀ x s, s ∈ g.succs x → g.regionNode x o = some n → g.LeadsOut o n s →
      s ∈ g.regionSuccs n h := by
    intro x s hs hx hout
    have hin : g.Inside o s := by
      cases o with
      | none => rfl
      | some l =>
        by_contra hins
        obtain ⟨L, hL⟩ := exists_loop hh.1
        have hxl : g.Within l x := (hg.regionNode_eq_some.1 hx).1
        exact hroot ((mem_roots_some hL).2 ⟨x, .inr ⟨s, (hg.mem_exits hL).2 ⟨hxl, hs, hins⟩⟩, hx⟩)
    refine (hg.mem_regionSuccs_iff hh hn).2 ⟨hg.isNode_of_leadsOut hout hin, ?_, hout⟩
    rintro rfl
    exact hroot (mem_roots_of_holdsLatch hg hn ((hg.leadsOut_start_iff hh hn).1 hout))
  rcases hn with hlevel | ⟨c, hc, rfl⟩
  · obtain ⟨s, hs⟩ : ∃ s, s ∈ g.succs n := by
      by_contra hnone
      have hempty : g.succs n = [] := List.eq_nil_iff_forall_not_mem.2 fun s hs => hnone ⟨s, hs⟩
      cases o with
      | none => exact hroot (List.mem_singleton.2 (Shape.eq_of_end? hend hid hempty))
      | some l => exact hg.not_within_end hempty l ((hg.loopOf_eq_some.1 hlevel).1)
    exact ⟨s, key n s hs (Graph.Checked.regionNode_of_level hlevel) (.inl ⟨hlevel, hs⟩)⟩
  · obtain ⟨L, hL⟩ := exists_loop hc.1
    obtain ⟨x, s, hx, hs, hout⟩ := hg.exists_exit hL (hexits L (List.mem_of_getElem? hL))
    exact ⟨s, key x s hs (hg.regionNode_of_child hc hx) (.inr ⟨c, hc, rfl, x, hx, hs, hout⟩)⟩

/-- **Some node of the queue is ready**, as long as a node of the region is not settled. -/
theorem Settling.exists_ready (hg : g.Checked) (hend : g.end? = some e)
    (hexits : ∀ L ∈ g.loops, L.exits ≠ []) (hh : g.IsStart o h)
    (hs : Settling g e o queue doms) (hid : n ∈ g.ids) (hn : g.IsNode o n)
    (hopen : doms.contains n = false) : ∃ b ∈ queue, isReady g o doms b = true := by
  -- the last node that is not settled leads to settled nodes only
  induction hk : g.size - g.place n using Nat.strong_induction_on generalizing n with
  | _ k ih =>
    by_cases hlater : ∃ s ∈ g.regionSuccs n h, doms.contains s = false
    · obtain ⟨s, hsucc, hopen'⟩ := hlater
      obtain ⟨hsnode, -, hlt⟩ := hg.isNode_of_mem_regionSuccs hh hn hsucc
      have hsid := hg.mem_ids_of_mem_regionSuccs hsucc
      have := hg.place_lt_size hsid
      exact ih _ (by omega) hsid hsnode hopen' rfl
    · have hsettled : ∀ s ∈ g.regionSuccs n h, doms.contains s = true := fun s hs =>
        Bool.not_eq_false _ ▸ fun hc => hlater ⟨s, hs, hc⟩
      have hroot : n ∉ roots g e o := fun hr => by
        rw [OrderedMap.contains_iff.2 ⟨_, hs.ends n hr⟩] at hopen
        cases hopen
      obtain ⟨s, hsucc⟩ := exists_regionSucc hg hend hexits hh hid hn hroot
      have hqueued : n ∈ queue := by
        refine (hs.before s (hsettled s hsucc) n
          (mem_nodesBefore_of_regionSuccs hg hh hn hsucc)).resolve_left fun hc => ?_
        rw [hc] at hopen
        cases hopen
      refine ⟨n, hqueued, ?_⟩
      rw [isReady, hopen, Bool.not_false, Bool.true_and, List.all_eq_true]
      exact fun t ht => hsettled t ((mem_successors_of_notMem_roots hg hh hn hroot).1 ht)

/-- A node that has to wait waits for a ready one. -/
theorem Settling.waits_for (hg : g.Checked) (hend : g.end? = some e)
    (hexits : ∀ L ∈ g.loops, L.exits ≠ []) (hh : g.IsStart o h)
    (hs : Settling g e o (b :: queue) doms) (hopen : doms.contains b = false)
    (hsuccs : ¬ (successors g o b).all doms.contains = true) :
    isReady g o doms b = false ∧ ∃ x ∈ queue, isReady g o doms x = true := by
  have hready : isReady g o doms b = false := by
    rw [isReady, hopen, Bool.not_false, Bool.true_and]
    exact Bool.eq_false_iff.2 hsuccs
  obtain ⟨hid, hn⟩ := hs.queued b List.mem_cons_self
  obtain ⟨x, hx, hxready⟩ := hs.exists_ready hg hend hexits hh hid hn hopen
  refine ⟨hready, x, (List.mem_cons.1 hx).resolve_left ?_, hxready⟩
  rintro rfl
  rw [hready] at hxready
  cases hxready

/-! ### The waits add up -/

/-- What is left of the fuel and of the waits: the queue and what is queued by nodes that
are not settled stay below the number of edges; every node that is not settled is waited
for by the whole queue once at most, and the next by the nodes before it. -/
structure Budget (g : Graph) (o : Option LoopId) (edges fuel waits : Nat) (queue : List BlockId)
    (doms : DominatorTable) : Prop where
  queued : queue.length + edgesInto g (unsettled g doms) ≤ edges
  looks : waits + (queue.length + edgesInto g (unsettled g doms)) ≤ fuel
  rounds : (unsettled g doms).length * edges + queue.findIdx (isReady g o doms) ≤ waits + edges

namespace Budget

theorem skip (hb : Budget g o edges (fuel + 1) waits (b :: queue) doms)
    (hsettled : doms.contains b = true) : Budget g o edges fuel waits queue doms := by
  obtain ⟨hedges, hfuel, hwaits⟩ := hb
  have hready : isReady g o doms b = false := by simp [isReady, hsettled]
  rw [List.findIdx_cons, hready, cond_false] at hwaits
  rw [List.length_cons] at hedges hfuel
  exact ⟨by omega, by omega, by omega⟩

theorem insert {s : BlockSet} (hb : Budget g o edges (fuel + 1) waits (b :: queue) doms)
    (hid : b ∈ g.ids) (hopen : doms.contains b = false)
    (hready : isReady g o doms b = true) :
    Budget g o edges fuel waits (queue ++ nodesBefore g o b) (doms.insert b s) := by
  obtain ⟨hedges, hfuel, hwaits⟩ := hb
  have hmem : b ∈ unsettled g doms := mem_unsettled.2 ⟨hid, hopen⟩
  have hsum : edgesInto g (unsettled g doms) =
      (g.preds b).length + edgesInto g ((unsettled g doms).erase b) :=
    (List.sum_map_erase (fun b => (g.preds b).length) hmem).symm
  have hlen := List.length_erase_add_one hmem
  have hbefore := length_nodesBefore_le (g := g) (o := o) (b := b)
  rw [List.findIdx_cons, hready, cond_true, ← hlen, Nat.succ_mul] at hwaits
  rw [List.length_cons] at hedges hfuel
  have hplace : (queue ++ nodesBefore g o b).findIdx (isReady g o (doms.insert b s)) ≤
      (queue ++ nodesBefore g o b).length := List.findIdx_le_length
  rw [List.length_append] at hplace
  refine ⟨?_, ?_, ?_⟩
  all_goals rw [unsettled_insert]
  · rw [List.length_append]
    omega
  · rw [List.length_append]
    omega
  · omega

theorem wait (hb : Budget g o edges (fuel + 1) (waits + 1) (b :: queue) doms)
    (hready : isReady g o doms b = false) (hother : ∃ x ∈ queue, isReady g o doms x = true) :
    Budget g o edges fuel waits (queue ++ [b]) doms := by
  obtain ⟨hedges, hfuel, hwaits⟩ := hb
  rw [List.findIdx_cons, hready, cond_false] at hwaits
  rw [List.length_cons] at hedges hfuel
  have hplace : (queue ++ [b]).findIdx (isReady g o doms) = queue.findIdx (isReady g o doms) := by
    rw [List.findIdx_append, if_pos (List.findIdx_lt_length.2 hother)]
  refine ⟨?_, ?_, by rw [hplace]; omega⟩
  · simp only [List.length_append, List.length_singleton]
    omega
  · simp only [List.length_append, List.length_singleton]
    omega

/-- The last wait is not used up while a node waits for another. -/
theorem not_of_zero (hready : isReady g o doms b = false) (hid : b ∈ g.ids)
    (hopen : doms.contains b = false) : ¬ Budget g o edges fuel 0 (b :: queue) doms := by
  rintro ⟨-, -, hrounds⟩
  have hpos : 1 ≤ (unsettled g doms).length :=
    List.length_pos_of_mem (mem_unsettled.2 ⟨hid, hopen⟩)
  have := Nat.mul_le_mul_right edges hpos
  rw [List.findIdx_cons, hready, cond_false] at hrounds
  omega

/-- **Within its budget the queue empties.** -/
theorem exists_settle (hg : g.Checked) (hend : g.end? = some e)
    (hexits : ∀ L ∈ g.loops, L.exits ≠ []) (hh : g.IsStart o h)
    (hs : Settling g e o queue doms) (hb : Budget g o edges fuel waits queue doms) :
    ∃ final, settle g o fuel waits queue doms = some final := by
  fun_induction settle g o fuel waits queue doms with
  | case1 => exact ⟨_, rfl⟩
  | case2 =>
    have := hb.looks
    rw [List.length_cons] at this
    omega
  | case3 fuel waits b queue doms hc ih => exact ih (hs.skip hc) (hb.skip hc)
  | case4 fuel waits b queue doms hc succs hsuccs shared ih =>
    have hopen : doms.contains b = false := by simpa using hc
    refine ih (hs.insert hg hopen hsuccs) (hb.insert (hs.queued b List.mem_cons_self).1 hopen ?_)
    rw [isReady, hopen, Bool.not_false, Bool.true_and]
    exact hsuccs
  | case5 fuel b queue doms hc succs hsuccs =>
    have hopen : doms.contains b = false := by simpa using hc
    have hready := (hs.waits_for hg hend hexits hh hopen hsuccs).1
    exact absurd hb (not_of_zero hready (hs.queued b List.mem_cons_self).1 hopen)
  | case6 fuel b queue doms hc succs hsuccs waits ih =>
    obtain ⟨hready, hother⟩ := hs.waits_for hg hend hexits hh (by simpa using hc) hsuccs
    exact ih hs.wait (hb.wait hready hother)

end Budget

/-- At the outset the ends are settled, and the nodes before them queued. -/
theorem budget_start (hg : g.Checked) (hend : g.end? = some e) (o : Option LoopId)
    (hfuel : waits + edgesInto g g.ids ≤ fuel) (hwaits : g.size * edgesInto g g.ids ≤ waits) :
    Budget g o (edgesInto g g.ids) fuel waits ((roots g e o).flatMap (nodesBefore g o))
      (.ofList ((roots g e o).map fun r => (r, .singleton r))) := by
  generalize hdoms : (OrderedMap.ofList ((roots g e o).map fun r =>
    (r, OrderedSet.singleton r)) : DominatorTable) = doms
  have hs := hdoms ▸ Settling.start (o := o) hg hend
  -- the ends and the other blocks are different blocks
  have hsplit : (roots g e o ++ unsettled g doms).Subperm g.ids := by
    refine List.subperm_of_subset (List.nodup_append.2
      ⟨nodup_roots g e o, g.nodup_ids.filter _, fun r hr b hb hrb => ?_⟩) fun b hb => ?_
    · subst hrb
      have := (mem_unsettled.1 hb).2
      rw [OrderedMap.contains_iff.2 ⟨_, hs.ends r hr⟩] at this
      cases this
    · rcases List.mem_append.1 hb with hb | hb
      · exact (isNode_of_mem_roots hg hend hb).1
      · exact (mem_unsettled.1 hb).1
  have hedges : edgesInto g (roots g e o) + edgesInto g (unsettled g doms) ≤
      edgesInto g g.ids := by
    obtain ⟨l, hperm, hsub⟩ := hsplit
    rw [edgesInto, edgesInto, ← List.sum_append, ← List.map_append, ← (hperm.map _).sum_eq]
    exact (hsub.map _).sum_le_sum fun _ _ => Nat.zero_le _
  have hqueue : ((roots g e o).flatMap (nodesBefore g o)).length ≤ edgesInto g (roots g e o) := by
    rw [List.length_flatMap]
    exact List.sum_le_sum fun b _ => length_nodesBefore_le
  have hlen : (unsettled g doms).length ≤ g.size := by
    rw [← g.length_ids]
    exact List.length_filter_le _ _
  have hplace : ((roots g e o).flatMap (nodesBefore g o)).findIdx (isReady g o doms) ≤
      ((roots g e o).flatMap (nodesBefore g o)).length := List.findIdx_le_length
  have := Nat.mul_le_mul_right (edgesInto g g.ids) hlen
  exact ⟨by omega, by omega, by omega⟩

/-! ### Regions and functions -/

theorem edgesInto_ids_le (hg : g.Checked) : edgesInto g g.ids ≤ g.size * g.size := by
  refine (List.sum_le_card_nsmul _ g.size ?_).trans (by simp [g.length_ids])
  rintro k hk
  obtain ⟨b, -, rfl⟩ := List.mem_map.1 hk
  rw [← g.length_ids]
  exact (hg.wellFormed.nodup_preds b).length_le_of_subset fun p hp =>
    Shape.mem_ids_of_mem_succs (hg.wellFormed.mem_preds_iff.1 hp)

section Limit

variable (hg : g.Checked) (hend : g.end? = some e) (hexits : ∀ L ∈ g.loops, L.exits ≠ [])
include hg hend hexits

/-- **No region meets a limit that allows for the waits.** -/
theorem exists_ofRegion (hh : g.IsStart o h)
    (hwaits : g.size * g.size * g.size ≤ (waitLimit g limit).toInt.toNat) :
    ∃ r, ofRegion g limit e o = .ok r := by
  have hedges : g.ids.foldl (fun n b => n + (g.preds b).length) 0 = edgesInto g g.ids := by
    rw [edgesInto, List.sum_eq_foldl, List.foldl_map]
  have hneeded : g.size * edgesInto g g.ids ≤ (waitLimit g limit).toInt.toNat := by
    calc g.size * edgesInto g g.ids ≤ g.size * (g.size * g.size) :=
          Nat.mul_le_mul_left _ (edgesInto_ids_le hg)
      _ = g.size * g.size * g.size := (Nat.mul_assoc _ _ _).symm
      _ ≤ (waitLimit g limit).toInt.toNat := hwaits
  obtain ⟨final, hfinal⟩ := (budget_start hg hend o (Nat.le_refl _) hneeded).exists_settle hg hend
    hexits hh (Settling.start hg hend)
  unfold ofRegion
  dsimp only
  rw [hedges, hfinal]
  exact ⟨_, rfl⟩

/-- **Nor does the function.** -/
theorem exists_ofGraph_of_waits
    (hwaits : g.size * g.size * g.size ≤ (waitLimit g limit).toInt.toNat) :
    ∃ p, ofGraph g limit = .ok p := by
  have hh : g.IsStart none g.entry := rfl
  have hregions : ∀ o ∈ g.regionsWithin none, ∃ r, ofRegion g limit e o = .ok r := by
    intro o ho
    obtain ⟨h, hh⟩ := isStart_of_mem_regionsFrom hg hh ho
    exact exists_ofRegion hg hend hexits hh hwaits
  obtain ⟨rs, hrs⟩ := Outcome.exists_mapM hregions
  unfold ofGraph
  rw [hend]
  dsimp only
  rw [hrs]
  exact ⟨_, rfl⟩

/-- **The queues of the post-dominators never meet the limit.** -/
theorem exists_ofGraph (hsquare : ((g.size * g.size + 1 : Nat) : Int) ≤ limit.toInt)
    (hfits : limit.toInt * ((g.size + 1 : Nat) : Int) < 2 ^ 63) :
    ∃ p, ofGraph g limit = .ok p := by
  refine exists_ofGraph_of_waits hg hend hexits ?_
  calc g.size * g.size * g.size ≤ (g.size * g.size + 1) * (g.size + 1) :=
        Nat.mul_le_mul (Nat.le_succ _) (Nat.le_succ _)
    _ ≤ (waitLimit g limit).toInt.toNat :=
        mul_le_toNat_mul_ofNat (Nat.le_add_left _ _) hsquare hfits

end Limit

/-! ### A loop that cannot be left -/

section NeverLeft

variable {c : LoopId} (hg : g.Checked)
include hg

/-- **The header of a loop without exits is before no other node.** -/
theorem eq_header_of_mem_nodesBefore {L : Loop} (hL : g.loop? c = some L) (hno : L.exits = [])
    (hb : g.IsNode none b) (hmem : g.header c ∈ nodesBefore g none b) : b = g.header c := by
  have hc := hg.isChild_of_exitless hL hno
  obtain ⟨p, hp, hpc⟩ := mem_nodesBefore.1 hmem
  have hcp := (hg.regionNode_eq_header hc).1 hpc
  have hcb := hg.within_of_succ_of_exitless hL hno hcp (hg.wellFormed.mem_preds_iff.1 hp)
  rw [← hg.nodeIn_of_isNode hb, hg.nodeIn_of_child hc hcb]

/-- The header is neither settled nor queued. -/
structure Unqueued (g : Graph) (c : LoopId) (queue : List BlockId) (doms : DominatorTable) :
    Prop where
  settled : doms.contains (g.header c) = false
  queued : g.header c ∉ queue

/-- **It never is.** -/
theorem Unqueued.not_contains {L : Loop} (hL : g.loop? c = some L) (hno : L.exits = [])
    {final : DominatorTable} (hs : Settling g e none queue doms) (hu : Unqueued g c queue doms)
    (h : settle g none fuel waits queue doms = some final) :
    final.contains (g.header c) = false := by
  fun_induction settle g none fuel waits queue doms with
  | case1 =>
    cases h
    exact hu.settled
  | case2 => cases h
  | case3 fuel waits b queue doms hc ih =>
    exact ih (hs.skip hc) ⟨hu.settled, fun hm => hu.queued (List.mem_cons_of_mem _ hm)⟩ h
  | case4 fuel waits b queue doms hc succs hsuccs shared ih =>
    have hopen : doms.contains b = false := by simpa using hc
    have hne : b ≠ g.header c := fun he => hu.queued (he ▸ List.mem_cons_self)
    refine ih (hs.insert hg hopen hsuccs) ⟨?_, fun hm => ?_⟩ h
    · rw [← Bool.not_eq_true, OrderedMap.contains_insert, not_or, Bool.not_eq_true]
      exact ⟨hne.symm, hu.settled⟩
    · rcases List.mem_append.1 hm with hm | hm
      · exact hu.queued (List.mem_cons_of_mem _ hm)
      · exact hne (eq_header_of_mem_nodesBefore hg hL hno (hs.queued b List.mem_cons_self).2 hm)
  | case5 => cases h
  | case6 fuel b queue doms hc succs hsuccs waits ih =>
    exact ih hs.wait ⟨hu.settled, fun hm => hu.queued (by simpa [or_comm] using hm)⟩ h

/-- At the outset neither: the header is no end, and the only end is not in the loop. -/
theorem unqueued_start (hend : g.end? = some e) {L : Loop} (hL : g.loop? c = some L)
    (hno : L.exits = []) : Unqueued g c ((roots g e none).flatMap (nodesBefore g none))
      (.ofList ((roots g e none).map fun r => (r, .singleton r))) := by
  have hc := (hg.isChild_of_exitless hL hno).1
  have hne : g.header c ≠ e := fun he =>
    hg.not_within_end (Shape.end?_eq_some hend).2 c (he ▸ hg.within_header hc)
  constructor
  · rw [← Bool.not_eq_true, OrderedMap.contains_iff]
    rintro ⟨s, hs⟩
    rw [OrderedMap.get?_ofList (by simp [roots])] at hs
    obtain ⟨r, hr, he⟩ := List.mem_map.1 hs
    rw [List.mem_singleton.1 hr] at he
    exact hne (congrArg Prod.fst he).symm
  · intro hmem
    obtain ⟨r, hr, hbefore⟩ := List.mem_flatMap.1 hmem
    have hnode := (isNode_of_mem_roots hg hend hr).2
    have hre : r = e := List.mem_singleton.1 hr
    exact hne ((eq_header_of_mem_nodesBefore hg hL hno hnode hbefore).symm.trans hre)

/-- **A loop that cannot be left** makes the nodes before it wait for ever: the limit is met in
the region of the function, whatever it is. -/
theorem ofGraph_of_exitless (hend : g.end? = some e) {L : Loop} (hL : L ∈ g.loops)
    (hno : L.exits = []) (limit : Int64) :
    ofGraph g limit = reject ((Cause.postdominatorLimit (waitLimit g limit)).finding.inFunction g.name
      |>.atLoop g.name) := by
  obtain ⟨c, hc⟩ := List.mem_iff_getElem?.1 hL
  have hchild := hg.isChild_of_exitless hc hno
  have hh : g.IsStart none g.entry := rfl
  have hregion : ofRegion g limit e none =
      reject ((Cause.postdominatorLimit (waitLimit g limit)).finding.inFunction g.name
        |>.atLoop g.name) := by
    unfold ofRegion
    dsimp only
    split
    · next final hfinal =>
      -- when the queue is empty, all nodes are settled, but the header is not
      have hstart := Settling.start (o := none) hg hend
      have hsettled := (hstart.settled hg hfinal).contains hg hend hh (hg.header_ids hchild.1)
        (.inr ⟨c, hchild, rfl⟩)
      have hu := unqueued_start hg hend hc hno
      rw [hu.not_contains hg hc hno hstart hfinal] at hsettled
      cases hsettled
    · rfl
  unfold ofGraph
  rw [hend]
  dsimp only
  rw [regionsWithin, regionsFrom, List.mapM_cons, hregion]
  rfl

end NeverLeft
end Postdominators
end ConstantTime
