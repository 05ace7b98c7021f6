/-
# How the nodes of a region are settled

A node is settled when all its successors are: it is then post-dominated by
itself and by what post-dominates them all.  The ends of the region are settled
from the outset, by themselves, and whenever a node is settled the nodes before it
are queued.  `Settling` says this of the table at any time, with a queue still to
be treated, and each step keeps it (`Settling.skip`, `Settling.insert`,
`Settling.wait`).

When the queue is empty, what is settled is closed under nodes before it
(`Settled`).  It then holds the start of the region (`Settled.start`), and every
node: in a loop every node leads to a latch, and in the function every successor of
a settled node is settled (`Settled.contains`).
-/

import ConstantTime.Proofs.Ordered
import ConstantTime.Proofs.Postdominance.Edges

namespace ConstantTime
namespace Postdominators

open ConstantTime.Graph

/-- What is known of a table while a queue of nodes is still to be treated. -/
structure Settling (g : Graph) (e : BlockId) (o : Option LoopId) (queue : List BlockId)
    (doms : DominatorTable) : Prop where
  node : ∀ b, doms.contains b = true → b ∈ g.ids ∧ g.IsNode o b
  queued : ∀ b ∈ queue, b ∈ g.ids ∧ g.IsNode o b
  ends : ∀ r ∈ roots g e o, doms.get? r = some (.singleton r)
  rule : ∀ b s, doms.get? b = some s → b ∉ roots g e o →
    (∀ t ∈ successors g o b, doms.contains t = true) ∧
      s = (OrderedSet.interAll ((successors g o b).map doms.of)).insert b
  before : ∀ b, doms.contains b = true → ∀ n ∈ nodesBefore g o b,
    doms.contains n = true ∨ n ∈ queue

/-- The table of a region when the queue is empty. -/
abbrev Settled (g : Graph) (e : BlockId) (o : Option LoopId) (doms : DominatorTable) : Prop :=
  Settling g e o [] doms

variable {g : Graph} {e b n h t : BlockId} {o : Option LoopId} {doms : DominatorTable}
  {queue : List BlockId}

theorem of_insert {s : BlockSet} (hne : t ≠ b) :
    DominatorTable.of (doms.insert b s) t = doms.of t := by
  rw [DominatorTable.of, OrderedMap.getD_insert, if_neg hne, DominatorTable.of]

theorem mem_nodesBefore : n ∈ nodesBefore g o b ↔ ∃ p ∈ g.preds b, g.regionNode p o = some n := by
  rw [nodesBefore, List.mem_filterMap]

/-- Where a region ends: at the end of the function, at a latch, or where a loop is left. -/
theorem mem_roots_some {l : LoopId} {L : Loop} (hL : g.loop? l = some L) :
    b ∈ roots g e (some l) ↔ ∃ x, (x ∈ L.latches ∨ ∃ t, (⟨x, t⟩ : FlowEdge) ∈ L.exits) ∧
      g.regionNode x (some l) = some b := by
  simp only [roots, hL, OrderedSet.mem_toList, OrderedSet.mem_ofList, List.mem_filterMap,
    List.mem_append, List.mem_map]
  constructor
  · rintro ⟨x, ⟨⟨x, t⟩, he, rfl⟩ | hx, hb⟩
    · exact ⟨x, .inr ⟨t, he⟩, hb⟩
    · exact ⟨x, .inl hx, hb⟩
  · rintro ⟨x, hx | ⟨t, he⟩, hb⟩
    · exact ⟨x, .inr hx, hb⟩
    · exact ⟨x, .inl ⟨⟨x, t⟩, he, rfl⟩, hb⟩

theorem nodup_roots (g : Graph) (e : BlockId) (o : Option LoopId) : (roots g e o).Nodup := by
  unfold roots
  split
  · exact List.nodup_singleton e
  · split
    · exact List.nodup_nil
    · exact OrderedSet.nodup_toList _

section

variable (hg : g.Checked)
include hg

theorem isNode_of_mem_roots (hend : g.end? = some e) (hb : b ∈ roots g e o) :
    b ∈ g.ids ∧ g.IsNode o b := by
  cases o with
  | none =>
    obtain rfl : b = e := List.mem_singleton.1 hb
    obtain ⟨hid, hends⟩ := Shape.end?_eq_some hend
    exact ⟨hid, .inl (hg.loopOf_eq_none.2 (hg.not_within_end hends))⟩
  | some l =>
    cases hL : g.loop? l with
    | none => simp [roots, hL] at hb
    | some L =>
      obtain ⟨x, hx, hxb⟩ := (mem_roots_some hL).1 hb
      refine hg.isNode_of_regionNode ?_ hxb
      rcases hx with hx | ⟨t, hx⟩
      · exact Shape.mem_ids_of_mem_succs ((hg.mem_latches hL).1 hx).1
      · exact Shape.mem_ids_of_mem_succs ((hg.mem_exits hL).1 hx).2.1

theorem isNode_of_mem_nodesBefore (hn : n ∈ nodesBefore g o b) : n ∈ g.ids ∧ g.IsNode o n := by
  obtain ⟨p, hp, hpn⟩ := mem_nodesBefore.1 hn
  exact hg.isNode_of_regionNode (Shape.mem_ids_of_mem_succs (hg.wellFormed.mem_preds_iff.1 hp)) hpn

/-- The nodes with an edge of the region to a node are before it. -/
theorem mem_nodesBefore_of_regionSuccs (hh : g.IsStart o h) (hn : g.IsNode o n)
    (hb : b ∈ g.regionSuccs n h) : n ∈ nodesBefore g o b := by
  obtain ⟨x, hs, hx⟩ := hg.exists_succ_of_leadsOut ((hg.mem_regionSuccs_iff hh hn).1 hb).2.2
  exact mem_nodesBefore.2 ⟨x, hg.wellFormed.mem_preds_iff.2 hs, hx⟩

/-- A node that holds a latch is an end of its region. -/
theorem mem_roots_of_holdsLatch (hn : g.IsNode o n) (hlatch : g.HoldsLatch o n) :
    n ∈ roots g e o := by
  obtain ⟨l, L, u, rfl, hL, hu, hun⟩ := hlatch
  refine (mem_roots_some hL).2 ⟨u, .inl hu, ?_⟩
  rcases hun with rfl | ⟨c, hc, rfl, hcu⟩
  · rw [hg.regionNode_eq (hg.inside_of_isNode hn), hg.nodeIn_of_isNode hn]
  · exact hg.regionNode_of_child hc hcu

/-- **From a node that is no end** the successors are those seen from the start. -/
theorem mem_successors_of_notMem_roots (hh : g.IsStart o h) (hn : g.IsNode o n)
    (hroot : n ∉ roots g e o) : t ∈ successors g o n ↔ t ∈ g.regionSuccs n h := by
  rw [hg.mem_successors_iff hh hn, hg.mem_regionSuccs_iff hh hn]
  refine and_congr_right fun _ => (and_iff_right_of_imp fun ht => ?_).symm
  rintro rfl
  exact hroot (mem_roots_of_holdsLatch hg hn ((hg.leadsOut_start_iff hh hn).1 ht))

end

/-! ### Steps -/

namespace Settling

/-- A settled node is taken off the queue. -/
theorem skip (hs : Settling g e o (b :: queue) doms) (hb : doms.contains b = true) :
    Settling g e o queue doms where
  node := hs.node
  queued c hc := hs.queued c (List.mem_cons_of_mem _ hc)
  ends := hs.ends
  rule := hs.rule
  before c hc n hn := by
    rcases hs.before c hc n hn with h | h
    · exact .inl h
    · rcases List.mem_cons.1 h with rfl | h
      · exact .inl hb
      · exact .inr h

/-- A node that has to wait goes back to the end of the queue. -/
theorem wait (hs : Settling g e o (b :: queue) doms) : Settling g e o (queue ++ [b]) doms where
  node := hs.node
  queued c hc := hs.queued c (by simpa [or_comm] using hc)
  ends := hs.ends
  rule := hs.rule
  before c hc n hn := (hs.before c hc n hn).imp_right fun h => by simpa [or_comm] using h

/-- **A node whose successors are settled** is settled by what they share. -/
theorem insert (hg : g.Checked) (hs : Settling g e o (b :: queue) doms)
    (hb : doms.contains b = false) (hsuccs : (successors g o b).all doms.contains = true) :
    Settling g e o (queue ++ nodesBefore g o b)
      (doms.insert b ((OrderedSet.interAll ((successors g o b).map doms.of)).insert b)) := by
  have hold : ∀ {t s}, doms.contains t = true → (doms.insert b s).contains t = true :=
    fun ht => OrderedMap.contains_insert.2 (.inr ht)
  have hne : ∀ {t}, doms.contains t = true → t ≠ b := by
    rintro t ht rfl
    rw [hb] at ht
    cases ht
  -- what is settled already keeps its set
  have hsame : ∀ {s : BlockSet} {xs : List BlockId}, (∀ t ∈ xs, doms.contains t = true) →
      xs.map (DominatorTable.of (doms.insert b s)) = xs.map doms.of :=
    fun hxs => List.map_congr_left fun t ht => of_insert (hne (hxs t ht))
  have hsuccs : ∀ t ∈ successors g o b, doms.contains t = true := List.all_eq_true.1 hsuccs
  constructor
  · intro c hc
    rcases OrderedMap.contains_insert.1 hc with rfl | hc
    · exact hs.queued c List.mem_cons_self
    · exact hs.node c hc
  · intro c hc
    rcases List.mem_append.1 hc with hc | hc
    · exact hs.queued c (List.mem_cons_of_mem _ hc)
    · exact isNode_of_mem_nodesBefore hg hc
  · intro r hr
    rw [OrderedMap.get?_insert, if_neg, hs.ends r hr]
    exact hne (OrderedMap.contains_iff.2 ⟨_, hs.ends r hr⟩)
  · refine OrderedMap.forall_get?_insert (P := fun c s => c ∉ roots g e o →
      (∀ t ∈ successors g o c, _) ∧ s = _) (fun c s hc hroot => ?_) fun _ => ?_
    · obtain ⟨hall, hset⟩ := hs.rule c s hc hroot
      exact ⟨fun t ht => hold (hall t ht), by rw [hsame hall, ← hset]⟩
    · exact ⟨fun t ht => hold (hsuccs t ht), by rw [hsame hsuccs]⟩
  · intro c hc n hn
    rcases OrderedMap.contains_insert.1 hc with rfl | hc
    · exact .inr (List.mem_append_right _ hn)
    · rcases hs.before c hc n hn with h | h
      · exact .inl (hold h)
      · rcases List.mem_cons.1 h with rfl | h
        · exact .inl (OrderedMap.contains_insert.2 (.inl rfl))
        · exact .inr (List.mem_append_left _ h)

/-- At the outset the ends are settled, and the nodes before them are queued. -/
theorem start (hg : g.Checked) (hend : g.end? = some e) :
    Settling g e o ((roots g e o).flatMap (nodesBefore g o))
      (.ofList ((roots g e o).map fun r => (r, .singleton r))) := by
  have hget : ∀ {b s}, (OrderedMap.ofList ((roots g e o).map fun r =>
      (r, OrderedSet.singleton r))).get? b = some s ↔ b ∈ roots g e o ∧ s = .singleton b := by
    intro b s
    rw [OrderedMap.get?_ofList (by simpa [List.map_map, Function.comp_def] using nodup_roots g e o)]
    simp only [List.mem_map, Prod.mk.injEq]
    constructor
    · rintro ⟨r, hr, rfl, rfl⟩
      exact ⟨hr, rfl⟩
    · rintro ⟨hb, rfl⟩
      exact ⟨b, hb, rfl, rfl⟩
  have hroot : ∀ {b}, (OrderedMap.ofList ((roots g e o).map fun r =>
      (r, OrderedSet.singleton r))).contains b = true → b ∈ roots g e o := by
    intro b hb
    obtain ⟨s, hs⟩ := OrderedMap.contains_iff.1 hb
    exact (hget.1 hs).1
  constructor
  · exact fun b hb => isNode_of_mem_roots hg hend (hroot hb)
  · intro b hb
    obtain ⟨r, -, hb⟩ := List.mem_flatMap.1 hb
    exact isNode_of_mem_nodesBefore hg hb
  · exact fun r hr => hget.2 ⟨hr, rfl⟩
  · exact fun b s hb hroot => absurd (hget.1 hb).1 hroot
  · exact fun b hb n hn => .inr (List.mem_flatMap.2 ⟨b, hroot hb, hn⟩)

/-- **What the queue comes to.** -/
theorem settled (hg : g.Checked) {fuel waits : Nat} {final : DominatorTable}
    (hs : Settling g e o queue doms) (h : settle g o fuel waits queue doms = some final) :
    Settled g e o final := by
  fun_induction settle g o fuel waits queue doms with
  | case1 =>
    cases h
    exact hs
  | case2 => cases h
  | case3 doms waits b queue fuel hb ih => exact ih (hs.skip hb) h
  | case4 doms waits b queue fuel hb succs hsuccs shared ih =>
    exact ih (hs.insert hg (by simpa using hb) hsuccs) h
  | case5 => cases h
  | case6 doms b queue fuel hb succs hsuccs waits ih => exact ih hs.wait h

end Settling

/-- The table of a region that is answered is settled. -/
theorem settled_ofRegion (hg : g.Checked) (hend : g.end? = some e) {limit : Int64}
    {r : PostRegion} (h : ofRegion g limit e o = .ok r) : r.loop = o ∧ Settled g e o r.doms := by
  unfold ofRegion at h
  dsimp only at h
  split at h
  · next doms hd =>
    cases h
    exact ⟨rfl, (Settling.start hg hend).settled hg hd⟩
  · cases h

/-! ### Everything is settled -/

namespace Settled

variable (hg : g.Checked) (hend : g.end? = some e) (hs : Settled g e o doms) (hh : g.IsStart o h)
include hg hs hh

theorem before_of_regionSuccs (hn : g.IsNode o n) (hb : b ∈ g.regionSuccs n h)
    (hc : doms.contains b = true) : doms.contains n = true :=
  (hs.before b hc n (mem_nodesBefore_of_regionSuccs hg hh hn hb)).resolve_right List.not_mem_nil

/-- Backwards from any settled node the start is settled. -/
theorem start (hb : doms.contains b = true) : doms.contains h = true := by
  induction hk : g.place b using Nat.strong_induction_on generalizing b with
  | _ k ih =>
    by_cases hne : b = h
    · exact hne ▸ hb
    · obtain ⟨hid, hnode⟩ := hs.node b hb
      obtain ⟨n, hn, hsucc, hlt⟩ := hg.exists_node_before hh hid hnode hne
      exact ih _ (hk ▸ hlt) (hs.before_of_regionSuccs hg hh hn hsucc hb) rfl

/-- A block of a loop from which a latch is reached inside the loop has a settled node. -/
theorem of_path {p : List BlockId} {x u : BlockId} (hu : doms.contains (g.nodeIn o u) = true)
    (hp : g.IsPath x p u) (hnot : h ∉ p) (hin : ∀ y ∈ p, g.Inside o y) :
    doms.contains (g.nodeIn o x) = true := by
  induction p generalizing x with
  | nil => exact absurd rfl hp.ne_nil
  | cons w p ih =>
    rcases hp.eq_single_or_cons with ⟨-, rfl⟩ | ⟨y, q, he, hs', hq⟩
    · exact hu
    obtain ⟨rfl, rfl⟩ := List.cons.inj he
    obtain ⟨q', rfl⟩ := hq.eq_cons
    have hx := hin w List.mem_cons_self
    have hy := hin y (by simp)
    have hnext := ih hq (fun hm => hnot (List.mem_cons_of_mem _ hm))
      fun z hz => hin z (List.mem_cons_of_mem _ hz)
    rcases hg.edge_cases hh hx hs' hy (fun he => hnot (by simp [he])) with
      ⟨c, hc, hcx, hcy⟩ | ⟨-, hsucc⟩
    · rwa [hg.nodeIn_of_child hc hcx, ← hg.nodeIn_of_child hc hcy]
    · have hnode := hg.isNode_nodeIn hx
      rw [hg.nodeIn_of_isNode (hg.isNode_of_mem_regionSuccs hh hnode hsucc).1] at hnext
      exact hs.before_of_regionSuccs hg hh hnode hsucc hnext

include hend

/-- **Every node of the region is settled.** -/
theorem contains (hid : n ∈ g.ids) (hn : g.IsNode o n) : doms.contains n = true := by
  have hroot : ∀ r ∈ roots g e o, doms.contains r = true := fun r hr =>
    OrderedMap.contains_iff.2 ⟨_, hs.ends r hr⟩
  cases o with
  | none =>
    have hstart := hs.start hg hh (hroot e (List.mem_singleton.2 rfl))
    refine (hg.node_induction hh (P := fun n => g.IsNode none n ∧ doms.contains n = true)
      ⟨hg.isNode_start hh, hstart⟩ ?_ hid hn).2
    rintro n s ⟨hn, hc⟩ hsucc
    refine ⟨(hg.isNode_of_mem_regionSuccs hh hn hsucc).1, ?_⟩
    have hne : n ∉ roots g e none := by
      intro hmem
      obtain rfl : n = e := List.mem_singleton.1 hmem
      have hends := (Shape.end?_eq_some hend).2
      have hlevel := hg.loopOf_eq_none.2 (hg.not_within_end hends)
      rw [hg.mem_regionSuccs_of_level hh hlevel, hends] at hsucc
      exact absurd hsucc.1 List.not_mem_nil
    obtain ⟨d, hd⟩ := OrderedMap.contains_iff.1 hc
    exact (hs.rule n d hd hne).1 s ((mem_successors_of_notMem_roots hg hh hn hne).2 hsucc)
  | some l =>
    obtain ⟨hl, rfl⟩ := hh
    obtain ⟨L, hL⟩ := exists_loop hl
    have hlatch : ∀ u, g.Retreats u (g.header l) → doms.contains (g.nodeIn (some l) u) = true := by
      intro u hu
      refine hroot _ ((mem_roots_some hL).2 ⟨u, .inl ?_, ?_⟩)
      · rwa [hg.mem_latches hL, ← header_eq hL]
      · exact hg.regionNode_eq (hg.within_of_retreats hl hu)
    by_cases hne : n = g.header l
    · obtain ⟨u, hu⟩ := hg.retreats_header hL
      rw [← header_eq hL] at hu
      exact hne ▸ hs.start hg ⟨hl, rfl⟩ (hlatch u hu)
    · -- any other node leads to a latch inside the loop
      have hin := (hg.within_iff_natural hl).1 (hg.inside_of_isNode hn)
      obtain ⟨u, p, hu, hp, hnot, hall⟩ := hg.exists_path_to_latch hin hne
      have := hs.of_path hg ⟨hl, rfl⟩ (hlatch u hu) hp hnot
        fun y hy => (hg.within_iff_natural hl).2 (hall y hy)
      rwa [hg.nodeIn_of_isNode hn] at this

end Settled
end Postdominators
end ConstantTime
