/-
# Constant-loop dominators pass both checks

"Single-Path Constant-Time Transformation Engine", §12.2.

Neither check ever rejects what the constant-loop analysis answers for the function
(`verify_constantLoopDominators`).

* The check of reachability: the tally of a node holds what leads to the node.  Over an
  edge that leaves a loop inside may come any block of that loop, and all its blocks lead to
  all its ways out (`Drained.leads`).  What the blocks of a loop are given leads to them
  too, since a loop leads from each of its blocks to each other (`leading_spread`).
* The check along paths: what it reports is a path that goes round each constant loop before
  it leaves it, at least once.  Some path past no other blocks goes round on every stay, and
  a dominator in the sense of the analysis is on every such path.
-/

import ConstantTime.Proofs.Dominance.Containment
import ConstantTime.Proofs.Dominance.FixedVisits
import ConstantTime.Proofs.Dominance.PathCheck
import ConstantTime.Proofs.Dominance.Work
import ConstantTime.Proofs.Postdominance.Exactness

namespace ConstantTime

variable {g : Graph} {constant : ConstantBounds} {limit : Int64} {o : Option LoopId} {l : LoopId}
  {b d h n s x : BlockId} {p : List BlockId}

/-! ### What leads to what -/

theorem Shape.mem_reachedFrom {g : Shape} (hg : g.WellFormed) (hp : g.IsPath d p b) (hne : d ≠ b) :
    b ∈ g.reachedFrom d := by
  have hnext : ∀ a ∈ g.ids, ∀ s ∈ g.succs a, s ∈ g.ids := fun _ _ _ => hg.isBlock_of_mem_succs
  refine (mem_closure_iff hnext fun s => hg.isBlock_of_mem_succs).2 (.inr ?_)
  rcases hp.eq_single_or_cons with ⟨-, rfl⟩ | ⟨s, q, rfl, hs, hq⟩
  · exact absurd rfl hne
  · refine ⟨s, hs, OrderedSet.not_mem_empty, ?_⟩
    refine hq.snoc_induction (motive := fun _ b => Relation.ReflTransGen (Leads g.succs ∅) s b)
      .refl fun _ u v _ hv hu => hu.tail ⟨hv, OrderedSet.not_mem_empty⟩

namespace Graph.Checked

variable (hg : g.Checked)
include hg

/-- A loop leads from each of its blocks to each other. -/
theorem exists_path_within (ha : g.Within l x) (hb : g.Within l b) : ∃ q, g.IsPath x q b := by
  obtain ⟨q, hq⟩ := hg.exists_path_to_header ha
  obtain ⟨r, hr⟩ := hg.exists_path_from_header hb
  exact ⟨_, hq.append hr⟩

/-- What a node stands for leads to where the node leads. -/
theorem exists_path_over (hh : g.IsStart o h) (hb : g.Inside o b)
    (hs : s ∈ g.regionSuccs (g.nodeIn o b) h) : ∃ q, g.IsPath b q s := by
  rcases hg.level_or_child hb with hlevel | ⟨c, hc, hcb⟩
  · rw [nodeIn_of_level hlevel] at hs
    exact ⟨_, .cons ((hg.mem_regionSuccs_of_level hh hlevel).1 hs).1 (.single s)⟩
  · rw [hg.nodeIn_of_child hc hcb] at hs
    obtain ⟨⟨x, hx, hsucc, -⟩, -, -⟩ := (hg.mem_regionSuccs_of_child hh hc).1 hs
    obtain ⟨q, hq⟩ := hg.exists_path_within hcb hx
    exact ⟨_, hq.snoc hsucc⟩

end Graph.Checked

/-! ### Tallies -/

namespace ConstantLoop

variable {known : Regions} {T : OrderedMap BlockId Tally} {v : Visits}

section Nodes

variable (hg : g.Checked) (hh : g.IsStart o h)
  (hexits : ExitsLocal g (exitTally g constant known (g.loops.length + 1)))
include hg hh hexits

/-- What comes over an edge leads to its target, if what its source knows leads to the
source. -/
theorem leads_of_leaving (hn : g.IsNode o n)
    (hT : ∀ t, T.get? n = some t → ∀ d v, t.get? d = some v → ∃ q, g.IsPath d q n)
    (hs : s ∈ g.regionSuccs n h)
    (hd : (leaving g constant (exitTally g constant known (g.loops.length + 1)) T h n s).get? d =
      some v) : ∃ q, g.IsPath d q s := by
  have hover : ∀ b, g.Inside o b → g.nodeIn o b = n → ∃ q, g.IsPath b q s := fun b hb hbn =>
    hg.exists_path_over hh hb (hbn.symm ▸ hs)
  have hnode : ∀ {v}, (T.getD n ∅).get? d = some v → ∃ q, g.IsPath d q s := by
    intro v hv
    obtain ⟨t, ht, hv⟩ := get?_getD_empty hv
    obtain ⟨q, hq⟩ := hT t ht d v hv
    obtain ⟨r, hr⟩ := hover n (hg.inside_of_isNode hn) (hg.nodeIn_of_isNode hn)
    exact ⟨_, hq.append hr⟩
  rcases hn with hlevel | ⟨c, hc, rfl⟩
  · rw [leaving_of_level hg hh hlevel] at hd
    exact hnode hd
  · rw [leaving_of_child hg hh hc] at hd
    split at hd
    · rcases Tally.get?_updatedBy_eq_some.1 hd with hd | ⟨-, hd⟩
      · have hin := hexits c hc.1 s d v hd
        exact hover d (hg.inside_of_child hc hin) (hg.nodeIn_of_child hc hin)
      · exact hnode hd
    · exact hnode hd

/-- **What a node knows leads to the node.** -/
theorem Drained.leads (hd : Drained g constant known o h T) (hid : n ∈ g.ids) (hn : g.IsNode o n)
    {t : Tally} (ht : T.get? n = some t) (hv : t.get? d = some v) : ∃ q, g.IsPath d q n := by
  suffices hall : g.IsNode o n ∧ ∃ t, T.get? n = some t ∧
      ∀ d v, t.get? d = some v → ∃ q, g.IsPath d q n by
    obtain ⟨-, t', ht', hall⟩ := hall
    cases ht.symm.trans ht'
    exact hall d v hv
  refine hg.node_induction hh (P := fun n => g.IsNode o n ∧ ∃ t, T.get? n = some t ∧
    ∀ d v, t.get? d = some v → ∃ q, g.IsPath d q n) ?_ ?_ hid hn
  · refine ⟨hg.isNode_start hh, _, hd.start, ?_⟩
    exact OrderedMap.forall_get?_insert (by simp) ⟨[h], .single h⟩
  · rintro u s ⟨hu, t, ht, hall⟩ hs
    obtain ⟨t', ht', hflow⟩ := hd.flows u t ht s hs
    refine ⟨(hg.isNode_of_mem_regionSuccs hh hu hs).1, t', ht', fun d v hv => ?_⟩
    rcases hflow d v hv with ⟨rfl, -⟩ | hleave
    · exact ⟨[d], .single d⟩
    · refine leads_of_leaving hg hh hexits hu (fun t₁ ht₁ => ?_) hs hleave
      cases ht.symm.trans ht₁
      exact hall

end Nodes

/-- Every tally holds the start, and what leads to its block. -/
def Leading (g : Graph) (h : BlockId) (T : OrderedMap BlockId Tally) : Prop :=
  ∀ b t, T.get? b = some t → (∃ v, t.get? h = some v) ∧
    ∀ d v, t.get? d = some v → ∃ q, g.IsPath d q b

/-- The blocks of a loop are given what leads to its header, and what is in the loop. -/
theorem leading_spread (hg : g.Checked) (hknown : KnownLocal g known) (hT : Leading g h T)
    (hx : ∃ t, T.get? x = some t) : Leading g h (spread g constant known T x) := by
  rcases spread_cases hg constant known T x with he | ⟨l, hl, rfl, hspread⟩
  · rwa [he]
  obtain ⟨t, ht⟩ := hx
  obtain ⟨⟨v, hv⟩, hleads⟩ := hT _ t ht
  have hgetD : T.getD (g.header l) ∅ = t := by rw [OrderedMap.getD, ht, Option.getD_some]
  intro b t' ht'
  rw [hspread] at ht'
  split at ht'
  · next hb =>
    cases ht'
    rw [hgetD, inLoop]
    constructor
    · rw [Tally.get?_updatedBy, hv]
      exact Option.isSome_iff_exists.1 (by simp)
    · intro d v hd
      rcases Tally.get?_updatedBy_eq_some.1 hd with hd | ⟨-, hd⟩
      · split at hd
        · obtain ⟨m, hm, -⟩ := OrderedMap.get?_mapValues.1 hd
          exact hg.exists_path_within (within_of_roundTally hg hknown
            (exitsLocal_exitTally hg hknown constant _) hl hm) hb
        · simp at hd
      · obtain ⟨q, hq⟩ := hleads d v hd
        obtain ⟨r, hr⟩ := hg.exists_path_from_header hb
        exact ⟨_, hq.append hr⟩
  · exact hT b t' ht'

theorem leading_foldl_spread (hg : g.Checked) (hknown : KnownLocal g known) {inner : List BlockId}
    (hinner : ∀ x ∈ inner, ∃ t, T.get? x = some t) (hT : Leading g h T) :
    Leading g h (inner.foldl (spread g constant known) T) := by
  induction inner generalizing T with
  | nil => exact hT
  | cons x inner ih =>
    refine ih (fun y hy => ?_) (leading_spread hg hknown hT (hinner x List.mem_cons_self))
    exact exists_get?_spread hg (hinner y (List.mem_cons_of_mem _ hy))

/-- **All blocks of a region.** -/
theorem leading_of_analyse (hg : g.Checked) (hknown : KnownLocal g known) (hh : g.IsStart o h)
    {r : Region} (hr : analyse g constant limit known h = .ok r) : Leading g h r.blocks := by
  have hexits := exitsLocal_exitTally hg hknown constant (g.loops.length + 1)
  obtain ⟨hdrained, -, -⟩ := analyse_eq_ok hg hh hexits hr
  obtain ⟨w, hplaced, hnodes, hblocks⟩ := exists_work_placed hg hh hr
  rw [hnodes] at hdrained
  rw [hblocks]
  refine leading_foldl_spread hg hknown hplaced.met fun b t ht => ?_
  obtain ⟨hid, hnode⟩ := hplaced.node b t ht
  exact ⟨⟨_, hdrained.own b t ht⟩, fun d v hv => hdrained.leads hg hh hexits hid hnode ht hv⟩

end ConstantLoop

open ConstantLoop

/-! ### The checks -/

namespace DominatorTable

variable {m : DominatorTable} {doms : BlockSet}

/-- **What the check of reachability asks of a block.** -/
theorem verifyBlock_eq_ok_iff {root : BlockId} : verifyBlock g root b doms = .ok () ↔
    root ∈ doms ∧ ∀ d ∈ doms, d ≠ b → b ∈ g.reachedFrom d := by
  unfold verifyBlock
  dsimp only
  split
  · next hroot => simp [reject, hroot]
  · next hroot =>
    rw [Classical.not_not] at hroot
    split
    · next d hd =>
      have hbad := List.find?_some hd
      simp only [Bool.and_eq_true, decide_eq_true_eq] at hbad
      simp only [reject, reduceCtorEq, false_iff]
      have hmem : d ∈ doms := OrderedSet.mem_toList.1 (List.mem_of_find?_eq_some hd)
      exact fun h => hbad.2 (h.2 d hmem hbad.1)
    · next hnone =>
      simp only [true_iff]
      refine ⟨hroot, fun d hd hne => ?_⟩
      have := List.find?_eq_none.1 hnone d (OrderedSet.mem_toList.2 hd)
      simpa [hne] using this

/-- A path that goes round each loop before it leaves it visits the headers twice or more
on each stay. -/
theorem regular_of_goesRound (hg : g.Checked) (hp : g.IsPath g.entry p b)
    (hround : g.GoesRound constant p) :
    g.Regular constant (fun _ => 2) (fun _ => p.length) p := by
  rintro l hl x stay y ⟨xs, ys, rfl⟩ hx hne hin hy
  obtain ⟨u, ⟨front, back, rfl⟩, -⟩ := hround l hl (xs ++ [x]) stay (y :: ys) (by simp) hne hin
    (by simp) (by simpa using hx) (by simpa using hy)
  have hstay : front ++ [u, g.header l] ++ back = front ++ [u] ++ g.header l :: back := by simp
  rw [hstay] at hp hin ⊢
  have hpath : g.IsPath g.entry
      (xs ++ [x] ++ (front ++ [u]) ++ (g.header l :: back ++ y :: ys)) b := by
    simpa using hp
  -- the stay is entered at the header, and comes back to it
  have hfirst : g.header l ∈ front ++ [u] :=
    hg.header_mem_stay hpath (by simp) (fun z hz => hin z (List.mem_append_left _ hz))
      (by simpa using hx)
  have htwo : 2 ≤ (front ++ [u] ++ g.header l :: back).count (g.header l) := by
    rw [List.count_append, List.count_cons_self]
    have := List.count_pos_iff.2 hfirst
    omega
  have hsub : (front ++ [u] ++ g.header l :: back) <:+:
      xs ++ x :: (front ++ [u] ++ g.header l :: back ++ [y]) ++ ys :=
    ⟨xs ++ [x], y :: ys, by simp⟩
  exact ⟨htwo, List.count_le_length.trans (by simpa using hsub.length_le)⟩

/-- **A constant-loop dominator is on every path that goes round** each constant loop before
it leaves it. -/
theorem mem_of_goesRound (hg : g.Checked) {endOnly : Bool}
    (hm : g.constantLoopDominators constant limit endOnly g.entry = .ok m)
    (hp : g.IsPath g.entry p b) (hb : ∀ l, ¬ g.Within l b) (hround : g.GoesRound constant p)
    (hd : d ∈ m.of b) : d ∈ p := by
  obtain ⟨v, hv⟩ := exists_visits hg hm hb hd
  exact (hv _ _ p hp (regular_of_goesRound hg hp hround)).2 fun _ _ _ => Nat.le_refl 2

/-- **Constant-loop dominators pass both checks.**  Whatever the constant headers and the
limit are, and whether all blocks are asked for or the ends only: if the analysis of an
accepted graph succeeds from the entry, neither the check of reachability nor, with any
budget, the check along paths rejects its answer. -/
theorem verify_constantLoopDominators {g : Graph} {constant : ConstantBounds} {limit : Int64}
    {endOnly : Bool} {m : DominatorTable} (hg : g.Accepted)
    (hm : g.constantLoopDominators constant limit endOnly g.entry = .ok m) :
    m.verifyReach g g.entry = .ok () ∧
      ∀ budget, m.verifyPaths g constant budget g.entry = .ok () := by
  have hc := hg.checked
  constructor
  · obtain ⟨r, hr, hget⟩ := get?_constantLoopDominators hc hm
    have hh : g.IsStart none g.entry := rfl
    have hleading : Leading g g.entry r.blocks :=
      leading_of_analyse hc (knownLocal_regions hc constant limit) hh hr
    refine Outcome.forM_ok fun ⟨b, doms⟩ hmem => verifyBlock_eq_ok_iff.2 ?_
    obtain ⟨⟨t, ht, rfl⟩, -⟩ := (hget b doms).1 (OrderedMap.get?_eq_some_iff.2 hmem)
    obtain ⟨hentry, hleads⟩ := hleading b t ht
    refine ⟨Tally.mem_blocks.2 hentry, fun d hd hne => ?_⟩
    obtain ⟨v, hv⟩ := Tally.mem_blocks.1 hd
    obtain ⟨q, hq⟩ := hleads d v hv
    exact Shape.mem_reachedFrom hc.wellFormed hq hne
  · intro budget
    cases hverify : m.verifyPaths g constant budget g.entry with
    | ok => rfl
    | error e =>
      -- what is reported is a path past which lies a dominator of its last block
      obtain ⟨⟨path, d⟩, hfound⟩ := exists_verifyPaths_error.1 ⟨e, hverify⟩
      obtain ⟨b, hp, hb, hd, hnot, hleaves⟩ := walk_sound hc [] walked_entry hfound
      have hout : ∀ l, ¬ g.Within l b := (hc.depth_eq_zero_iff b).1 hb
      obtain ⟨q, hfair, hsub⟩ := hc.exists_fair hc.counts_roundOnStay hp hout hleaves
      have hmem := mem_of_goesRound hc hm hfair.path hout
        (Graph.goesRound_of_eachStep hfair.leaves) hd
      exact absurd (List.mem_reverse.1 (hsub d hmem)) hnot

/-- For the end 5 of `leftEarly`, where the last round may leave out the inner loop, and for the
blocks of that loop the answer is not rejected; a table that puts the end before the outer loop
is. -/
theorem verify_constantLoopDominators_leftEarly :
    (∃ m, Graph.leftEarly.constantLoopDominators (fun _ => true) 50 false 0 = .ok m ∧
      (m.of 4).toList = [0, 1, 2, 3, 4] ∧ m.verifyReach Graph.leftEarly 0 = .ok () ∧
      m.verifyPaths Graph.leftEarly (fun _ => true) 50 0 = .ok ()) ∧
      ∃ e, verifyReach (.ofList [(1, .ofList [0, 5])]) Graph.leftEarly 0 = .error e := by
  have hm : Graph.leftEarly.constantLoopDominators (fun _ => true) 50 false Graph.leftEarly.entry =
    .ok _ := Outcome.eq_ok_get (by decide +kernel)
  obtain ⟨hreach, hpaths⟩ := verify_constantLoopDominators (Graph.accepted_drawn _) hm
  have hbad : (verifyReach (.ofList [(1, .ofList [0, 5])]) Graph.leftEarly 0).toOption = none := by
    decide +kernel
  refine ⟨⟨_, hm, by decide +kernel, hreach, hpaths 50⟩, ?_⟩
  cases h : verifyReach (.ofList [(1, .ofList [0, 5])]) Graph.leftEarly 0 with
  | error e => exact ⟨e, rfl⟩
  | ok u =>
    rw [h] at hbad
    cases hbad

end DominatorTable
end ConstantTime
