/-
# Constant-loop dominators are bounded dominators

"Single-Path Constant-Time Transformation Engine", §3.

What is executed a fixed number of times is executed at least once, and the two
analyses agree on that: what the tallies of the constant-loop analysis list for an
end, the sets of the bounded analysis list too (`constantLoopDominators_subset`).

The sets of a region start from everything and shrink.  They never shrink below the
tallies (`Covers`): a tally holds nothing but its own block and what comes over each
edge, and of that the bounded analysis takes away nothing but the headers of loops
without a constant bound, which are in no tally (`Covers.refine`).  What a loop
contributes when it is left, every round of it passes; so it is in the set of each
way out and in what they share (`mem_sharedByAll`).  That the sets of the loops inside
cover what those loops contribute is used on the way, by induction on the nesting
(`regions_induction`).
-/

import ConstantTime.Proofs.Dominance.Fixpoint
import ConstantTime.Proofs.Dominance.InsideOut

namespace ConstantTime
namespace ConstantLoop

open Bounded

variable {g : Graph} {constant : ConstantBounds} {limit : Int64} {known : Regions}
  {exits : BlockId → BlockId → Tally} {inner doms m : DominatorTable}
  {T : OrderedMap BlockId Tally} {o : Option LoopId} {c l : LoopId} {b d h n x y : BlockId}
  {v : Visits}

/-- The set of every node lists what its tally does. -/
def Covers (g : Graph) (o : Option LoopId) (T : OrderedMap BlockId Tally)
    (doms : DominatorTable) : Prop :=
  ∀ n ∈ g.ids, g.IsNode o n → ∀ t, T.get? n = some t → ∀ d v, t.get? d = some v → d ∈ doms.of n

/-- The table of the inner loops lists what constant loops contribute. -/
def Lists (g : Graph) (constant : ConstantBounds) (exits : BlockId → BlockId → Tally)
    (o : Option LoopId) (inner : DominatorTable) : Prop :=
  ∀ c, g.IsChild o c → constant (g.header c) = true → ∀ y d v,
    (exits (g.header c) y).get? d = some v → d ∈ inner.of (g.header c)

section Region

variable (hg : g.Checked) (hh : g.IsStart o h)
include hg hh

/-- **What is known on leaving a node** the bounded analysis knows when control comes
over a block of it. -/
theorem offers_of_leaving (hlists : Lists g constant exits o inner) (hcov : Covers g o T doms)
    (hx : g.Inside o x) (hid : x ∈ g.ids)
    (hd : (leaving g constant exits T h (g.nodeIn o x) y).get? d = some v) :
    Offers g constant inner doms o x d := by
  have hnode : ∀ {v}, (T.getD (g.nodeIn o x) ∅).get? d = some v → d ∈ doms.of (g.nodeIn o x) := by
    intro v hv
    obtain ⟨t, ht, hv⟩ := get?_getD_empty hv
    exact hcov _ (hg.nodeIn_mem_ids hid hx) (hg.isNode_nodeIn hx) t ht d v hv
  rcases hg.level_or_child hx with hlevel | ⟨c, hc, hcx⟩
  · rw [Graph.Checked.nodeIn_of_level hlevel] at hd hnode
    rw [leaving_of_level hg hh hlevel] at hd
    exact .inl ⟨hlevel, hnode hd⟩
  · rw [hg.nodeIn_of_child hc hcx] at hd hnode
    rw [leaving_of_child hg hh hc] at hd
    refine .inr ⟨c, hc, hcx, ?_⟩
    split at hd
    · next hconst =>
      rcases Tally.get?_updatedBy_eq_some.1 hd with hd | ⟨-, hd⟩
      · exact .inr ⟨hconst, hlists c hc hconst y d v hd⟩
      · exact .inl (hnode hd)
    · exact .inl (hnode hd)

variable (hd : Drained g constant known o h T)
  (hlists : Lists g constant (exitTally g constant known (g.loops.length + 1)) o inner)
include hd hlists

/-- What the tallies hold is explored, or comes with an inner loop. -/
theorem tally_explored (hid : n ∈ g.ids) (hn : g.IsNode o n) : ∃ t, T.get? n = some t ∧
    ∀ d v, t.get? d = some v → d ∈ region g h ∨ ∃ x, d ∈ inner.of x := by
  have hregion : ∀ n ∈ g.ids, g.IsNode o n → n ∈ region g h := fun n => hg.mem_region_of_isNode hh
  refine (hg.node_induction hh (P := fun n => n ∈ g.ids ∧ g.IsNode o n ∧ ∃ t, T.get? n = some t ∧
    ∀ d v, t.get? d = some v → d ∈ region g h ∨ ∃ x, d ∈ inner.of x) ?_ ?_ hid hn).2.2
  · refine ⟨hg.start_mem_ids hh, hg.isNode_start hh, _, hd.start, ?_⟩
    refine OrderedMap.forall_get?_insert (by simp) ?_
    exact .inl (hregion h (hg.start_mem_ids hh) (hg.isNode_start hh))
  · rintro u s ⟨huid, hu, t, ht, hall⟩ hs
    have hsid := hg.mem_ids_of_mem_regionSuccs hs
    have hsnode := (hg.isNode_of_mem_regionSuccs hh hu hs).1
    obtain ⟨t', ht', hflow⟩ := hd.flows u t ht s hs
    refine ⟨hsid, hsnode, t', ht', fun d v hv => ?_⟩
    rcases hflow d v hv with ⟨rfl, -, -⟩ | hleave
    · exact .inl (hregion d hsid hsnode)
    · have hnode : ∀ {v}, (T.getD u ∅).get? d = some v →
          d ∈ region g h ∨ ∃ x, d ∈ inner.of x := by
        intro v hv
        rw [OrderedMap.getD, ht] at hv
        exact hall d v hv
      rcases hu with hlevel | ⟨c, hc, rfl⟩
      · rw [leaving_of_level hg hh hlevel] at hleave
        exact hnode hleave
      · rw [leaving_of_child hg hh hc] at hleave
        split at hleave
        · next hconst =>
          rcases Tally.get?_updatedBy_eq_some.1 hleave with hleave | ⟨-, hleave⟩
          · exact .inr ⟨_, hlists c hc hconst s d v hleave⟩
          · exact hnode hleave
        · exact hnode hleave

/-- Everything there is lists what the tallies do. -/
theorem covers_candidates :
    Covers g o T (candidates (OrderedSet.ofList (region g h)) inner h) := by
  intro n hid hn t ht d v hv
  obtain ⟨t', ht', hall⟩ := tally_explored hg hh hd hlists hid hn
  cases ht.symm.trans ht'
  rw [mem_candidates (hg.mem_region_of_isNode hh hid hn)]
  by_cases hnh : n = h
  · subst hnh
    cases ht.symm.trans hd.start
    by_cases hdn : d = n
    · exact .inl ⟨rfl, hdn⟩
    · simp [hdn] at hv
  · exact .inr ⟨hnh, hall d v hv⟩

variable (hexits : ExitsLocal g (exitTally g constant known (g.loops.length + 1)))
include hexits

/-- **One block is refined.** -/
theorem Covers.refine (hcov : Covers g o T doms) (b : BlockId) :
    Covers g o T (doms.insert b (Bounded.refine g constant inner h doms b)) := by
  intro n hid hn t ht d v hv
  rw [of_insert]
  split
  · next hnb =>
    subst hnb
    rw [Bounded.refine, OrderedSet.mem_insert]
    by_cases hdn : d = n
    · exact .inl hdn
    have hne : n ≠ h := by
      rintro rfl
      cases ht.symm.trans hd.start
      simp [hdn] at hv
    have hin := hg.inside_of_isNode hn
    have key : ∀ (ps : List BlockId) (shared : BlockSet), (∀ p ∈ ps, p ∈ outerPreds g n) →
        d ∈ shared → d ∈ ps.foldl (arrive g constant inner h doms n) shared := by
      intro ps
      induction ps with
      | nil => exact fun _ _ hshared => hshared
      | cons p ps ih =>
        intro shared hps hshared
        have hp := hps p List.mem_cons_self
        obtain ⟨hs, hfwd⟩ := (mem_outerPreds hg).1 hp
        refine ih _ (fun x hx => hps x (List.mem_cons_of_mem _ hx))
          (mem_arrive_of_offers hg hn hne hp hshared ?_ fun c hc hconst he => ?_)
        · exact offers_of_leaving hg hh hlists hcov (hg.inside_of_succ hh hin hne hs)
            (Shape.mem_ids_of_mem_succs hs)
            ((hd.over hg hh hin hn hne hs hfwd ht hv).resolve_left hdn)
        · rw [he, hd.get?_of_variable hg hh hexits hc hconst hid hn ht] at hv
          cases hv
    exact .inr (key _ _ (fun _ hp => hp) (hcov n hid hn t ht d v hv))
  · exact hcov n hid hn t ht d v hv

/-- **The sets that the sweeps end with.** -/
theorem covers_of_settle {sweeps : Nat} {blocks : List BlockId}
    (hsettle : Bounded.settle (sweep g constant inner h blocks) sweeps
      (candidates (OrderedSet.ofList (region g h)) inner h) = some doms) :
    Covers g o T doms := by
  have key : ∀ (bs : List BlockId) (doms : DominatorTable), Covers g o T doms →
      Covers g o T (sweep g constant inner h bs doms) := by
    intro bs
    induction bs with
    | nil => exact fun _ hcov => hcov
    | cons b bs ih => exact fun _ hcov => ih _ (hcov.refine hg hh hd hlists hexits b)
  exact (settle_induction (key blocks) (covers_candidates hg hh hd hlists) hsettle).1

end Region

/-! ### What a loop contributes -/

/-- What is known of a region, as far as the bounded analysis is concerned: whatever
it answers for the loops inside, its sets for the region cover the tallies. -/
structure Covered (g : Graph) (constant : ConstantBounds) (limit : Int64) (o : Option LoopId)
    (h : BlockId) (T : OrderedMap BlockId Tally) : Prop where
  inside : Local g o T
  complete : ∀ n ∈ g.ids, g.IsNode o n → ∃ t, T.get? n = some t
  drops : ∀ c, g.IsChild o c → constant (g.header c) = false → ∀ n ∈ g.ids, g.IsNode o n →
    ∀ t, T.get? n = some t → t.get? (g.header c) = none
  covers : ∀ fuel inner m, Answered g constant limit fuel h inner m → ∀ doms,
    Bounded.settle (sweep g constant inner h (OrderedSet.ofList (region g h)).toList)
      limit.toInt.toNat (candidates (OrderedSet.ofList (region g h)) inner h) = some doms →
        Covers g o T doms

/-- The loop and all loops inside it have been analysed, and are covered. -/
def CoveredInside (g : Graph) (constant : ConstantBounds) (limit : Int64) :
    Regions → LoopId → Prop :=
  AnalysedInside g fun m r => Covered g constant limit (some m) (g.header m) r.nodes

section Loops

variable (hg : g.Checked)
include hg

/-- **What every round visits a fixed number of times every round passes**, as far as the
bounded analysis knows. -/
theorem mem_latchDominators_of_round {fuel : Nat}
    (hl : l < g.loops.length) (hlocal : KnownLocal g known)
    (hcovered : Covered g constant limit (some l) (g.header l) T)
    (hlists : Lists g constant (exitTally g constant known fuel) (some l) inner)
    (hcov : Covers g (some l) T doms)
    (hround : ∀ x, g.Retreats x (g.header l) →
      (leaving g constant (exitTally g constant known fuel) T (g.header l)
        (g.nodeIn (some l) x) (g.header l)).get? d = some v) :
    d ∈ latchDominators g constant inner doms (g.header l) := by
  have hh : g.IsStart (some l) (g.header l) := ⟨hl, rfl⟩
  refine mem_latchDominators hg hl (fun x hx => ?_) fun c hc hconst hdc => ?_
  · have hwithin := hg.within_of_retreats hl hx
    exact offers_of_leaving hg hh hlists hcov hwithin (hg.mem_ids_of_within hwithin)
      (hround x hx)
  · -- a variable loop is not counted on leaving any node
    obtain ⟨L, hL⟩ := Graph.exists_loop hl
    obtain ⟨u, hu⟩ := hg.retreats_header hL
    rw [← Graph.header_eq hL] at hu
    have hwithin := hg.within_of_retreats hl hu
    have hnode := hg.isNode_nodeIn (o := some l) hwithin
    have hleave := hround u hu
    rw [hdc, leaving_variable hg hh (exitsLocal_exitTally hg hlocal constant fuel) hnode hc hconst
      (hcovered.drops c hc hconst _ (hg.nodeIn_mem_ids (hg.mem_ids_of_within hwithin) hwithin)
        hnode)] at hleave
    cases hleave

/-- **What a loop contributes all its ways out share**, by induction on the nesting. -/
theorem mem_sharedByAll {fuel rounds : Nat} (hl : l < g.loops.length)
    (hlocal : KnownLocal g known) (hinf : CoveredInside g constant limit known l)
    (hrun : run g constant limit rounds (g.header l) = .ok m) (hm : m.isEmpty = false)
    (hd : (exitTally g constant known fuel (g.header l) y).get? d = some v) :
    d ∈ sharedByAll m := by
  induction fuel generalizing l rounds m y d v with
  | zero => simp [exitTally] at hd
  | succ fuel ih =>
    obtain ⟨n, hround, -⟩ := get?_exitTally.1 hd
    obtain ⟨r, hr, hcovered⟩ := hinf l hl (hg.within_header hl)
    obtain ⟨rounds, inner, rfl, hanswered⟩ := exists_answered hrun hm
    obtain ⟨doms, hsettle, hends⟩ := ofRegion_eq_ok hanswered.result
    have hh : g.IsStart (some l) (g.header l) := ⟨hl, rfl⟩
    have hnodes : nodesOf known (g.header l) = r.nodes := by rw [nodesOf, hr]
    rw [get?_roundTally hg hl, hnodes] at hround
    have hlists : Lists g constant (exitTally g constant known fuel) (some l) inner := by
      intro c hc hconst y d v hv
      obtain ⟨r', hr', hne, he⟩ := hanswered.analysed_child hg hh hc
      rw [he]
      exact ih hc.1 (fun m hm hw => hinf m hm (hg.within_trans
        (hg.parent_eq_some hc.1 hc.2).2.1 hw)) hr' hne hv
    -- every round passes the block, and every way out lists what every round passes
    have hlatch := mem_latchDominators_of_round hg hl hlocal hcovered hlists
      (hcovered.covers rounds inner m hanswered doms hsettle) hround
    rw [sharedByAll, OrderedSet.mem_interAll]
    refine ⟨?_, fun s hs => ?_⟩
    · rw [OrderedMap.isEmpty, List.isEmpty_eq_false_iff] at hm
      simpa [OrderedMap.values] using hm
    · obtain ⟨e, he⟩ := OrderedMap.mem_values_iff.1 hs
      rw [((hends e s).1 he).2, OrderedSet.mem_union]
      exact .inr hlatch

/-- **An analysis that succeeds is covered**, if those of the loops directly inside are. -/
theorem covered_of_analyse {r : Region} (hlocal : KnownLocal g known) (hh : g.IsStart o h)
    (hr : analyse g constant limit known h = .ok r)
    (hchild : ∀ c, g.IsChild o c → CoveredInside g constant limit known c) :
    Covered g constant limit o h r.nodes := by
  have hexits := exitsLocal_exitTally hg hlocal constant (g.loops.length + 1)
  obtain ⟨hdrained, -, -⟩ := analyse_eq_ok hg hh hexits hr
  refine ⟨hdrained.inside, fun n => hdrained.complete hg hh, fun c hc hconst n hid hn t ht =>
    hdrained.get?_of_variable hg hh hexits hc hconst hid hn ht, ?_⟩
  intro fuel inner m hanswered doms hsettle
  refine covers_of_settle hg hh hdrained (fun c hc hconst y d v hv => ?_) hexits hsettle
  obtain ⟨r', hr', hne, he⟩ := hanswered.analysed_child hg hh hc
  rw [he]
  exact mem_sharedByAll hg hc.1 hlocal (hchild c hc) hr' hne hv

/-- **All loops.** -/
theorem coveredInside_regions (hl : l < g.loops.length) :
    (∃ e, (regions g constant limit).get? (g.header l) = some (.error e)) ∨
      CoveredInside g constant limit (regions g constant limit) l :=
  analysed_regions hg (Q := fun m r => Covered g constant limit (some m) (g.header m) r.nodes)
    (fun _ _ hcovered => hcovered.inside) (fun _ l hl hlocal _ hr hchild =>
      have hh : g.IsStart (some l) (g.header l) := ⟨hl, rfl⟩
      covered_of_analyse hg hlocal hh hr hchild) l hl

end Loops

end ConstantLoop

open Bounded ConstantLoop

/-- **Constant-loop dominators of an end are bounded dominators of it.**  Let both
analyses of an accepted graph succeed from the entry with the same constant headers and
limit, and let the bounded one have an answer.  For every end, whatever the constant-loop
analysis lists the bounded analysis lists. -/
theorem constantLoopDominators_subset {g : Graph} {constant : ConstantBounds} {limit : Int64}
    {m k : DominatorTable} (hg : g.Accepted)
    (hm : g.boundedDominators constant limit g.entry = .ok m) (hne : m.isEmpty = false)
    (hk : g.constantLoopDominators constant limit true g.entry = .ok k) :
    ∀ e ∈ g.ends, ∀ d ∈ k.of e, d ∈ m.of e := by
  intro e he d hd
  have hc := hg.checked
  have hh : g.IsStart none g.entry := rfl
  obtain ⟨hid, hsuccs⟩ : e ∈ g.ids ∧ g.succs e = [] := by simpa [Shape.ends] using he
  have hlevel : g.loopOf e = none := hc.loopOf_eq_none.2 (hc.not_within_end hsuccs)
  -- the tallies of the function
  obtain ⟨r, hr, hnodes⟩ := constantLoopDominators_eq_ok hc hk
  obtain ⟨t, v, ht, hv⟩ := hnodes e hlevel d hd
  have hlocal := knownLocal_regions hc constant limit
  have hcovered := covered_of_analyse hc hlocal hh hr (children_analysed hc hlocal hh hr
    fun c hchild => coveredInside_regions hc hchild.1)
  -- the sets of the function
  obtain ⟨fuel, inner, -, hanswered⟩ := exists_answered hm hne
  obtain ⟨doms, hsettle, hends⟩ := ofRegion_eq_ok hanswered.result
  have hmem := hcovered.covers fuel inner m hanswered doms hsettle e hid (.inl hlevel) t ht d v hv
  have hend : e ∈ (region g g.entry).flatMap (endsAt g g.entry) := by
    refine List.mem_flatMap.2 ⟨e, hc.mem_region_of_isNode hh hid (.inl hlevel), ?_⟩
    simp [endsAt, hsuccs]
  refine DominatorTable.mem_of.2 ⟨_, (hends e _).2 ⟨hend, rfl⟩, ?_⟩
  exact OrderedSet.mem_union.2 (.inl hmem)

/-- A loop inside a loop; from the header of the inner one both are left at once. -/
def Graph.leftEarly : Graph :=
  Graph.drawn 7 [(0, 1), (1, 2), (2, 3), (3, 2), (3, 4), (4, 1), (2, 5), (4, 5), (1, 6)]
    (by decide +kernel)

/-- In `leftEarly` the last round may leave out the blocks 3 and 4, but earlier rounds
pass them: for the end 5 the constant-loop analysis lists less than the bounded one. -/
theorem constantLoopDominators_subset_leftEarly :
    ∃ m k, Graph.leftEarly.boundedDominators (fun _ => true) 50 0 = .ok m ∧
      Graph.leftEarly.constantLoopDominators (fun _ => true) 50 true 0 = .ok k ∧
      (∀ e ∈ Graph.leftEarly.ends, ∀ d ∈ k.of e, d ∈ m.of e) ∧
      (k.of 5).toList = [0, 1, 2, 5] ∧ (m.of 5).toList = [0, 1, 2, 3, 4, 5] := by
  have hm : Graph.leftEarly.boundedDominators (fun _ => true) 50 Graph.leftEarly.entry = .ok _ :=
    Outcome.eq_ok_get (by decide +kernel)
  have hk : Graph.leftEarly.constantLoopDominators (fun _ => true) 50 true Graph.leftEarly.entry =
    .ok _ := Outcome.eq_ok_get (by decide +kernel)
  exact ⟨_, _, hm, hk, constantLoopDominators_subset (Graph.accepted_drawn _) hm (by decide +kernel) hk,
    by decide +kernel, by decide +kernel⟩

end ConstantTime
