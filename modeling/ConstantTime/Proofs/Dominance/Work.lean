/-
# What the work on a region keeps

The tallies of a region are worked out over a queue.  What holds at first, and is kept
whenever an edge is followed from a node that has a tally, holds when the queue is empty
(`drain_induction`).

The blocks of the loops inside that were met on the way are then given what the header of
their loop knows and what every round of the loop visits, and no other block is written
(`spread_cases`).
-/

import ConstantTime.Proofs.Dominance.InsideOut

namespace ConstantTime
namespace ConstantLoop

variable {g : Graph} {constant : ConstantBounds} {limit : Int64} {known : Regions}
  {o : Option LoopId} {h : BlockId} {r : Region} {w w' : Work}

/-! ### The queue -/

/-- The blocks that are queued have tallies. -/
def Queued (w : Work) : Prop := ∀ b ∈ w.queue, ∃ t, w.tallies.get? b = some t

theorem Queued.follow {current s : BlockId} (hw : Queued w)
    (hf : follow g constant known h current w s = .ok w') :
    Queued w' ∧ ∀ b, (∃ t, w.tallies.get? b = some t) → ∃ t, w'.tallies.get? b = some t := by
  obtain ⟨hqueue, htallies, -, -, -⟩ := follow_eq_ok hf
  have hkeeps : ∀ b, (∃ t, w.tallies.get? b = some t) → ∃ t, w'.tallies.get? b = some t :=
    fun b hb => htallies ▸ OrderedMap.exists_get?_insert fun _ => hb
  refine ⟨fun b hb => ?_, hkeeps⟩
  rw [hqueue, mem_enqueue] at hb
  rcases hb with hb | rfl
  · exact hkeeps b (hw b hb)
  · exact htallies ▸ OrderedMap.exists_get?_insert fun hne => absurd rfl hne

section Induction

variable {P : Work → Prop} (hqueue : ∀ w queue, P w → P { w with queue := queue })
  (hfollow : ∀ current, ∀ s ∈ g.regionSuccs current h, ∀ w w',
    (∃ t, w.tallies.get? current = some t) →
      follow g constant known h current w s = .ok w' → P w → P w')
include hqueue hfollow

/-- **Induction over the work.** -/
theorem drain_induction {steps : Nat} (hw : P w) (hqueued : Queued w)
    (hd : drain g constant known h steps w = .ok (some w')) : P w' := by
  induction steps generalizing w with
  | zero =>
    unfold drain at hd
    split at hd
    · cases hd
      exact hw
    · cases hd
  | succ steps ih =>
    unfold drain at hd
    split at hd
    · cases hd
      exact hw
    · next current rest hq =>
      obtain ⟨next, hnext, hrest⟩ := Outcome.bind_eq_ok.1 hd
      have hcurrent : ∃ t, w.tallies.get? current = some t := hqueued current (by rw [hq]; simp)
      have hpopped : Queued { w with queue := rest } := fun b hb =>
        hqueued b (by rw [hq]; exact List.mem_cons_of_mem _ hb)
      obtain ⟨hP, hqueued', -⟩ := Outcome.foldlM_keeps
        (P := fun w => P w ∧ Queued w ∧ ∃ t, w.tallies.get? current = some t)
        (fun w s hs w' hf ⟨hP, hqueued, hcurrent⟩ =>
          ⟨hfollow current s hs w w' hcurrent hf hP, (hqueued.follow hf).1,
            (hqueued.follow hf).2 current hcurrent⟩)
        ⟨hqueue w rest hw, hpopped, hcurrent⟩ hnext
      exact ih hP hqueued' hrest

/-- **The work behind an analysed region.** -/
theorem exists_work (hfirst : P
      { tallies := (∅ : OrderedMap BlockId Tally).insert h ((∅ : Tally).insert h .once),
        queue := [h] })
    (hr : analyse g constant limit known h = .ok r) :
    ∃ w, P w ∧ r.nodes = w.tallies ∧
      r.blocks = w.inner.foldl (spread g constant known) w.tallies := by
  unfold analyse at hr
  dsimp only at hr
  obtain ⟨w?, hw, hrest⟩ := Outcome.bind_eq_ok.1 hr
  cases w? with
  | none => cases hrest
  | some w =>
    cases hrest
    refine ⟨w, drain_induction hqueue hfollow hfirst (fun b hb => ?_) hw, rfl, rfl⟩
    obtain rfl := List.mem_singleton.1 hb
    exact ⟨_, by rw [OrderedMap.get?_insert, if_pos rfl]⟩

end Induction

/-- Tallies are those of nodes of the region, and the loops that were met have some. -/
structure Placed (g : Graph) (o : Option LoopId) (w : Work) : Prop where
  node : ∀ b t, w.tallies.get? b = some t → b ∈ g.ids ∧ g.IsNode o b
  met : ∀ x ∈ w.inner, ∃ t, w.tallies.get? x = some t

theorem exists_work_placed (hg : g.Checked) (hh : g.IsStart o h)
    (hr : analyse g constant limit known h = .ok r) :
    ∃ w, Placed g o w ∧ r.nodes = w.tallies ∧
      r.blocks = w.inner.foldl (spread g constant known) w.tallies := by
  refine exists_work (P := Placed g o) (fun _ _ hw => ⟨hw.node, hw.met⟩)
    (fun current s hs w w' hcurrent hf hw => ?_) ⟨?_, by simp⟩ hr
  · obtain ⟨-, htallies, -, -, hinner⟩ := follow_eq_ok hf
    obtain ⟨t, ht⟩ := hcurrent
    refine ⟨?_, fun x hx => ?_⟩
    · rw [htallies]
      refine OrderedMap.forall_get?_insert (P := fun b _ => b ∈ g.ids ∧ g.IsNode o b) hw.node ?_
      exact ⟨hg.mem_ids_of_mem_regionSuccs hs,
        (hg.isNode_of_mem_regionSuccs hh (hw.node current t ht).2 hs).1⟩
    · rw [htallies]
      refine OrderedMap.exists_get?_insert fun hne => ?_
      rcases hinner x hx with hx | ⟨rfl, -⟩
      · exact hw.met x hx
      · exact absurd rfl hne
  · exact OrderedMap.forall_get?_insert (P := fun b _ => b ∈ g.ids ∧ g.IsNode o b) (by simp)
      ⟨hg.start_mem_ids hh, hg.isNode_start hh⟩

/-! ### The blocks of inner loops -/

/-- What the blocks of an inner loop know: what its header does and, if the bound is
constant, what every round of the loop visits. -/
def inLoop (g : Graph) (constant : ConstantBounds) (known : Regions) (t : Tally) (h : BlockId) :
    Tally :=
  t.updatedBy (if constant h then
      (roundTally g constant known (exitTally g constant known g.loops.length) h).mapValues
        fun _ n => .eachRound h n
    else ∅)

/-- **What spreading writes**: nothing, or the same for all blocks of one loop. -/
theorem spread_cases (hg : g.Checked) (constant : ConstantBounds) (known : Regions)
    (T : OrderedMap BlockId Tally) (h : BlockId) :
    spread g constant known T h = T ∨ ∃ l < g.loops.length, h = g.header l ∧
      ∀ b, (spread g constant known T h).get? b =
        if g.Within l b then some (inLoop g constant known (T.getD h ∅) h) else T.get? b := by
  unfold spread
  dsimp only
  split
  · exact .inl rfl
  · next L hL =>
    obtain ⟨l, hhead, hL⟩ := Option.bind_eq_some_iff.1 hL
    obtain ⟨L', hL', he⟩ := hg.headedBy_eq_some.1 hhead
    cases hL.symm.trans hL'
    have hl : l < g.loops.length := (List.getElem?_eq_some_iff.1 hL).1
    have hblocks : ∀ b, b ∈ L.blocks ↔ g.Within l b := by
      intro b
      rw [Graph.within_iff_mem hL, Loop.blocks, List.mem_cons, OrderedSet.mem_toList,
        OrderedSet.mem_erase]
      have hmem : L.header ∈ L.members :=
        (Graph.within_iff_mem hL).1 (Graph.header_eq hL ▸ hg.within_header hl)
      by_cases hb : b = L.header
      · simp [hb, hmem]
      · simp [hb]
    refine .inr ⟨l, hl, by rw [Graph.header_eq hL, he], fun b => ?_⟩
    rw [OrderedMap.get?_insertAll_map]
    simp only [hblocks]
    rfl

theorem exists_get?_spread (hg : g.Checked) {T : OrderedMap BlockId Tally} {b x : BlockId}
    (hb : ∃ t, T.get? b = some t) : ∃ t, (spread g constant known T x).get? b = some t := by
  rcases spread_cases hg constant known T x with he | ⟨l, -, -, hspread⟩
  · rwa [he]
  · rw [hspread]
    split
    · exact ⟨_, rfl⟩
    · exact hb

end ConstantLoop
end ConstantTime
