/-
# What the sweeps over a region come to

The sweeps over the blocks of a region take away from the sets and add nothing, and they
end when nothing changes.  What they end with does not depend on the order of the blocks:
it is the greatest table below the one they start from in which every set is what the
predecessors of its block make of it (`IsGreatestFixed`).

Refining keeps above what its predecessors support: let a table hold nothing that its
predecessors do not confirm, and let it lie below the sets so far.  Since refining is
monotone, what is confirmed by the smaller sets is confirmed by the larger ones, so the
table lies below the next sets too (`Supported.below_refine`).
-/

import ConstantTime.Proofs.Dominance.Shrinking

namespace ConstantTime
namespace Bounded

variable {g : Graph} {constant : ConstantBounds} {limit : Int64} {fuel : Nat}
  {inner doms doms' first m : DominatorTable} {o : Option LoopId} {b h : BlockId}
  {blocks : List BlockId}

/-! ### The greatest fixed point -/

/-- The sets of the region hold nothing that the predecessors do not confirm. -/
def Supported (g : Graph) (constant : ConstantBounds) (h : BlockId)
    (inner doms : DominatorTable) : Prop :=
  ∀ b ∈ region g h, ∀ d ∈ doms.of b, d ∈ refine g constant inner h doms b

/-- **The greatest fixed point** of refining below a table: above every table below it that
its predecessors confirm. -/
structure IsGreatestFixed (g : Graph) (constant : ConstantBounds) (h : BlockId)
    (inner first doms : DominatorTable) : Prop where
  below : Below doms first
  fixed : ∀ b ∈ region g h, refine g constant inner h doms b = doms.of b
  greatest : ∀ m, Below m first → Supported g constant h inner m → Below m doms

/-- **One block is refined**, and stays above what is supported. -/
theorem Supported.below_refine (hm : Supported g constant h inner m) (hle : Below m doms)
    (hb : b ∈ region g h) :
    Below m (doms.insert b (refine g constant inner h doms b)) := by
  intro x d hd
  rw [of_insert]
  split
  · next he => exact refine_mono hle (hm b hb d (he ▸ hd))
  · exact hle x d hd

theorem Supported.below_sweep (hblocks : ∀ b ∈ blocks, b ∈ region g h)
    (hm : Supported g constant h inner m) (hle : Below m doms) :
    Below m (sweep g constant inner h blocks doms) := by
  rw [Bounded.sweep]
  induction blocks generalizing doms with
  | nil => exact hle
  | cons b blocks ih =>
    exact ih (fun x hx => hblocks x (List.mem_cons_of_mem _ hx))
      (hm.below_refine hle (hblocks b List.mem_cons_self))

/-- **What the sweeps end with** is the greatest fixed point below what they start from. -/
theorem Shrinking.isGreatestFixed (hnodup : blocks.Nodup)
    (hblocks : ∀ b, b ∈ blocks ↔ b ∈ region g h) (hs : Shrinking g constant h inner first)
    {sweeps : Nat} (hr : settle (Bounded.sweep g constant inner h blocks) sweeps first = some doms) :
    IsGreatestFixed g constant h inner first doms := by
  have hin : ∀ b ∈ blocks, b ∈ region g h := fun b hb => (hblocks b).1 hb
  obtain ⟨⟨-, hbelow⟩, hfix⟩ := settle_induction
    (P := fun doms => Shrinking g constant h inner doms ∧ Below doms first)
    (fun doms ⟨hs, hle⟩ => ⟨(hs.sweep hin).1, (hs.sweep hin).2.trans hle⟩)
    ⟨hs, fun _ _ hd => hd⟩ hr
  refine ⟨hbelow, fun b hb => (of_eq_refine hnodup hfix ((hblocks b).2 hb)).symm,
    fun m hle hm => ?_⟩
  exact (settle_induction (P := Below m) (fun doms => hm.below_sweep hin) hle hr).1

/-! ### Sweep after sweep -/

/-- After any number of sweeps another one takes away only. -/
theorem Shrinking.iterate (hin : ∀ b ∈ blocks, b ∈ region g h)
    (hs : Shrinking g constant h inner first) (n : Nat) :
    Shrinking g constant h inner ((Bounded.sweep g constant inner h blocks)^[n] first) := by
  induction n with
  | zero => exact hs
  | succ n ih =>
    rw [Function.iterate_succ_apply']
    exact (ih.sweep hin).1

/-- **How many sweeps it takes**: some that change something, and one more that shows that
nothing is left to change.  Fewer give no answer, and more are not made. -/
theorem exists_settle_eq {step : DominatorTable → DominatorTable} {n : Nat}
    (h : settle step n first = some doms) :
    ∃ k < n, ∀ sweeps, settle step sweeps first = if k < sweeps then some doms else none := by
  induction n generalizing first with
  | zero => cases h
  | succ n ih =>
    rw [settle] at h
    by_cases hsame : step first = first
    · obtain rfl : step first = doms := by simpa [hsame] using h
      refine ⟨0, Nat.succ_pos n, fun sweeps => ?_⟩
      cases sweeps <;> simp [settle, hsame]
    · obtain ⟨k, hk, hall⟩ := ih (by simpa [hsame] using h)
      refine ⟨k + 1, Nat.succ_lt_succ hk, fun sweeps => ?_⟩
      cases sweeps with
      | zero => rfl
      | succ sweeps => simp [settle, hsame, hall]

/-- A region is answered if its sweeps end in time. -/
theorem exists_ofRegion_iff : (∃ m, ofRegion g constant limit h inner = .ok m) ↔
    ∃ doms, settle (Bounded.sweep g constant inner h (OrderedSet.ofList (region g h)).toList)
      limit.toInt.toNat (candidates (OrderedSet.ofList (region g h)) inner h) = some doms := by
  rw [ofRegion]
  split
  · next hnone => rw [hnone]; simp [reject]
  · next doms hsome => rw [hsome]; simp

end Bounded

open Bounded in
/-- **What the sweeps of the bounded analysis do.**  Take a region of an accepted graph, the
function from its entry or a loop from its header, and let the loops inside have been
analysed.  Then

* smaller candidates are refined to no larger sets;
* in every sweep, each block is refined to a part of the set that it has, although what
  comes with constant loops is united into it, and no set is larger after the sweep;
* the number of sweeps that change something is at most the number of blocks explored times
  the size of the largest candidate set, so that with one more sweep the limit is not met;
* the sets that are come to, and from which the region is answered, are the greatest fixed
  point below the candidates. -/
theorem Graph.Accepted.sweeps_reach_greatest {g : Graph} {constant : ConstantBounds} {limit : Int64}
    {fuel : Nat} {o : Option LoopId} {h : BlockId} {inner : DominatorTable} (hg : g.Accepted)
    (hh : g.IsStart o h)
    (hinner : innerTable (run g constant limit fuel) ((region g h).filter (isInner g h)) =
      .ok (some inner)) :
    let blocks := OrderedSet.ofList (region g h)
    let all := inner.values.foldl OrderedSet.union blocks
    let first := candidates blocks inner h
    let step := sweep g constant inner h blocks.toList
    (∀ doms doms', Below doms doms' → ∀ b, ∀ d ∈ refine g constant inner h doms b,
      d ∈ refine g constant inner h doms' b) ∧
    (∀ n, Below (step^[n + 1] first) (step^[n] first) ∧
      ∀ before b after, blocks.toList = before ++ b :: after →
        let doms := sweep g constant inner h before (step^[n] first)
        ∀ d ∈ refine g constant inner h doms b, d ∈ doms.of b) ∧
    ∃ doms changes, IsGreatestFixed g constant h inner first doms ∧
      changes ≤ blocks.size * all.size ∧
      (∀ sweeps, settle step sweeps first = if changes < sweeps then some doms else none) ∧
      ((∃ m, run g constant limit (fuel + 1) h = .ok m) ↔ changes < limit.toInt.toNat) ∧
      ∀ m, run g constant limit (fuel + 1) h = .ok m → ∀ e s, m.get? e = some s ↔
        e ∈ (region g h).flatMap (endsAt g h) ∧
          s = (doms.of e).union (latchDominators g constant inner doms h) := by
  intro blocks all first step
  have hblocks : ∀ b, b ∈ blocks.toList ↔ b ∈ region g h := fun b => OrderedSet.mem_ofList
  have hin : ∀ b ∈ blocks.toList, b ∈ region g h := fun b => (hblocks b).1
  have hs : Shrinking g constant h inner first :=
    shrinking_candidates hg.checked hh constant fun x => of_innerTable_before hg.checked hh hinner
  have hiter := hs.iterate hin
  have hrun : run g constant limit (fuel + 1) h = ofRegion g constant limit h inner := by
    rw [run, hinner]
    rfl
  refine ⟨fun _ _ hbelow _ _ => refine_mono hbelow, fun n => ⟨?_, ?_⟩, ?_⟩
  · rw [Function.iterate_succ_apply']
    exact ((hiter n).sweep hin).2
  · intro before b after hsplit
    have hbefore : ∀ x ∈ before, x ∈ region g h := fun x hx => hin x (by simp [hsplit, hx])
    exact ((hiter n).sweep hbefore).1.below b (hin b (by simp [hsplit]))
  · obtain ⟨doms, hsettle, -⟩ :=
      hs.settles hblocks (Nat.lt_succ_of_le (total_candidates_le g h inner))
    obtain ⟨changes, hchanges, hall⟩ := exists_settle_eq hsettle
    refine ⟨doms, changes, hs.isGreatestFixed (OrderedSet.nodup_toList _) hblocks hsettle,
      Nat.le_of_lt_succ hchanges, hall, ?_, fun m hm => ?_⟩
    · rw [hrun, exists_ofRegion_iff, hall]
      constructor
      · rintro ⟨doms', hdoms'⟩
        exact (Option.ite_none_right_eq_some.1 hdoms').1
      · exact fun hlt => ⟨doms, if_pos hlt⟩
    · obtain ⟨doms', hsettle', hends⟩ := ofRegion_eq_ok (hrun ▸ hm)
      rw [hall, Option.ite_none_right_eq_some] at hsettle'
      cases hsettle'.2
      exact hends

/-- A loop in a loop, whose blocks are numbered against the order in which they are come to. -/
def Graph.numberedBack : Graph :=
  drawn 7 [(0, 4), (4, 6), (6, 3), (3, 2), (2, 3), (3, 1), (1, 4), (4, 5)] (by decide +kernel)

open Bounded in
/-- For the outer loop of `numberedBack` the third sweep is the first that changes nothing;
the block 1 has then got the inner loop, which goes round before it is left. -/
theorem Graph.sweeps_reach_greatest_numberedBack :
    let inner : DominatorTable := .ofList [(3, .ofList [2, 3])]
    let first := candidates (.ofList [1, 3, 4, 6]) inner 4
    let doms : DominatorTable := .ofList [(1, .ofList [1, 2, 3, 4, 6]), (3, .ofList [3, 4, 6]),
      (4, .ofList [4]), (6, .ofList [4, 6])]
    IsGreatestFixed numberedBack (fun h => h = 3) 4 inner first doms ∧
      settle (sweep numberedBack (fun h => h = 3) inner 4 [1, 3, 4, 6]) 3 first = some doms := by
  intro inner first doms
  have hg : numberedBack.Accepted := accepted_drawn _
  have hh : numberedBack.IsStart (some 1) 4 := ⟨by decide +kernel, by decide +kernel⟩
  have hinner : innerTable (run numberedBack (fun h => h = 3) 10 1)
      ((region numberedBack 4).filter (isInner numberedBack 4)) = .ok (some inner) := by
    decide +kernel
  have hregion : OrderedSet.ofList (region numberedBack 4) = .ofList [1, 3, 4, 6] := by
    decide +kernel
  obtain ⟨-, -, r, changes, hgreatest, -, hall, -⟩ := hg.sweeps_reach_greatest hh hinner
  rw [hregion] at hgreatest hall
  have hthree : settle (sweep numberedBack (fun h => h = 3) inner 4 [1, 3, 4, 6]) 3 first =
      some doms := by decide +kernel
  obtain ⟨-, hr⟩ := Option.ite_none_right_eq_some.1 ((hall 3).symm.trans hthree)
  obtain rfl : r = doms := Option.some.inj hr
  exact ⟨hgreatest, hthree⟩

end ConstantTime
