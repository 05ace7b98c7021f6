/-
# How loops nest

Two loops of an accepted graph that share a block are nested, so the loops
around a block form a chain.  This module says what `nest` and `innermost` make
of it:

* the parent of a loop is the smallest other loop around its header
  (`Checked.parent_eq_some`),
* the depth of a block is the number of loops around it (`Checked.depth_eq`),
* the innermost loop around a block lies inside every other loop around it
  (`Checked.loopOf_eq_some`), and
* `loopsAround` lists the loops around a block, each once and inner ones first
  (`Checked.mem_loopsAround`, `Checked.pairwise_loopsAround`).

Parent and innermost loop are both found by a walk that keeps the better of two
candidates; `exists_foldl_best` is what such a walk ends with.
-/

import ConstantTime.Proofs.Graph.Loops
import Mathlib.Data.List.Perm.Basic

namespace ConstantTime

/-- A walk that keeps the better of two ends with one that none is better than. -/
theorem exists_foldl_best {α : Type} (better : α → α → Prop) [DecidableRel better]
    (asymm : ∀ a b, better a b → ¬ better b a)
    (trans : ∀ a b c, ¬ better a b → ¬ better b c → ¬ better a c)
    {f : Option α → α → Option α}
    (hf : ∀ a b, f (some b) a = if better a b then some a else some b) (xs : List α) (b : α) :
    ∃ p, xs.foldl f (some b) = some p ∧ p ∈ b :: xs ∧ ∀ q ∈ b :: xs, ¬ better q p := by
  induction xs generalizing b with
  | nil => exact ⟨b, rfl, by simp, by simpa using fun h => asymm b b h h⟩
  | cons x xs ih =>
    rw [List.foldl_cons, hf]
    -- `c` is the better of the two; what beats neither is carried over by `trans`
    obtain ⟨c, hc, hmem, hb, hx⟩ : ∃ c, (if better x b then some x else some b) = some c ∧
        c ∈ [b, x] ∧ ¬ better b c ∧ ¬ better x c := by
      by_cases h : better x b
      · exact ⟨x, if_pos h, by simp, asymm x b h, fun h' => asymm x x h' h'⟩
      · exact ⟨b, if_neg h, by simp, fun h' => asymm b b h' h', h⟩
    obtain ⟨p, hp, hpm, hbest⟩ := ih c
    rw [hc]
    refine ⟨p, hp, ?_, ?_⟩
    · simp only [List.mem_cons, List.not_mem_nil, or_false] at hmem hpm ⊢
      grind
    · have hcp := hbest c List.mem_cons_self
      intro q hq
      rcases List.mem_cons.1 hq with rfl | hq
      · exact trans _ _ _ hb hcp
      rcases List.mem_cons.1 hq with rfl | hq
      · exact trans _ _ _ hx hcp
      · exact hbest q (List.mem_cons_of_mem _ hq)

namespace Graph.Checked

variable {g : Graph} (hg : g.Checked) {l l' p q : LoopId} {b u v x : BlockId}
include hg

/-! ### Parents -/

theorem size_natural_lt (hl : l < g.loops.length) (h : g.Within p (g.header l)) (hne : p ≠ l) :
    (g.naturalMembers (g.header l)).size < (g.naturalMembers (g.header p)).size := by
  have hlt := lt_of_within h
  refine OrderedSet.size_lt_of_ssubset (b := g.header p) (fun x hx => ?_) ?_ fun hx => ?_
  · exact (hg.within_iff_natural hlt).1 (hg.within_trans h ((hg.within_iff_natural hl).2 hx))
  · exact hg.header_mem_natural_self
  · exact hne (hg.within_antisymm h ((hg.within_iff_natural hl).2 hx))

theorem unplaced_getElem? (h : l < g.loops.length) : g.unplaced[l]? =
    some (Loops.natural g.toShape (Loops.retreating g.toShape g.order) (g.header l)) := by
  obtain ⟨L, hL⟩ := exists_loop h
  rw [header_eq hL, unplaced, List.getElem?_map, (hg.loop?_eq_some hL).1]
  rfl

theorem unplaced_length : g.unplaced.length = g.loops.length := by
  rw [hg.loops_length, unplaced, List.length_map]

/-- The loops that `parentOf` chooses from. -/
theorem surrounds_iff (h : l < g.loops.length) {L : Loop} (hL : g.unplaced[l]? = some L) :
    p ≠ l ∧ (g.unplaced[p]?.map (fun o => Loops.surrounds o L)).getD false = true ↔
      p ≠ l ∧ g.Within p (g.header l) := by
  refine and_congr_right fun hne => ?_
  rw [hg.unplaced_getElem? h] at hL
  cases hL
  by_cases hp : p < g.loops.length
  · rw [hg.unplaced_getElem? hp, hg.within_iff_natural hp]
    simp only [Option.map_some, Option.getD_some, Loops.surrounds, Loop.contains, Bool.and_eq_true,
      decide_eq_true_eq]
    exact ⟨And.left, fun hw => ⟨hw, hg.size_natural_lt h ((hg.within_iff_natural hp).2 hw) hne⟩⟩
  · have hnone : g.unplaced[p]? = none := by
      rw [List.getElem?_eq_none_iff, hg.unplaced_length]
      exact Nat.le_of_not_lt hp
    rw [hnone]
    simpa using fun hw => hp (lt_of_within hw)

theorem parents_getElem? :
    (g.unplaced.zipIdx.map fun (l, i) => Loops.parentOf g.unplaced i l)[l]?.join =
      g.parent (some l) := by
  unfold parent
  rw [Option.bind_some, loop?, hg.loops_eq_nest, Loops.nest]
  simp only [List.getElem?_map, List.getElem?_zipIdx]
  cases h : g.unplaced[l]? <;> simp [h]

theorem parent_eq (h : l < g.loops.length) :
    g.parent (some l) = ((List.range g.loops.length).filter fun p =>
      decide (p ≠ l ∧ g.Within p (g.header l))).foldl (Loops.smaller g.unplaced) none := by
  have hU := hg.unplaced_getElem? h
  rw [← hg.parents_getElem?, List.getElem?_map, List.getElem?_zipIdx, hU]
  simp only [Option.map_some, Option.join_some, Loops.parentOf, hg.unplaced_length]
  congr 1
  refine List.filter_congr fun p _ => ?_
  rw [Bool.eq_iff_iff, Bool.and_eq_true, decide_eq_true_eq, decide_eq_true_eq, Nat.zero_add]
  exact hg.surrounds_iff h hU

/-- **The parent of a loop is the smallest other loop around its header.** -/
theorem parent_cases (h : l < g.loops.length) :
    (g.parent (some l) = none ∧ ∀ q, g.Within q (g.header l) → q = l) ∨
      ∃ p, g.parent (some l) = some p ∧ p ≠ l ∧ g.Within p (g.header l) ∧
        ∀ q, q ≠ l → g.Within q (g.header l) → g.Within q (g.header p) := by
  rw [hg.parent_eq h]
  have hmem : ∀ q, q ∈ ((List.range g.loops.length).filter fun p =>
      decide (p ≠ l ∧ g.Within p (g.header l))) ↔ q ≠ l ∧ g.Within q (g.header l) := by
    intro q
    simp only [List.mem_filter, List.mem_range, decide_eq_true_eq, and_iff_right_iff_imp]
    exact fun hq => lt_of_within hq.2
  generalize ((List.range g.loops.length).filter fun p =>
    decide (p ≠ l ∧ g.Within p (g.header l))) = cs at hmem
  cases cs with
  | nil => exact .inl ⟨rfl, fun q hq => by_contra fun hne => by simpa using (hmem q).2 ⟨hne, hq⟩⟩
  | cons c cs =>
    let extent (i : LoopId) : Nat := (g.unplaced[i]?.map (fun l => l.members.size)).getD 0
    have hext : ∀ i < g.loops.length, extent i = (g.naturalMembers (g.header i)).size := by
      intro i hi
      simp only [extent, hg.unplaced_getElem? hi, Option.map_some, Option.getD_some]
      rfl
    obtain ⟨p, hp, hpm, hbest⟩ := exists_foldl_best (fun i j => extent i < extent j)
      (fun a b h => by omega) (fun a b c h h' => by omega) (f := Loops.smaller g.unplaced)
      (fun _ _ => rfl) cs c
    obtain ⟨hpl, hpw⟩ := (hmem p).1 hpm
    refine .inr ⟨p, hp, hpl, hpw, fun q hq hqw => ?_⟩
    rcases hg.within_header_or hqw hpw with h' | h'
    · exact h'
    · by_cases hqp : q = p
      · rw [hqp] at h' ⊢
        exact h'
      -- a loop inside the parent would have been the smaller candidate
      refine absurd ?_ (hbest q ((hmem q).2 ⟨hq, hqw⟩))
      rw [hext q (lt_of_within hqw), hext p (lt_of_within hpw)]
      exact hg.size_natural_lt (lt_of_within hqw) h' (Ne.symm hqp)

theorem parent_eq_some (h : l < g.loops.length) (hp : g.parent (some l) = some p) :
    p ≠ l ∧ g.Within p (g.header l) ∧
      ∀ q, q ≠ l → g.Within q (g.header l) → g.Within q (g.header p) := by
  rcases hg.parent_cases h with ⟨hn, -⟩ | ⟨p', hp', hspec⟩
  · rw [hn] at hp
    cases hp
  · rw [hp'] at hp
    cases hp
    exact hspec

theorem parent_eq_none (h : l < g.loops.length) (hp : g.parent (some l) = none)
    (hq : g.Within q (g.header l)) : q = l := by
  rcases hg.parent_cases h with ⟨-, hn⟩ | ⟨p, hp', -⟩
  · exact hn q hq
  · rw [hp'] at hp
    cases hp

/-! ### Depths -/

/-- The loops around the header of a loop: itself, then those around its parent. -/
theorem around_header_perm (h : l < g.loops.length) (hp : g.parent (some l) = some p) :
    (g.around (g.header l)).Perm (l :: g.around (g.header p)) := by
  obtain ⟨hne, hw, hmin⟩ := hg.parent_eq_some h hp
  have hnot : l ∉ g.around (g.header p) := by
    rw [mem_around]
    exact fun hl => hne (hg.within_antisymm hw hl)
  refine (List.perm_ext_iff_of_nodup (nodup_around ..)
    (List.nodup_cons.2 ⟨hnot, nodup_around ..⟩)).2 fun q => ?_
  rw [List.mem_cons, mem_around, mem_around]
  constructor
  · intro hq
    by_cases hql : q = l
    · exact .inl hql
    · exact .inr (hmin q hql hq)
  · rintro (he | hq)
    · rw [he]
      exact hg.within_header h
    · exact hg.within_trans hq hw

theorem around_header_of_parent_none (h : l < g.loops.length) (hp : g.parent (some l) = none) :
    g.around (g.header l) = [l] := by
  refine List.perm_singleton.1 ((List.perm_ext_iff_of_nodup (nodup_around ..)
    (List.nodup_singleton l)).2 fun q => ?_)
  rw [mem_around, List.mem_singleton]
  refine ⟨hg.parent_eq_none h hp, fun e => ?_⟩
  rw [e]
  exact hg.within_header h

theorem depthOf_eq (fuel : Nat) (h : l < g.loops.length)
    (hf : (g.around (g.header l)).length ≤ fuel + 1) :
    Loops.depthOf (g.unplaced.zipIdx.map fun (l, i) => Loops.parentOf g.unplaced i l) fuel l =
      (g.around (g.header l)).length := by
  induction fuel generalizing l with
  | zero =>
    have : l ∈ g.around (g.header l) := mem_around.2 (hg.within_header h)
    have := List.length_pos_of_mem this
    rw [Loops.depthOf]
    omega
  | succ fuel ih =>
    rw [Loops.depthOf, hg.parents_getElem?]
    cases hp : g.parent (some l) with
    | none => rw [hg.around_header_of_parent_none h hp, List.length_singleton]
    | some p =>
      have hperm := (hg.around_header_perm h hp).length_eq
      rw [List.length_cons] at hperm
      have hlt := lt_of_within (hg.parent_eq_some h hp).2.1
      rw [hperm, ← ih hlt (by omega)]

/-- **The depth of a loop is the number of loops around its header.** -/
theorem loopDepth_eq (h : l < g.loops.length) :
    g.loopDepth (some l) = (g.around (g.header l)).length := by
  have hle : (g.around (g.header l)).length ≤ g.loops.length := by
    have := List.length_filter_le (fun i => decide (g.Within i (g.header l)))
      (List.range g.loops.length)
    rwa [List.length_range] at this
  rw [← hg.depthOf_eq g.unplaced.length h (by rw [hg.unplaced_length]; omega)]
  have hU := hg.unplaced_getElem? h
  unfold loopDepth
  rw [Option.bind_some, loop?, hg.loops_eq_nest, Loops.nest]
  simp [List.getElem?_map, List.getElem?_zipIdx, hU]

theorem loopDepth_lt (h : g.Within l (g.header l')) (hl' : l' < g.loops.length) (hne : l ≠ l') :
    g.loopDepth (some l) < g.loopDepth (some l') := by
  rw [hg.loopDepth_eq (lt_of_within h), hg.loopDepth_eq hl']
  have hnot : l' ∉ g.around (g.header l) := fun hm =>
    hne (hg.within_antisymm h (mem_around.1 hm))
  have hsub : l' :: g.around (g.header l) ⊆ g.around (g.header l') := by
    intro q hq
    rw [mem_around]
    rcases List.mem_cons.1 hq with rfl | hq
    · exact hg.within_header hl'
    · exact hg.within_trans (mem_around.1 hq) h
  have := (List.nodup_cons.2 ⟨hnot, nodup_around ..⟩).length_le_of_subset hsub
  rwa [List.length_cons] at this

/-! ### The innermost loop -/

theorem innermost_cases (b : BlockId) :
    (Loops.innermost g.loops b = none ∧ ∀ q, ¬ g.Within q b) ∨
      ∃ l, Loops.innermost g.loops b = some l ∧ g.Within l b ∧
        ∀ q, g.Within q b → g.Within q (g.header l) := by
  -- the walk over all loops is one over the loops around the block, with their depths
  let deeper (best : Option (LoopId × Nat)) (c : LoopId × Nat) : Option (LoopId × Nat) :=
    match best with
    | none => some c
    | some d => if d.2 < c.2 then some c else some d
  let cs := (g.loops.zipIdx.filter fun c => c.1.contains b).map fun c => (c.2, c.1.depth)
  have hfold : Loops.innermost g.loops b = (cs.foldl deeper none).map Prod.fst := by
    simp only [cs, List.foldl_map, List.foldl_filter, Loops.innermost]
    congr 2
    funext best c
    cases best <;> rfl
  have hmem : ∀ c, c ∈ cs ↔ g.Within c.1 b ∧ c.2 = g.loopDepth (some c.1) := by
    rintro ⟨i, d⟩
    simp only [cs, List.mem_map, List.mem_filter, Prod.mk.injEq, within_iff, loopDepth,
      Option.bind_some]
    constructor
    · rintro ⟨⟨L, j⟩, ⟨hL, hb⟩, rfl, rfl⟩
      have hL := List.mem_zipIdx_iff_getElem?.1 hL
      exact ⟨⟨L, hL, by simpa [Loop.contains] using hb⟩, by simp [loop?, hL]⟩
    · rintro ⟨⟨L, hL, hb⟩, rfl⟩
      refine ⟨⟨L, i⟩, ⟨List.mem_zipIdx_iff_getElem?.2 hL, by simpa [Loop.contains] using hb⟩,
        rfl, ?_⟩
      simp [hL]
  rw [hfold]
  generalize cs = cs at hmem
  cases cs with
  | nil => exact .inl ⟨rfl, fun q hq => by simpa using (hmem (q, g.loopDepth (some q))).2 ⟨hq, rfl⟩⟩
  | cons c cs =>
    obtain ⟨⟨l, d⟩, hl, hlm, hbest⟩ := exists_foldl_best
      (fun i j : LoopId × Nat => j.2 < i.2)
      (fun a b h => by omega) (fun a b c h h' => by omega) (f := deeper) (fun _ _ => rfl) cs c
    obtain ⟨hlw, hd⟩ := (hmem _).1 hlm
    dsimp only at hlw hd
    subst hd
    refine .inr ⟨l, by rw [List.foldl_cons]; exact congrArg (Option.map Prod.fst) hl, hlw,
      fun q hq => ?_⟩
    rcases hg.within_header_or hq hlw with h' | h'
    · exact h'
    · by_cases hqp : l = q
      · rwa [← hqp] at h' ⊢
      -- a loop inside the innermost one would be deeper
      exact absurd (hg.loopDepth_lt h' (lt_of_within hq) hqp)
        (hbest (q, g.loopDepth (some q)) ((hmem _).2 ⟨hq, rfl⟩))

theorem loopOf_eq (b : BlockId) : g.loopOf b = Loops.innermost g.loops b := by
  refine Option.ext fun l => ?_
  rw [loopOf, hg.innermost_eq, OrderedMap.get?_ofList_filterMap g.nodup_ids, and_iff_right_iff_imp]
  intro hl
  rcases hg.innermost_cases b with ⟨hn, -⟩ | ⟨l', hl', hw, -⟩
  · rw [hn] at hl
    cases hl
  · exact hg.mem_ids_of_within hw

/-- **The innermost loop around a block lies inside every loop around it.** -/
theorem loopOf_eq_some : g.loopOf b = some l ↔
    g.Within l b ∧ ∀ q, g.Within q b → g.Within q (g.header l) := by
  rw [hg.loopOf_eq]
  rcases hg.innermost_cases b with ⟨hn, hq⟩ | ⟨l', hl', hw, hmin⟩
  · rw [hn]
    simp [hq]
  · rw [hl', Option.some_inj]
    constructor
    · rintro rfl
      exact ⟨hw, hmin⟩
    · rintro ⟨hw', hmin'⟩
      exact hg.within_antisymm (hmin' _ hw) (hmin _ hw')

theorem loopOf_eq_none : g.loopOf b = none ↔ ∀ q, ¬ g.Within q b := by
  rw [hg.loopOf_eq]
  rcases hg.innermost_cases b with ⟨hn, hq⟩ | ⟨l', hl', hw, -⟩
  · simp [hn, hq]
  · rw [hl']
    simpa using ⟨l', hw⟩

theorem loopOf_header (h : l < g.loops.length) : g.loopOf (g.header l) = some l :=
  hg.loopOf_eq_some.2 ⟨hg.within_header h, fun _ hq => hq⟩

/-- The loops around a block are those around the header of its innermost loop. -/
theorem within_iff_header (h : g.loopOf b = some l) : g.Within q b ↔ g.Within q (g.header l) := by
  obtain ⟨hw, hmin⟩ := hg.loopOf_eq_some.1 h
  exact ⟨hmin q, fun hq => hg.within_trans hq hw⟩

theorem around_eq (h : g.loopOf b = some l) : g.around b = g.around (g.header l) := by
  unfold around
  congr 1
  funext q
  exact decide_eq_decide.2 (hg.within_iff_header h)

theorem around_eq_nil (h : g.loopOf b = none) : g.around b = [] :=
  List.eq_nil_iff_forall_not_mem.2 fun q hq => hg.loopOf_eq_none.1 h q (mem_around.1 hq)

theorem around_entry : g.around g.entry = [] :=
  hg.around_eq_nil (hg.loopOf_eq_none.2 hg.not_within_entry)

theorem around_end (h : g.succs b = []) : g.around b = [] :=
  hg.around_eq_nil (hg.loopOf_eq_none.2 (hg.not_within_end h))

/-- **The depth of a block is the number of loops around it.** -/
theorem depth_eq (b : BlockId) : g.depth b = (g.around b).length := by
  unfold depth
  cases h : g.loopOf b with
  | none => simp [hg.around_eq_nil h, loopDepth]
  | some l => rw [hg.loopDepth_eq (lt_of_within (hg.loopOf_eq_some.1 h).1), hg.around_eq h]

theorem depth_eq_zero_iff (b : BlockId) : g.depth b = 0 ↔ ∀ l, ¬ g.Within l b := by
  rw [hg.depth_eq, List.length_eq_zero_iff, List.eq_nil_iff_forall_not_mem]
  simp only [mem_around]

/-! ### The loops around a block, listed -/

theorem withAncestors_perm {fuel : Nat} (h : l < g.loops.length)
    (hf : (g.around (g.header l)).length ≤ fuel) :
    (g.withAncestors fuel (some l)).Perm (g.around (g.header l)) ∧
      (g.withAncestors fuel (some l)).Pairwise fun inner outer =>
        g.Within outer (g.header inner) := by
  induction fuel generalizing l with
  | zero =>
    have := List.length_pos_of_mem (mem_around.2 (hg.within_header h))
    omega
  | succ fuel ih =>
    rw [withAncestors]
    cases hp : g.parent (some l) with
    | none =>
      rw [hg.around_header_of_parent_none h hp]
      cases fuel <;> simp [withAncestors]
    | some p =>
      have hperm := hg.around_header_perm h hp
      have hlen := hperm.length_eq
      rw [List.length_cons] at hlen
      have hw := (hg.parent_eq_some h hp).2.1
      obtain ⟨hperm', hpair⟩ := ih (lt_of_within hw) (by omega)
      refine ⟨(hperm'.cons l).trans hperm.symm, List.pairwise_cons.2 ⟨fun q hq => ?_, hpair⟩⟩
      exact hg.within_trans (mem_around.1 (hperm'.mem_iff.1 hq)) hw

theorem loopsAround_spec (b : BlockId) :
    (g.loopsAround b).Perm (g.around b) ∧
      (g.loopsAround b).Pairwise fun inner outer => g.Within outer (g.header inner) := by
  unfold loopsAround
  cases h : g.loopOf b with
  | none => simp [hg.around_eq_nil h, withAncestors]
  | some l =>
    have hl := lt_of_within (hg.loopOf_eq_some.1 h).1
    rw [hg.around_eq h]
    refine hg.withAncestors_perm hl (Nat.le_succ_of_le ?_)
    exact (List.length_filter_le ..).trans (Nat.le_of_eq List.length_range)

theorem mem_loopsAround : l ∈ g.loopsAround b ↔ g.Within l b := by
  rw [(hg.loopsAround_spec b).1.mem_iff, mem_around]

/-- **`loopsAround` lists inner loops first.** -/
theorem pairwise_loopsAround (b : BlockId) :
    (g.loopsAround b).Pairwise fun inner outer => g.Within outer (g.header inner) :=
  (hg.loopsAround_spec b).2

theorem mem_loopsLeft : l ∈ g.loopsLeft u v ↔ g.Within l u ∧ ¬ g.Within l v := by
  rw [loopsLeft, List.mem_filter, hg.mem_loopsAround, contains_eq, Bool.not_eq_true',
    decide_eq_false_iff_not]

end Graph.Checked
end ConstantTime
