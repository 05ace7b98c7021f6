/-
# Numbers within a budget

A settled analysis adds and multiplies words.  A *budget* says how much may have
been spent in a region up to each place, and how much a whole pass through it may
take: a block adds its own accesses, and a loop directly inside adds a whole pass
for each visit of its header (`AccessBudget`).  If no budget exceeds the range of a
word, nothing wraps around: every range is in order and within the budget
(`Checked.withinBudget`).

The induction is the one over regions.  What arrives at a node of a region has been
spent before its place (`Checked.arriving_upTo`), and what is seen in a loop is at
most a whole pass (`Checked.within_upTo`).
-/

import ConstantTime.Proofs.Access.Settled
import ConstantTime.Proofs.Word

namespace ConstantTime

/-! ### Ranges in order -/

namespace AccessRange

/-- The range is in order, and nothing in it is negative or above `t`. -/
structure UpTo (t : Int) (r : AccessRange) : Prop where
  nonneg : 0 ≤ r.min.toInt
  ordered : r.min.toInt ≤ r.max.toInt
  le : r.max.toInt ≤ t

variable {r : AccessRange} {n : Int64} {s t : Int}

theorem UpTo.mono (h : r.UpTo s) (hst : s ≤ t) : r.UpTo t := ⟨h.nonneg, h.ordered, h.le.trans hst⟩

theorem joinClosed_upTo (t : Int) : JoinClosed (UpTo t) := by
  rintro r s ⟨hr₀, hr₁, hr₂⟩ ⟨hs₀, hs₁, hs₂⟩
  unfold join
  constructor <;> dsimp only <;> split_ifs <;> simp only [Int64.lt_iff_toInt_lt] at * <;> omega

theorem upTo_exactly (hn : 0 ≤ n.toInt) (ht : n.toInt ≤ t) : (exactly n).UpTo t :=
  ⟨hn, le_rfl, ht⟩

theorem UpTo.addExact (h : r.UpTo s) (hn : 0 ≤ n.toInt) (ht : s + n.toInt < 2 ^ 63) :
    r.AddExact n := by
  obtain ⟨h₀, h₁, h₂⟩ := h
  exact ⟨toInt_add_of_lt h₀ hn (by omega), toInt_add_of_lt (by omega) hn (by omega)⟩

theorem UpTo.add_exactly (h : r.UpTo s) (hn : 0 ≤ n.toInt) (ht : s + n.toInt ≤ t)
    (hlt : t < 2 ^ 63) : (r.add (exactly n)).UpTo t := by
  obtain ⟨hmin, hmax⟩ := h.addExact hn (by omega)
  obtain ⟨h₀, h₁, h₂⟩ := h
  constructor <;> simp only [add, exactly] <;> omega

end AccessRange

/-! ### Leaving a loop -/

namespace AccessAnalysis

theorem leaveExact_of_le {before round last n : Int64} {s w : Int} (hn : 1 ≤ n.toInt)
    (hb : 0 ≤ before.toInt ∧ before.toInt ≤ s) (hr : 0 ≤ round.toInt ∧ round.toInt ≤ w)
    (hl : 0 ≤ last.toInt ∧ last.toInt ≤ w) (ht : s + n.toInt * w < 2 ^ 63) :
    LeaveExact before round last n := by
  have hpred := toInt_sub_one hn
  have hrounds : (n.toInt - 1) * round.toInt ≤ (n.toInt - 1) * w :=
    Int.mul_le_mul_of_nonneg_left hr.2 (by omega)
  have hnonneg : 0 ≤ (n.toInt - 1) * round.toInt := Int.mul_nonneg (by omega) hr.1
  have hsplit : n.toInt * w = (n.toInt - 1) * w + w := by rw [Int.sub_mul, one_mul]; omega
  have hmul : ((n - 1) * round).toInt = (n.toInt - 1) * round.toInt := by
    rw [toInt_mul_of_lt (by omega) hr.1 (by rw [hpred]; omega), hpred]
  have hadd : (before + (n - 1) * round).toInt = before.toInt + (n.toInt - 1) * round.toInt := by
    rw [toInt_add_of_lt hb.1 (by omega) (by omega), hmul]
  unfold LeaveExact leave
  rw [toInt_add_of_lt (by omega) hl.1 (by omega), hadd]

/-- **Leaving a loop** after `n` passes takes what has been spent before and a whole
pass for each visit. -/
theorem leaving_upTo {before round last : AccessRange} {n : Bound} {s t w : Int}
    (hbefore : before.UpTo s) (hround : round.UpTo w) (hlast : last.UpTo w)
    (hn : 1 ≤ n.min.toInt) (hle : n.min.toInt ≤ n.max.toInt) (ht : s + n.max.toInt * w ≤ t)
    (hlt : t < 2 ^ 63) :
    LeavingExact before round last n ∧ (leaving before round last n).UpTo t := by
  obtain ⟨hb₀, hb₁, hb₂⟩ := hbefore
  obtain ⟨hr₀, hr₁, hr₂⟩ := hround
  obtain ⟨hl₀, hl₁, hl₂⟩ := hlast
  have hvisits : n.min.toInt * w ≤ n.max.toInt * w := Int.mul_le_mul_of_nonneg_right hle (by omega)
  have hmin : LeaveExact before.min round.min last.min n.min :=
    leaveExact_of_le (w := w) hn ⟨hb₀, by omega⟩ ⟨hr₀, by omega⟩ ⟨hl₀, by omega⟩ (by omega)
  have hmax : LeaveExact before.max round.max last.max n.max :=
    leaveExact_of_le (w := w) (by omega) ⟨by omega, hb₂⟩ ⟨by omega, hr₂⟩ ⟨by omega, hl₂⟩ (by omega)
  refine ⟨⟨hmin, hmax⟩, ?_⟩
  have h₀ : 0 ≤ (n.min.toInt - 1) * round.min.toInt := Int.mul_nonneg (by omega) hr₀
  have h₁ : (n.min.toInt - 1) * round.min.toInt ≤ (n.max.toInt - 1) * round.max.toInt :=
    Int.mul_le_mul (by omega) hr₁ hr₀ (by omega)
  have h₂ : (n.max.toInt - 1) * round.max.toInt ≤ (n.max.toInt - 1) * w :=
    Int.mul_le_mul_of_nonneg_left hr₂ (by omega)
  have hsplit : n.max.toInt * w = (n.max.toInt - 1) * w + w := by rw [Int.sub_mul, one_mul]; omega
  unfold LeaveExact at hmin hmax
  constructor <;> simp only [leaving] <;> omega

/-- All ranges of an analysis: those of the blocks, and for each loop what happens
before it, in a round and when it is left. -/
def ranges (a : AccessAnalysis) : List AccessRange :=
  a.blocks.values ++ a.loops.values.flatMap fun R => R.before :: R.round :: R.exits.values

end AccessAnalysis

/-! ### Budgets -/

/-- How many accesses may have been made in one pass through each region, before
each place, and how many in a whole pass. -/
structure AccessBudget (g : Graph) (count : AccessCounts) (bound : LoopBounds) where
  spent : Option LoopId → Nat → Int
  whole : Option LoopId → Int
  nonneg : ∀ o k, 0 ≤ spent o k
  mono : ∀ (o : Option LoopId) {j k : Nat}, j ≤ k → spent o j ≤ spent o k
  le_whole : ∀ o k, spent o k ≤ whole o
  /-- A block on the level of a region adds its own accesses. -/
  block : ∀ b ∈ g.ids, spent (g.loopOf b) (g.place b) + (count b).toInt ≤
    spent (g.loopOf b) (g.place b + 1)
  /-- A loop directly inside adds a whole pass for each visit of its header. -/
  loop : ∀ m < g.loops.length, spent (g.parent (some m)) (g.place (g.header m)) +
    (AccessAnalysis.visits (bound (g.header m))).max.toInt * whole (some m) ≤
      spent (g.parent (some m)) (g.place (g.header m) + 1)

namespace AccessAnalysis

variable {g : Graph} {count : AccessCounts} {bound : LoopBounds}

/-- The range of a block is in order and within the budget, and no sum for it has
wrapped around. -/
structure BlockWithin (β : AccessBudget g count bound) (a : AccessAnalysis) (b : BlockId) :
    Prop where
  range : ∃ r, a.blocks.get? b = some r ∧ r.UpTo (β.spent (g.loopOf b) (g.place b + 1))
  exact : b ≠ g.entry → g.isHeader b = false →
    ∀ r ∈ a.arrivingFrom g b (g.preds b), r.AddExact (count b)

/-- The ranges of a loop are in order and within the budget, and no sum or product
for them has wrapped around. -/
structure LoopWithin (β : AccessBudget g count bound) (a : AccessAnalysis) (m : LoopId)
    (R : LoopAccesses) : Prop where
  accesses : a.loops.get? (g.header m) = some R
  before : R.before.UpTo (β.spent (g.parent (some m)) (g.place (g.header m)))
  round : R.round.UpTo (β.whole (some m))
  exits : ∀ b r, R.exits.get? b = some r →
    r.UpTo (β.spent (g.parent (some m)) (g.place (g.header m) + 1))
  left : ∀ b, g.Within m b → (∃ s ∈ g.succs b, ¬ g.Within m s) → ∃ r, R.exits.get? b = some r
  exact : ∀ b, g.Within m b → (∃ s ∈ g.succs b, ¬ g.Within m s) → ∀ last ∈ a.within g m b,
    LeavingExact R.before R.round last (visits (bound (g.header m)))

end AccessAnalysis

namespace Graph.Checked

open AccessAnalysis

variable {g : Graph} (hg : g.Checked) {count : AccessCounts} {bound : LoopBounds}
  {a : AccessAnalysis} {β : AccessBudget g count bound} {o : Option LoopId} {c m : LoopId}
  {b n p x : BlockId}
include hg

/-! ### What arrives -/

/-- **What arrives at a node** over a forward edge has been spent before its place. -/
theorem arriving_upTo (hp : g.Inside o p) (hn : g.Inside o n)
    (hleave : ∀ c, g.IsChild o c → g.Within c p → ¬ g.Within c n) (hs : n ∈ g.succs p)
    (hlt : g.place p < g.place n) (hblock : a.BlockWithin β p)
    (hloop : ∀ c, g.Within c p → ¬ g.Within c n → ∃ R, a.LoopWithin β c R) :
    ∃ r, a.arriving g p n = some r ∧ r.UpTo (β.spent o (g.place n)) := by
  rcases hg.level_or_child hp with hlevel | ⟨c, hc, hcp⟩
  · obtain ⟨r, hr, hup⟩ := hblock.range
    rw [hlevel] at hup
    exact ⟨r, by rw [hg.arriving_of_level hlevel hn, hr], hup.mono (β.mono o hlt)⟩
  · have hcn := hleave c hc hcp
    obtain ⟨R, hR⟩ := hloop c hcp hcn
    obtain ⟨r, hr⟩ := hR.left p hcp ⟨n, hs, hcn⟩
    have hup := hR.exits p r hr
    rw [hc.2] at hup
    refine ⟨r, by rw [hg.arriving_of_child hc hcp hcn hn, hR.accesses]; exact hr,
      hup.mono (β.mono o ?_)⟩
    have := hg.place_header_le hcp
    omega

/-- **What is seen in a loop** is at most a whole pass. -/
theorem within_upTo (hx : g.Within m x) (hs : ∃ s ∈ g.succs x, s = g.header m ∨ ¬ g.Within m s)
    (hblock : a.BlockWithin β x) (hloop : ∀ c, g.IsChild (some m) c → ∃ R, a.LoopWithin β c R) :
    ∃ r, a.within g m x = some r ∧ r.UpTo (β.whole (some m)) := by
  rcases hg.level_or_child (o := some m) hx with hlevel | ⟨c, hc, hcx⟩
  · obtain ⟨r, hr, hup⟩ := hblock.range
    rw [hlevel] at hup
    exact ⟨r, by rw [within_of_level hlevel, hr], hup.mono (β.le_whole _ _)⟩
  · obtain ⟨R, hR⟩ := hloop c hc
    obtain ⟨s, hs, hout⟩ := hs
    have hcs : ¬ g.Within c s := by
      rcases hout with rfl | hout
      · exact hg.start_not_in_child (o := some m) ⟨lt_of_within hx, rfl⟩ hc
      · exact fun hcs => hout (hg.inside_of_child hc hcs)
    obtain ⟨r, hr⟩ := hR.left x hcx ⟨s, hs, hcs⟩
    obtain ⟨t, ht, hup⟩ := AccessRange.joinAll_closed (AccessRange.joinClosed_upTo _)
      (List.ne_nil_of_mem (OrderedMap.mem_values_of_get? hr)) fun r hr => by
        obtain ⟨y, hy⟩ := OrderedMap.mem_values_iff.1 hr
        exact hR.exits y r hy
    rw [hc.2] at hup
    refine ⟨t, ?_, hup.mono (β.le_whole _ _)⟩
    rw [hg.within_of_child hc hcx, hR.accesses]
    exact ht

/-! ### One block, one loop -/

section

variable (hset : a.Settled g count bound) (hcount : ∀ b ∈ g.ids, 0 ≤ (count b).toInt)
  (hword : ∀ o, β.whole o < 2 ^ 63)
include hset hword

include hcount in
theorem blockWithin (hb : b ∈ g.ids) (harrive : g.isHeader b = false → ∀ p, b ∈ g.succs p →
    a.BlockWithin β p ∧ ∀ m, g.Within m p → ¬ g.Within m b → ∃ R, a.LoopWithin β m R) :
    a.BlockWithin β b := by
  have hin := hg.inside_of_level (b := b) rfl
  have hspent := β.block b hb
  have hlt : β.spent (g.loopOf b) (g.place b + 1) < 2 ^ 63 := (β.le_whole ..).trans_lt (hword _)
  rcases hg.block_of_arriving hset
    (AccessRange.joinClosed_upTo (β.spent (g.loopOf b) (g.place b))) hb fun _ hh p hp => by
      have hs := hg.wellFormed.mem_preds_iff.1 hp
      obtain ⟨hblock, hloop⟩ := harrive hh p hs
      refine hg.arriving_upTo ?_ hin (fun c hc _ => hg.not_within_of_level hc rfl) hs
        (hg.place_lt_of_plain hh hs) hblock hloop
      cases ho : g.loopOf b with
      | none => rfl
      | some l =>
        rw [ho] at hin
        exact hg.within_of_succ hin (hg.ne_header_of_plain hh (lt_of_within hin)) hs
    with ⟨hstart, hr⟩ | ⟨-, r, hr, hup, hsum⟩
  · have := β.nonneg (g.loopOf b) (g.place b)
    refine ⟨⟨_, hr, AccessRange.upTo_exactly (hcount b hb) (by omega)⟩, fun hne hh => ?_⟩
    rcases hstart with he | he
    · exact absurd he hne
    · rw [hh] at he
      cases he
  · refine ⟨⟨_, hsum, hup.add_exactly (hcount b hb) hspent hlt⟩, fun _ _ r' hr' => ?_⟩
    cases hr.symm.trans hr'
    exact hup.addExact (hcount b hb) (by omega)

theorem loopWithin (hm : m < g.loops.length)
    (hordered : (bound (g.header m)).min ≤ (bound (g.header m)).max)
    (harrive : ∀ p, g.header m ∈ g.succs p → ¬ g.Within m p →
      a.BlockWithin β p ∧ ∀ c, g.Within c p → ¬ g.Within c (g.header m) → ∃ R, a.LoopWithin β c R)
    (hblocks : ∀ x, g.Within m x → a.BlockWithin β x)
    (hloops : ∀ c < g.loops.length, g.Within m (g.header c) → c ≠ m → ∃ R, a.LoopWithin β c R) :
    ∃ R, a.LoopWithin β m R := by
  obtain ⟨L, hL⟩ := exists_loop hm
  have hchild : g.IsChild (g.parent (some m)) m := ⟨hm, rfl⟩
  have hin := hg.inside_of_child hchild (hg.within_header hm)
  obtain ⟨R, hR⟩ := hg.loop_of_within hset
    (AccessRange.joinClosed_upTo (β.spent (g.parent (some m)) (g.place (g.header m))))
    (AccessRange.joinClosed_upTo (β.whole (some m))) hL
    (fun p hs hout => by
      obtain ⟨hblock, hloop⟩ := harrive p hs hout
      refine hg.arriving_upTo ?_ hin (fun c hc hcp hch => ?_) hs ?_ hblock hloop
      · cases ho : g.parent (some m) with
        | none => rfl
        | some l =>
          obtain ⟨hne, hw, -⟩ := hg.parent_eq_some hm ho
          exact hg.within_of_succ hw (fun he => hne (hg.header_inj (lt_of_within hw) hm he.symm)) hs
      · exact hout (hg.child_unique hc hchild hch (hg.within_header hm) ▸ hcp)
      · by_contra hge
        exact hout (hg.within_of_retreats hm ⟨hs, by omega⟩))
    (fun x hx hs => hg.within_upTo hx hs (hblocks x hx) fun c hc => by
      obtain ⟨hne, hw, -⟩ := hg.parent_eq_some hc.1 hc.2
      exact hloops c hc.1 hw (Ne.symm hne))
  have hspent := β.loop m hm
  have hlt : β.spent (g.parent (some m)) (g.place (g.header m) + 1) < 2 ^ 63 :=
    (β.le_whole ..).trans_lt (hword _)
  have hvisits : 1 ≤ (visits (bound (g.header m))).min.toInt := visits_min _ ▸ le_max_right ..
  have hle : (visits (bound (g.header m))).min.toInt ≤ (visits (bound (g.header m))).max.toInt := by
    have := Int64.le_iff_toInt_le.1 hordered
    rw [visits_min, visits_max]
    omega
  have hleaving : ∀ last : AccessRange, last.UpTo (β.whole (some m)) →
      LeavingExact R.before R.round last (visits (bound (g.header m))) ∧
        (leaving R.before R.round last (visits (bound (g.header m)))).UpTo
          (β.spent (g.parent (some m)) (g.place (g.header m) + 1)) := fun last hlast =>
    leaving_upTo hR.before_spec hR.round_spec hlast hvisits hle hspent hlt
  rw [header_eq hL] at hleaving
  refine ⟨R, header_eq hL ▸ hR.accesses, hR.before_spec, hR.round_spec, ?_, ?_, ?_⟩
  · intro b r hr
    obtain ⟨last, -, hlast, hr'⟩ := hR.exit b (hR.exits_only b r hr)
    cases hr.symm.trans hr'
    exact header_eq hL ▸ (hleaving last hlast).2
  · intro b hb hout
    obtain ⟨last, -, -, hr⟩ := hR.exit b ((hg.mem_exiting hL).2 ⟨hb, hout⟩)
    exact ⟨_, hr⟩
  · intro b hb hout last hlast
    obtain ⟨last', hlast', hup, -⟩ := hR.exit b ((hg.mem_exiting hL).2 ⟨hb, hout⟩)
    cases hlast'.symm.trans hlast
    exact header_eq hL ▸ (hleaving last hup).1

/-! ### The whole analysis -/

include hcount in
/-- **Everything is within the budget.** -/
theorem withinBudget (hordered : ∀ m < g.loops.length,
      (bound (g.header m)).min ≤ (bound (g.header m)).max) :
    (∀ b ∈ g.ids, a.BlockWithin β b) ∧ ∀ m < g.loops.length, ∃ R, a.LoopWithin β m R := by
  obtain ⟨hblocks, hloops⟩ := hg.region_induction (B := a.BlockWithin β)
    (L := fun m => ∃ R, a.LoopWithin β m R)
    (fun b hb harrive => hg.blockWithin hset hcount hword hb harrive)
    (fun m hm harrive hblocks hloops =>
      hg.loopWithin hset hword hm (hordered m hm) harrive hblocks hloops) none
  exact ⟨fun b hb => hblocks b hb nofun, fun m hm => hloops m ⟨hm, nofun⟩⟩

include hcount in
theorem noWrap (hordered : ∀ m < g.loops.length,
      (bound (g.header m)).min ≤ (bound (g.header m)).max) : a.NoWrap g count bound := by
  obtain ⟨hblocks, hloops⟩ := hg.withinBudget hset hcount hword hordered
  refine ⟨fun b hb => (hblocks b hb).exact, fun m hm R hR => ?_⟩
  obtain ⟨R', hR'⟩ := hloops m hm
  cases hR'.accesses.symm.trans hR
  exact hR'.exact

end

/-- **No range exceeds the budget.** -/
theorem ranges_upTo {limit : Int64} {t : Int}
    (ha : AccessAnalysis.ofGraph g count bound limit = .ok a)
    (hcount : ∀ b ∈ g.ids, 0 ≤ (count b).toInt)
    (hordered : ∀ m < g.loops.length, (bound (g.header m)).min ≤ (bound (g.header m)).max)
    (ht : ∀ o, β.whole o ≤ t) (hword : t < 2 ^ 63) : ∀ r ∈ a.ranges, r.UpTo t := by
  obtain ⟨hkeys, hheaders⟩ := hg.keyed_ofGraph ha
  obtain ⟨hblocks, hloops⟩ := hg.withinBudget (hg.settled_ofGraph ha) hcount
    (fun o => (ht o).trans_lt hword) hordered
  have hspent : ∀ o k, β.spent o k ≤ t := fun o k => (β.le_whole o k).trans (ht o)
  intro r hr
  rcases List.mem_append.1 hr with hr | hr
  · obtain ⟨b, hb⟩ := OrderedMap.mem_values_iff.1 hr
    obtain ⟨r', hr', hup⟩ := (hblocks b (hkeys b r hb)).range
    cases hb.symm.trans hr'
    exact hup.mono (hspent ..)
  · obtain ⟨R, hR, hr⟩ := List.mem_flatMap.1 hr
    obtain ⟨b, hb⟩ := OrderedMap.mem_values_iff.1 hR
    obtain ⟨m, hm, rfl⟩ := hheaders b R hb
    obtain ⟨R', hR'⟩ := hloops m hm
    cases hb.symm.trans hR'.accesses
    rcases List.mem_cons.1 hr with rfl | hr
    · exact hR'.before.mono (hspent ..)
    rcases List.mem_cons.1 hr with rfl | hr
    · exact hR'.round.mono (ht _)
    · obtain ⟨b, hb⟩ := OrderedMap.mem_values_iff.1 hr
      exact (hR'.exits b r hb).mono (hspent ..)

end Graph.Checked

/-- The range of a whole execution is that of a block, or begins at zero. -/
theorem AccessAnalysis.total_upTo {g : Graph} {a : AccessAnalysis} {t : Int} {rootLike : Bool}
    {r : AccessRange} (ha : ∀ r ∈ a.ranges, r.UpTo t) (h : a.total g rootLike = .ok r) :
    r.UpTo t := by
  unfold total at h
  split at h
  · cases h
  · split at h
    · cases h
    · next s hs =>
      obtain ⟨h₀, h₁, h₂⟩ := ha s (List.mem_append_left _ (OrderedMap.mem_values_of_get? hs))
      cases h
      split
      · exact ⟨h₀, h₁, h₂⟩
      · exact ⟨le_rfl, h₀.trans h₁, h₂⟩

end ConstantTime
