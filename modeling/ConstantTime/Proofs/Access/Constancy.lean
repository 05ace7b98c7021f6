/-
# When all executions perform the same number of accesses

"Single-Path Constant-Time Transformation Engine", §4.4.

The range of a function brackets the accesses of every path to the end whose
stays in loops keep their bounds.  The decision that nothing need be made up for
is taken on a range of width zero, so it is right: then all these paths perform
the same number, and none at all if the function may also be called while it is
disabled (`accesses_bracketed`).

The range can be too wide where the rounds of a loop cannot all be the longest
ones.  Without loops it is not: every edge goes forward, and by induction on the
place of a block some path to it performs exactly the least, and another exactly
the greatest number (`Checked.attains`).
-/

import ConstantTime.Proofs.Access.Balance
import ConstantTime.Proofs.Graph.Dominance

namespace ConstantTime

/-! ### The ends of a range -/

namespace AccessRange

variable {r s : AccessRange}

theorem join_min (r s : AccessRange) : (r.join s).min = r.min ∨ (r.join s).min = s.min := by
  unfold join
  dsimp only
  split
  · exact .inr rfl
  · exact .inl rfl

theorem join_max (r s : AccessRange) : (r.join s).max = r.max ∨ (r.join s).max = s.max := by
  unfold join
  dsimp only
  split
  · exact .inr rfl
  · exact .inl rfl

/-- **The ends of the range around several ranges** are ends of two of them. -/
theorem joinAll_ends {rs : List AccessRange} (h : joinAll rs = some s) :
    (∃ r ∈ rs, r.min = s.min) ∧ ∃ r ∈ rs, r.max = s.max := by
  cases rs with
  | nil => cases h
  | cons a rs =>
    cases h
    induction rs generalizing a with
    | nil => exact ⟨⟨a, by simp, rfl⟩, a, by simp, rfl⟩
    | cons b rs ih =>
      obtain ⟨⟨x, hx, hmin⟩, y, hy, hmax⟩ := ih (a.join b)
      constructor
      · rcases List.mem_cons.1 hx with rfl | hx
        · rcases join_min a b with he | he
          · exact ⟨a, by simp, he.symm.trans hmin⟩
          · exact ⟨b, by simp, he.symm.trans hmin⟩
        · exact ⟨x, by simp [hx], hmin⟩
      · rcases List.mem_cons.1 hy with rfl | hy
        · rcases join_max a b with he | he
          · exact ⟨a, by simp, he.symm.trans hmax⟩
          · exact ⟨b, by simp, he.symm.trans hmax⟩
        · exact ⟨y, by simp [hy], hmax⟩

/-- A range of width zero holds one number. -/
theorem eq_of_width (h : r.width = 0) : r.max = r.min := by
  have := congrArg (· + r.min) h
  simpa [width] using this

end AccessRange

/-! ### Functions without loops -/

/-- Some path from the entry to the block performs exactly so many accesses. -/
def Graph.Attains (g : Graph) (count : AccessCounts) (b : BlockId) (t : Int) : Prop :=
  ∃ p, g.IsPath g.entry p b ∧ count.performed p = t

theorem Graph.Attains.step {g : Graph} {count : AccessCounts} {u v : BlockId} {t : Int}
    (h : g.Attains count u t) (hs : v ∈ g.succs u) : g.Attains count v (t + (count v).toInt) := by
  obtain ⟨p, hp, rfl⟩ := h
  refine ⟨p ++ [v], hp.snoc hs, ?_⟩
  simp [AccessCounts.performed]

namespace Graph.Checked

open AccessAnalysis

variable {g : Graph} (hg : g.Checked) {count : AccessCounts} {bound : LoopBounds}
  {a : AccessAnalysis}
include hg

theorem place_lt_of_no_loops (hloops : g.loops = []) {u v : BlockId} (hs : v ∈ g.succs u) :
    g.place u < g.place v := by
  by_contra hle
  obtain ⟨l, L, hL, -⟩ := hg.exists_loop_of_retreats ⟨hs, Nat.le_of_not_lt hle⟩
  simp [Graph.loop?, hloops] at hL

theorem arriving_of_no_loops (hloops : g.loops = []) (u v : BlockId) :
    a.arriving g u v = a.blocks.get? u := by
  refine hg.arriving_of_level (hg.loopOf_eq_none.2 fun l hl => ?_) rfl
  simpa [hloops] using lt_of_within hl

/-- **Without loops both ends of a range are attained.** -/
theorem attains (hset : a.Settled g count bound) (hwrap : a.NoWrap g count bound)
    (hcount : ∀ b, 0 ≤ count b) (hloops : g.loops = []) {b : BlockId} (hb : b ∈ g.ids)
    {r : AccessRange} (hr : a.blocks.get? b = some r) :
    g.Attains count b r.min.toInt ∧ g.Attains count b r.max.toInt := by
  induction hk : g.place b using Nat.strong_induction_on generalizing b r with
  | _ k ih =>
    by_cases hentry : b = g.entry
    · subst hentry
      have hr' := hset.block _ hb (.exactly (count g.entry)) (by rw [upTo, if_pos (by simp)])
      cases hr.symm.trans hr'
      have : g.Attains count g.entry (count g.entry).toInt :=
        ⟨[g.entry], .single _, by simp [AccessCounts.performed]⟩
      exact ⟨this, this⟩
    · have hplain : g.isHeader b = false := by
        rw [Bool.eq_false_iff]
        intro hh
        obtain ⟨l, hl, -⟩ := hg.isHeader_iff.1 hh
        simp [hloops] at hl
      -- an edge into the block brings a known range, and comes from an earlier block
      obtain ⟨q, hq, -⟩ := hg.exists_pred_before hb hentry
      obtain ⟨s, hs⟩ : ∃ s, a.arrivingFrom g b (g.preds b) = some s := by
        obtain ⟨s, hs, -⟩ := AccessRange.joinAll_filterMap_closed AccessRange.joinClosed_nonneg
          (f := fun p => a.arriving g p b)
          (List.ne_nil_of_mem (hg.wellFormed.mem_preds_iff.2 hq)) fun p hp => by
            rw [hg.arriving_of_no_loops hloops]
            exact hg.known hset hwrap hcount
              (Shape.mem_ids_of_mem_succs (hg.wellFormed.mem_preds_iff.1 hp))
        exact ⟨s, hs⟩
      have hr' := hset.block b hb (s.add (.exactly (count b)))
        (by rw [upTo, if_neg (by simp [hentry, hplain]), hs]; rfl)
      cases hr.symm.trans hr'
      obtain ⟨hmin, hmax⟩ := hwrap.block b hb hentry hplain s hs
      have hpred : ∀ x ∈ (g.preds b).filterMap fun p => a.arriving g p b,
          g.Attains count b (x.min.toInt + (count b).toInt) ∧
            g.Attains count b (x.max.toInt + (count b).toInt) := by
        intro x hx
        obtain ⟨p, hp, hx⟩ := List.mem_filterMap.1 hx
        rw [hg.arriving_of_no_loops hloops] at hx
        have hs := hg.wellFormed.mem_preds_iff.1 hp
        obtain ⟨h₁, h₂⟩ := ih _ (hk ▸ hg.place_lt_of_no_loops hloops hs)
          (Shape.mem_ids_of_mem_succs hs) hx rfl
        exact ⟨h₁.step hs, h₂.step hs⟩
      obtain ⟨⟨x, hx, hxmin⟩, y, hy, hymax⟩ := AccessRange.joinAll_ends hs
      constructor
      · change g.Attains count b (s.min + count b).toInt
        rw [hmin, ← hxmin]
        exact (hpred x hx).1
      · change g.Attains count b (s.max + count b).toInt
        rw [hmax, ← hymax]
        exact (hpred y hy).2

end Graph.Checked

/-! ### The decision -/

open AccessAnalysis

/-- **The range brackets the accesses.**  Let an accepted function have one end and
non-negative counts, and let no number of its analysis have wrapped around.  Then
the range of a whole execution is known, and on every path to the end whose stays
in loops keep their bounds the number of accesses lies in it.

If the decision is that nothing need be made up for, these paths all perform the
same number, and none if the function may be called while it is disabled.

Without loops, both ends of the range are attained on such a path. -/
theorem accesses_bracketed {p : AccessProblem} {config : Config} {a : AccessAnalysis}
    {e : BlockId} (hg : p.graph.Accepted) (hend : p.graph.end? = some e)
    (hcount : ∀ b, 0 ≤ p.count b)
    (hanalysis : AccessAnalysis.ofGraph p.graph p.count p.bound config.maxIterations = .ok a)
    (hwrap : a.NoWrap p.graph p.count p.bound) :
    ∃ range, a.total p.graph true = .ok range ∧
      (∀ path, p.graph.IsPath p.graph.entry path e → p.graph.KeepsBounds p.bound path →
        range.Holds (p.count.performed path)) ∧
      (∀ d, p.decide config = .ok d → d.strategy = .none →
        (p.rootLike = true → ∃ n, ∀ path, p.graph.IsPath p.graph.entry path e →
          p.graph.KeepsBounds p.bound path → p.count.performed path = n) ∧
        (p.rootLike = false → ∀ path, p.graph.IsPath p.graph.entry path e →
          p.graph.KeepsBounds p.bound path → p.count.performed path = 0)) ∧
      (p.graph.loops = [] → ∀ n ∈ [range.min, range.max],
        ∃ path, p.graph.IsPath p.graph.entry path e ∧ p.graph.KeepsBounds p.bound path ∧
          p.count.performed path = n.toInt) := by
  have hc := hg.checked
  obtain ⟨heid, hends⟩ := Shape.end?_eq_some hend
  have hset := hc.settled_ofGraph hanalysis
  obtain ⟨r, hr, -⟩ := hc.known hset hwrap hcount heid
  have htotal : ∀ rootLike, a.total p.graph rootLike =
      .ok (if rootLike then r else { r with min := 0 }) := by
    intro rootLike
    unfold AccessAnalysis.total
    rw [hend]
    dsimp only
    rw [hr]
  have hholds : ∀ path, p.graph.IsPath p.graph.entry path e →
      p.graph.KeepsBounds p.bound path → r.Holds (p.count.performed path) :=
    fun path hpath hkeeps => hc.performed_holds hset hwrap hcount hkeeps hpath hends hr
  refine ⟨r, htotal true, hholds, fun d hd hnone => ⟨fun hroot => ?_, fun hroot => ?_⟩,
    fun hloops n hn => ?_⟩
  · obtain ⟨a', ha', hrange, hwidth⟩ := AccessProblem.decide_eq_none hd hnone
    cases hanalysis.symm.trans ha'
    rw [htotal, hroot] at hrange
    rw [← Except.ok.inj hrange, if_pos rfl] at hwidth
    refine ⟨r.min.toInt, fun path hpath hkeeps => ?_⟩
    obtain ⟨h₁, h₂⟩ := hholds path hpath hkeeps
    rw [AccessRange.eq_of_width hwidth] at h₂
    exact Int.le_antisymm h₂ h₁
  · obtain ⟨a', ha', hrange, hwidth⟩ := AccessProblem.decide_eq_none hd hnone
    cases hanalysis.symm.trans ha'
    rw [htotal, hroot] at hrange
    rw [← Except.ok.inj hrange] at hwidth
    intro path hpath hkeeps
    have hmax := (hholds path hpath hkeeps).2
    have hzero : r.max = 0 := AccessRange.eq_of_width hwidth
    rw [hzero, Int64.toInt_zero] at hmax
    exact Int.le_antisymm hmax (performed_nonneg hcount path)
  · have hattains : p.graph.Attains p.count e n.toInt := by
      obtain ⟨hmin, hmax⟩ := hc.attains hset hwrap hcount hloops heid hr
      simp only [List.mem_cons, List.not_mem_nil, or_false] at hn
      rcases hn with rfl | rfl
      · exact hmin
      · exact hmax
    obtain ⟨path, hpath, hperf⟩ := hattains
    refine ⟨path, hpath, ?_, hperf⟩
    rw [Graph.keepsBounds_iff, hloops]
    intro l hl
    simp at hl

namespace AccessProblem

/-- The loop of `threeVisits`, with a header that is visited twice. -/
def twoVisits : AccessProblem := { threeVisits with bound := fun _ => ⟨2, 2⟩ }

/-- Two ways to the end, with one access and with two. -/
def oneOrTwo : AccessProblem where
  graph := Graph.forked
  count b := if b = 1 then 1 else if b = 2 then 2 else 0
  bound _ := ⟨1, 1⟩
  rootLike := false
  pseudoRoot := false
  endDominators := none

end AccessProblem

/-- The decision for `twoVisits` is that nothing need be made up for, and every path performs
three accesses; and some path of `oneOrTwo` performs two, the most. -/
theorem accesses_bracketed_two_visits :
    (∃ d, AccessProblem.twoVisits.decide { maxIterations := 50 } = .ok d ∧ d.strategy = .none) ∧
    (∀ path, AccessProblem.twoVisits.graph.IsPath 0 path 3 →
      AccessProblem.twoVisits.graph.KeepsBounds AccessProblem.twoVisits.bound path →
      AccessProblem.twoVisits.count.performed path = 3) ∧
    ∃ path, Graph.forked.IsPath 0 path 3 ∧ AccessProblem.oneOrTwo.count.performed path = 2 := by
  obtain ⟨d, hdecide, hnothing⟩ : ∃ d,
      AccessProblem.twoVisits.decide { maxIterations := 50 } = .ok d ∧ d.strategy = .none :=
    ⟨_, Outcome.eq_ok_get (by decide +kernel), by decide +kernel⟩
  refine ⟨⟨d, hdecide, hnothing⟩, ?_, ?_⟩
  · have hg : (Graph.drawn 4 [(0, 1), (1, 2), (2, 1), (1, 3)] (by decide +kernel)).Accepted :=
      Graph.accepted_drawn _
    obtain ⟨_, -, -, hnone, -⟩ := @accesses_bracketed AccessProblem.twoVisits
      { maxIterations := 50 } _ 3 hg (by decide +kernel)
      (fun b => by dsimp only [AccessProblem.twoVisits, AccessProblem.threeVisits]; split <;> decide)
      (Outcome.eq_ok_get (by decide +kernel)) (by decide +kernel)
    obtain ⟨n, hn⟩ := (hnone d hdecide hnothing).1 rfl
    have hthree := hn [0, 1, 2, 1, 3] ⟨by decide +kernel, by decide +kernel, by decide +kernel⟩
      (by decide +kernel)
    intro path hpath hkeeps
    rw [hn path hpath hkeeps, ← hthree]
    decide +kernel
  · have hg : Graph.forked.Accepted := Graph.accepted_drawn _
    obtain ⟨range, hrange, -, -, hattained⟩ := @accesses_bracketed AccessProblem.oneOrTwo
      { maxIterations := 50 } _ 3 hg (by decide +kernel)
      (fun b => by dsimp only [AccessProblem.oneOrTwo]; split <;> [decide; split <;> decide])
      (Outcome.eq_ok_get (by decide +kernel)) (by decide +kernel)
    have htwo : range = ⟨1, 2⟩ := Except.ok.inj (hrange.symm.trans (by decide +kernel))
    obtain ⟨path, hpath, -, hperf⟩ := hattained (by decide +kernel) 2 (by simp [htwo])
    exact ⟨path, hpath, hperf⟩

end ConstantTime
