/-
# Constant-loop dominators are visited a fixed number of times

"Single-Path Constant-Time Transformation Engine", §4.2 and the glossary.

A block that is listed as a constant-loop dominator of a block outside all loops has a
formula that bounds its visits on every path to that block, whatever the bounds on the
visits of the headers (`exists_visits`).  Let every stay in a constant loop visit its
header as often as a given number says, at least twice, and let all other loops be
gone round at will: the least and the greatest number of visits are then the same, and
not zero (`constantLoopDominators_fixed`).

Loops are analysed from the inside out.  When a loop is, all loops inside it have
been, and if its analysis succeeds so have theirs; what they contribute counts the
visits in them (`Informed.countsStays`, by induction on the nesting), so the tallies
of the loop count the visits on its passes (`faithful_of_analyse`).
-/

import ConstantTime.Proofs.Dominance.Counting
import ConstantTime.Proofs.Dominance.InsideOut

namespace ConstantTime

namespace Graph

/-- If the stretch of a path between `xs` and `ys` is a stay in a constant loop, it
visits the header as often as `N` says. -/
def StayRounds (g : Graph) (constant : ConstantBounds) (N : BlockId → Nat) (l : LoopId)
    (xs stay ys : List BlockId) : Prop :=
  constant (g.header l) = true → stay ≠ [] → (∀ b ∈ stay, g.Within l b) →
    (∀ b ∈ xs.getLast?, ¬ g.Within l b) → (∀ b ∈ ys.head?, ¬ g.Within l b) →
    stay.count (g.header l) = N (g.header l)

/-- Every stay of a path in a constant loop visits the header as often as `N` says. -/
def MakesRounds (g : Graph) (constant : ConstantBounds) (N : BlockId → Nat)
    (p : List BlockId) : Prop :=
  ∀ l xs stay ys, p = xs ++ stay ++ ys → g.StayRounds constant N l xs stay ys

instance (g : Graph) (constant : ConstantBounds) (N : BlockId → Nat) (l : LoopId)
    (xs stay ys : List BlockId) : Decidable (g.StayRounds constant N l xs stay ys) :=
  inferInstanceAs (Decidable (_ → _))

theorem makesRounds_iff (g : Graph) (constant : ConstantBounds) (N : BlockId → Nat)
    (p : List BlockId) :
    g.MakesRounds constant N p ↔ ∀ l < g.loops.length, ∀ i < p.length + 1, ∀ n < p.length + 1,
      g.StayRounds constant N l (p.take i) ((p.drop i).take n) ((p.drop i).drop n) := by
  constructor
  · intro h l _
    exact Shape.IsPath.forall_split_iff.1 (h l)
  · rintro h l xs stay ys rfl hconst hne hin
    obtain ⟨b, hb⟩ := List.exists_mem_of_ne_nil _ hne
    exact Shape.IsPath.forall_split_iff.2 (h l (lt_of_within (hin b hb))) xs stay ys rfl hconst
      hne hin

instance (g : Graph) (constant : ConstantBounds) (N : BlockId → Nat) (p : List BlockId) :
    Decidable (g.MakesRounds constant N p) :=
  decidable_of_iff' _ (makesRounds_iff g constant N p)

theorem MakesRounds.regular {g : Graph} {constant : ConstantBounds} {N : BlockId → Nat}
    {p : List BlockId} (h : g.MakesRounds constant N p) : g.Regular constant N N p := by
  rintro l hconst x stay y ⟨xs, ys, rfl⟩ hx hne hin hy
  suffices hcount : stay.count (g.header l) = N (g.header l) by omega
  refine h l (xs ++ [x]) stay (y :: ys) (by simp) hconst hne hin ?_ ?_
  · simpa using hx
  · simpa using hy

end Graph

namespace ConstantLoop

/-- The loop and all loops inside it have been analysed, and rightly. -/
def Informed (g : Graph) (constant : ConstantBounds) (lo hi : BlockId → Nat) (known : Regions)
    (l : LoopId) : Prop :=
  ∀ m < g.loops.length, g.Within l (g.header m) →
    ∃ r, known.get? (g.header m) = some (.ok r) ∧
      Faithful g constant lo hi (some m) (g.header m) r

/-- What is known when the loops of a list have been analysed. -/
structure Progress (g : Graph) (constant : ConstantBounds) (lo hi : BlockId → Nat)
    (done : List LoopId) (known : Regions) : Prop where
  keys : ∀ b r, known.get? b = some r → ∃ l ∈ done, l < g.loops.length ∧ b = g.header l
  entries : ∀ l ∈ done, (∃ e, known.get? (g.header l) = some (.error e)) ∨
    Informed g constant lo hi known l

variable {g : Graph} {constant : ConstantBounds} {lo hi : BlockId → Nat} {known : Regions}
  {o : Option LoopId} {c l : LoopId} {h : BlockId} {done : List LoopId}

section Analysis

variable (hg : g.Checked) (hlocal : KnownLocal g known)
include hg hlocal

/-- **What a loop contributes is right**, if the loops inside it have been analysed. -/
theorem Informed.countsStays {fuel : Nat} (hinf : Informed g constant lo hi known l)
    (hl : l < g.loops.length) (hconst : constant (g.header l) = true)
    (hfuel : g.loops.length < fuel + g.loopDepth (some l)) :
    CountsStays g constant lo hi (exitTally g constant known fuel) l := by
  induction fuel generalizing l with
  | zero =>
    have := hg.loopDepth_le hl
    omega
  | succ fuel ih =>
    obtain ⟨r, hr, hfaithful⟩ := hinf l hl (hg.within_header hl)
    refine hfaithful.countsStays hg hr hlocal hconst
      fun c hc hcconst => ih (fun m hm hcm => hinf m hm ?_) hc.1 hcconst ?_
    · exact hg.within_trans (hg.parent_eq_some hc.1 hc.2).2.1 hcm
    · have := hg.loopDepth_child hc
      omega

/-- **An analysis that succeeds is right**, if those of the loops directly inside are
where they succeeded; and they did. -/
theorem faithful_of_analyse (hh : g.IsStart o h) {limit : Int64} {r : Region}
    (hr : analyse g constant limit known h = .ok r)
    (hchild : ∀ c, g.IsChild o c → (∃ e, known.get? (g.header c) = some (.error e)) ∨
      Informed g constant lo hi known c) :
    Faithful g constant lo hi o h r ∧ (∀ c, g.IsChild o c → Informed g constant lo hi known c) ∧
      ∀ b, g.loopOf b = none → r.blocks.get? b = r.nodes.get? b := by
  obtain ⟨hdrained, hreach, hblocks⟩ := analyse_eq_ok hg hh (exitsLocal_exitTally hg hlocal _ _) hr
  have hinf : ∀ c, g.IsChild o c → Informed g constant lo hi known c :=
    children_analysed hg hlocal hh hr hchild
  refine ⟨⟨hdrained.own, hdrained.inside, fun n => hdrained.complete hg hh,
    fun q n hpass hn hfresh hreg => ?_, hreach⟩, hinf, hblocks⟩
  refine hdrained.arrived hg hh (fun c hc hconst => ?_) hpass hn hfresh hreg
  exact (hinf c hc).countsStays hg hlocal hc.1 hconst (by omega)

end Analysis

section Regions

variable (hg : g.Checked)
include hg

/-- **All loops.** -/
theorem progress_regions (limit : Int64) :
    Progress g constant lo hi g.innerFirst (regions g constant limit) := by
  refine ⟨fun b r hr => ?_, fun l hl => ?_⟩
  · obtain ⟨l, hl, he⟩ := exists_header_of_get?_regions hg hr
    exact ⟨l, hg.mem_innerFirst hl, hl, he⟩
  refine analysed_regions hg (Q := fun m r => Faithful g constant lo hi (some m) (g.header m) r)
    (fun l r hfaithful => hfaithful.inside) (fun known l hl hlocal r hr hchild => ?_) l
    (hg.lt_of_mem_innerFirst hl)
  have hh : g.IsStart (some l) (g.header l) := ⟨hl, rfl⟩
  exact (faithful_of_analyse hg hlocal hh hr fun c hc => .inr (hchild c hc)).1

end Regions
end ConstantLoop

open ConstantLoop

/-- **A constant-loop dominator has a formula** that bounds its visits on every path. -/
theorem exists_visits {g : Graph} {constant : ConstantBounds} {limit : Int64} {endOnly : Bool}
    {m : DominatorTable} {b d : BlockId} (hg : g.Checked)
    (hm : g.constantLoopDominators constant limit endOnly g.entry = .ok m)
    (hb : ∀ l, ¬ g.Within l b) (hd : d ∈ m.of b) :
    ∃ v : Visits, ∀ lo hi p, g.IsPath g.entry p b → g.Regular constant lo hi p →
      v.Bounds lo hi (p.count d) ∧ (g.AtLeastTwice constant lo → d ∈ p) := by
  have hh : g.IsStart none g.entry := rfl
  have hlevel := hg.loopOf_eq_none.2 hb
  obtain ⟨r, hr, hnodes⟩ := constantLoopDominators_eq_ok hg hm
  obtain ⟨t, v, ht, hv⟩ := hnodes b hlevel d hd
  have hprogress : ∀ lo hi, Progress g constant lo hi g.innerFirst (regions g constant limit) :=
    fun _ _ => progress_regions hg limit
  have hfaithful := fun lo hi => (faithful_of_analyse hg (knownLocal_regions hg constant limit) hh hr
    fun c hc => (hprogress lo hi).entries c (hg.mem_innerFirst hc.1)).1
  refine ⟨v, fun lo hi p hp hreg => ?_⟩
  -- the path comes to `b` last, and for the first time
  obtain ⟨q, n, stay, rfl, hst⟩ := (hg.isPass hp).exists_stretch hg hh
  rcases hst.level_or_child with ⟨-, rfl⟩ | ⟨c, -, -, hin⟩
  · obtain rfl : n = b := by simpa using hst.path.last
    exact ((hfaithful lo hi).arrived q n hst.arrival hst.node hst.fresh hreg).counts hg
      hst.node hst.fresh ht hv |>.2
  · exact absurd (hin b hst.path.last_mem) (hb c)

/-- **A constant-loop dominator is visited a fixed number of times.**  Let `d` be
listed, in an accepted graph, as a constant-loop dominator of a block `b` that is
in no loop, and let a number of at least two be given for every constant header.
There is a positive number such that every path from the entry to `b` whose stays in
constant loops visit the headers as often as given visits `d` that many times. -/
theorem constantLoopDominators_fixed {g : Graph} {constant : ConstantBounds} {limit : Int64}
    {N : BlockId → Nat} {m : DominatorTable} {b d : BlockId} (hg : g.Accepted)
    (hN : ∀ h, g.isHeader h = true → constant h = true → 2 ≤ N h)
    (hm : g.constantLoopDominators constant limit false g.entry = .ok m)
    (hb : ∀ l, ¬ g.Within l b) (hd : d ∈ m.of b) :
    ∃ k, 1 ≤ k ∧ ∀ p, g.IsPath g.entry p b → g.MakesRounds constant N p → p.count d = k := by
  obtain ⟨v, hv⟩ := exists_visits hg.checked hm hb hd
  refine ⟨max 1 (v.times N), le_max_left _ _, fun p hp hrounds => ?_⟩
  obtain ⟨⟨hleast, hmost⟩, hmem⟩ := hv N N p hp hrounds.regular
  have hpos : 0 < p.count d := List.count_pos_iff.2 (hmem hN)
  omega

/-- A loop inside a loop; the outer one is left at its header, before the inner one. -/
def Graph.nested : Graph :=
  Graph.drawn 6 [(0, 1), (1, 2), (2, 3), (3, 2), (2, 4), (4, 1), (1, 5)] (by decide +kernel)

/-- With three visits of both headers, the body of the inner loop of `nested` is
visited four times on every path to the end. -/
theorem constantLoopDominators_fixed_nested :
    (∃ m, Graph.nested.constantLoopDominators (fun _ => true) 50 false 0 = .ok m ∧ 3 ∈ m.of 5) ∧
      ∀ p, Graph.nested.IsPath 0 p 5 →
        Graph.nested.MakesRounds (fun _ => true) (fun _ => 3) p → p.count 3 = 4 := by
  have hg : Graph.nested.Accepted := Graph.accepted_drawn _
  have hb : ∀ l, ¬ Graph.nested.Within l 5 := hg.checked.not_within_end (by decide +kernel)
  have hm : Graph.nested.constantLoopDominators (fun _ => true) 50 false Graph.nested.entry =
    .ok _ := Outcome.eq_ok_get (by decide +kernel)
  refine ⟨⟨_, hm, by decide +kernel⟩, fun p hp hrounds => ?_⟩
  obtain ⟨k, -, hk⟩ := constantLoopDominators_fixed (N := fun _ => 3) (b := 5) (d := 3) hg
    (fun _ _ _ => by decide) hm hb (by decide +kernel)
  have hfour := hk [0, 1, 2, 3, 2, 3, 2, 4, 1, 2, 3, 2, 3, 2, 4, 1, 5]
    ⟨by decide +kernel, by decide +kernel, by decide +kernel⟩ (by decide +kernel)
  rw [hk p hp hrounds, ← hfour]
  decide

end ConstantTime
