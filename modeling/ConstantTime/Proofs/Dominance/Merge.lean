/-
# What a merge keeps

Where paths merge, the analysis goes through the predecessors in turn.  Over a
predecessor on the level of the region comes what is known there; over one in an
inner loop, what is known at its header and, if its bound is constant, what all
ways out of the loop share (`Offers`).  Each predecessor takes away what does not
come over it, but what comes with a constant loop it adds back in, whatever the
predecessors before it have taken away (`Adds`).  So what is left after all of
them comes over each one *or* was added by a later one (`mem_foldl_arrive`).

The latches of a loop are merged in the same way (`mem_foldl_addLatch`).
-/

import ConstantTime.Proofs.Dominance.Region

namespace ConstantTime
namespace Bounded

/-- A block is known when control comes over a predecessor. -/
def Offers (g : Graph) (constant : ConstantBounds) (inner doms : DominatorTable)
    (o : Option LoopId) (p d : BlockId) : Prop :=
  (g.loopOf p = o ∧ d ∈ doms.of p) ∨
    ∃ c, g.IsChild o c ∧ g.Within c p ∧
      (d ∈ doms.of (g.header c) ∨ (constant (g.header c) = true ∧ d ∈ inner.of (g.header c)))

/-- A block is shared by all ways out of the constant loop of a predecessor. -/
def Adds (g : Graph) (constant : ConstantBounds) (inner : DominatorTable)
    (o : Option LoopId) (p d : BlockId) : Prop :=
  ∃ c, g.IsChild o c ∧ g.Within c p ∧ constant (g.header c) = true ∧ d ∈ inner.of (g.header c)

variable {g : Graph} {constant : ConstantBounds} {inner doms : DominatorTable}
  {o : Option LoopId} {b d h p q : BlockId} {c l m : LoopId} {shared : BlockSet}

theorem Adds.offers (ha : Adds g constant inner o p d) : Offers g constant inner doms o p d := by
  obtain ⟨c, hc, hp, hconst, hd⟩ := ha
  exact .inr ⟨c, hc, hp, .inr ⟨hconst, hd⟩⟩

/-! ### The loop that is left -/

theorem leftLoop_none (fuel : Nat) : leftLoop g b fuel none = none := by
  cases fuel <;> simp [leftLoop]

/-- The loop that stands for a predecessor holds it. -/
theorem within_of_leftLoop (hg : g.Checked) {fuel : Nat} (hl : l < g.loops.length)
    (h : leftLoop g b fuel (some l) = some m) : g.Within m (g.header l) := by
  induction fuel generalizing l with
  | zero =>
    cases h
    exact hg.within_header hl
  | succ fuel ih =>
    rw [leftLoop] at h
    split at h
    · cases hp : g.parent (some l) with
      | none => simp [hp, leftLoop_none] at h
      | some k =>
        rw [hp] at h
        obtain ⟨-, hk, -⟩ := hg.parent_eq_some hl hp
        exact hg.within_trans (ih (Graph.lt_of_within hk) h) hk
    · cases h
      exact hg.within_header hl

/-- On the way up to the loop that is left there is no other place to stop. -/
theorem leftLoop_eq (hg : g.Checked) (hb : ¬ g.Within c b)
    (hstop : g.parent (some c) = g.loopOf b ∨ g.loopDepth (some c) = g.depth b)
    (hdepth : g.depth b ≤ g.loopDepth (some c)) {fuel : Nat} (hl : l < g.loops.length)
    (hc : g.Within c (g.header l)) (hfuel : g.loopDepth (some l) < g.loopDepth (some c) + fuel) :
    leftLoop g b fuel (some l) = some c := by
  induction fuel generalizing l with
  | zero =>
    have := hg.loopDepth_le_of_within hl hc
    omega
  | succ fuel ih =>
    rw [leftLoop]
    by_cases hlc : c = l
    · subst hlc
      rw [if_neg]
      rcases hstop with hs | hs <;> simp [hs]
    · have hlt := hg.loopDepth_lt hc hl hlc
      have hpar : g.parent (some l) ≠ g.loopOf b := by
        intro he
        rcases hg.parent_cases hl with ⟨hp, huniq⟩ | ⟨k, hp, -, -, hup⟩
        · exact hlc (huniq c hc)
        · have hk := hg.within_iff_header (he.symm.trans hp) (q := c)
          exact hb (hk.2 (hup c hlc hc))
      rw [if_pos (by simp [hpar]; omega)]
      rcases hg.parent_cases hl with ⟨-, huniq⟩ | ⟨k, hp, -, hk, hup⟩
      · exact absurd (huniq c hc) hlc
      · rw [hp]
        have := hg.loopDepth_parent hl hp
        exact ih (Graph.lt_of_within hk) (hup c hlc hc) (by omega)

/-- The loop that the analysis takes for a predecessor, if any. -/
def leftOf (g : Graph) (start b p : BlockId) : Option LoopId :=
  if g.depth b < g.depth p || (g.depth p = g.depth b && g.loopOf p ≠ g.loopOf b && b ≠ start) then
    leftLoop g b (g.loops.length + 1) (g.loopOf p)
  else none

theorem within_of_leftOf (hg : g.Checked) (hleft : leftOf g h b p = some c) : g.Within c p := by
  rw [leftOf] at hleft
  split at hleft
  · cases hl : g.loopOf p with
    | none => simp [hl, leftLoop_none] at hleft
    | some l =>
      rw [hl] at hleft
      have hlp := (hg.loopOf_eq_some.1 hl).1
      exact hg.within_trans (within_of_leftLoop hg (Graph.lt_of_within hlp) hleft) hlp
  · cases hleft

/-- The block that stands for a predecessor: the header of the loop that is left. -/
def standIn (g : Graph) (start b p : BlockId) : BlockId :=
  if (leftOf g start b p).isSome then g.headerOf (leftOf g start b p) else p

/-- What comes with a constant loop that is left. -/
def bonus (g : Graph) (constant : ConstantBounds) (inner : DominatorTable) (start b p : BlockId) :
    BlockSet :=
  if (leftOf g start b p).isSome && constant (standIn g start b p) then
    inner.of (standIn g start b p)
  else ∅

/-- **What is left after a predecessor**: what is shared and known there, with what
comes with a constant loop; the header of another loop is dropped. -/
theorem mem_arrive :
    d ∈ arrive g constant inner h doms b shared p ↔
      (d ∈ shared ∨ d ∈ bonus g constant inner h b p) ∧
        (d ∈ bonus g constant inner h b p ∨ d ∈ doms.of (standIn g h b p)) ∧
        ((comesFromLoop g (standIn g h b p) b && g.isHeader (standIn g h b p) &&
          !constant (standIn g h b p)) = true → d ≠ standIn g h b p) := by
  have harrive : arrive g constant inner h doms b shared p =
      let next := (shared.union (bonus g constant inner h b p)).inter
        ((bonus g constant inner h b p).union (doms.of (standIn g h b p)))
      if comesFromLoop g (standIn g h b p) b && g.isHeader (standIn g h b p) &&
        !constant (standIn g h b p) then next.erase (standIn g h b p) else next := rfl
  rw [harrive]
  dsimp only
  split
  · next hdrop => simp [hdrop, and_assoc]
  · next hkeep => simp [hkeep]

theorem mem_arrive_none (hleft : leftOf g h b p = none) :
    d ∈ arrive g constant inner h doms b shared p ↔ d ∈ shared ∧ d ∈ doms.of p ∧
      ((comesFromLoop g p b && g.isHeader p && !constant p) = true → d ≠ p) := by
  have hstand : standIn g h b p = p := by simp [standIn, hleft]
  have hbonus : bonus g constant inner h b p = ∅ := by simp [bonus, hleft]
  rw [mem_arrive, hstand, hbonus]
  simp

theorem mem_arrive_some (hleft : leftOf g h b p = some c) :
    d ∈ arrive g constant inner h doms b shared p ↔
      (d ∈ shared ∨ (constant (g.header c) = true ∧ d ∈ inner.of (g.header c))) ∧
        ((constant (g.header c) = true ∧ d ∈ inner.of (g.header c)) ∨ d ∈ doms.of (g.header c)) ∧
        ((comesFromLoop g (g.header c) b && g.isHeader (g.header c) &&
          !constant (g.header c)) = true → d ≠ g.header c) := by
  have hstand : standIn g h b p = g.header c := by
    rw [standIn, hleft]
    rfl
  have hbonus : d ∈ bonus g constant inner h b p ↔
      constant (g.header c) = true ∧ d ∈ inner.of (g.header c) := by
    rw [bonus, hstand, hleft, Option.isSome_some, Bool.true_and]
    split
    · next hconst => simp [hconst]
    · next hconst => simp [hconst]
  rw [mem_arrive, hstand, hbonus]

theorem mem_arrive_of_none (hleft : leftOf g h b p = none)
    (hd : d ∈ arrive g constant inner h doms b shared p) : d ∈ shared ∧ d ∈ doms.of p :=
  ((mem_arrive_none hleft).1 hd).imp_right And.left

theorem mem_arrive_of_some (hleft : leftOf g h b p = some c)
    (hd : d ∈ arrive g constant inner h doms b shared p) :
    (d ∈ shared ∨ (constant (g.header c) = true ∧ d ∈ inner.of (g.header c))) ∧
      (d ∈ doms.of (g.header c) ∨ (constant (g.header c) = true ∧ d ∈ inner.of (g.header c))) :=
  ((mem_arrive_some hleft).1 hd).imp_right fun h => h.1.symm

/-! ### Merging at a node -/

theorem mem_outerPreds (hg : g.Checked) :
    p ∈ outerPreds g b ↔ b ∈ g.succs p ∧ ¬ g.Retreats p b := by
  rw [outerPreds, List.mem_filter, hg.wellFormed.mem_preds_iff]
  refine and_congr_right fun hs => ?_
  rw [Bool.not_eq_true', Bool.and_eq_false_iff, ← Bool.not_eq_true, hg.isHeader_iff]
  constructor
  · rintro hout hr
    obtain ⟨l, L, hL, rfl⟩ := hg.exists_loop_of_retreats hr
    rw [← Graph.header_eq hL] at hout hr
    have hl : l < g.loops.length := (List.getElem?_eq_some_iff.1 hL).1
    rcases hout with hout | hout
    · exact hout ⟨l, hl, rfl⟩
    · rw [hg.loopOf_header hl, Graph.contains_eq, decide_eq_false_iff_not] at hout
      exact hout (hg.within_of_retreats hl hr)
  · intro hr
    by_contra hboth
    rw [not_or, not_not, Bool.not_eq_false] at hboth
    obtain ⟨⟨l, hl, rfl⟩, hin⟩ := hboth
    rw [hg.loopOf_header hl] at hin
    exact hr (hg.retreats_of_within hin hs)

section Node

variable (hg : g.Checked)
include hg

/-- Nothing is left over a predecessor on the level. -/
theorem leftOf_level (hp : g.loopOf p = o) (hb : g.IsNode o b) : leftOf g h b p = none := by
  rw [leftOf, if_neg]
  have hdp := Graph.Checked.depth_of_level hp
  rcases hb with hb | ⟨c, hc, rfl⟩
  · have hdb := Graph.Checked.depth_of_level hb
    simp [hdp, hdb, hp, hb]
  · have hdb := hg.depth_header hc.1
    have := hg.loopDepth_child hc
    simp only [hdp, hdb, Bool.or_eq_true, Bool.and_eq_true, decide_eq_true_eq]
    omega

/-- Over a predecessor in an inner loop, that loop is left. -/
theorem leftOf_child (hc : g.IsChild o c) (hp : g.Within c p) (hb : g.IsNode o b)
    (hout : ¬ g.Within c b) (hne : b ≠ h) : leftOf g h b p = some c := by
  have hdc := hg.loopDepth_child hc
  have hcp := hg.loopDepth_le_depth hp
  cases hl : g.loopOf p with
  | none => exact absurd hp (hg.loopOf_eq_none.1 hl c)
  | some l =>
    obtain ⟨hlp, hmin⟩ := hg.loopOf_eq_some.1 hl
    have hlt := Graph.lt_of_within hlp
    have hdepth := hg.depth_node hb
    have hfuel := hg.loopDepth_le hlt
    have hpos := hg.loopDepth_pos hc.1
    have hleft : leftLoop g b (g.loops.length + 1) (g.loopOf p) = some c := by
      rw [hl]
      refine leftLoop_eq hg hout ?_ (by omega) hlt (hmin c hp) (by omega)
      rcases hb with hb | ⟨c', hc', rfl⟩
      · exact .inl (hc.2.trans hb.symm)
      · exact .inr (by rw [hg.depth_header hc'.1, hdc, hg.loopDepth_child hc'])
    rw [leftOf, hleft, if_pos]
    simp only [Bool.or_eq_true, Bool.and_eq_true, decide_eq_true_eq]
    by_cases hlt' : g.depth b < g.depth p
    · exact .inl hlt'
    · refine .inr ⟨⟨by omega, ?_⟩, hne⟩
      intro he
      exact hout ((hg.within_iff_header (he.symm.trans hl)).2 (hmin c hp))

variable (hh : g.IsStart o h)
include hh

omit hh in
/-- A predecessor in an inner loop leaves it, unless the edge goes back. -/
theorem not_within_of_outer (hb : g.IsNode o b) (hp : p ∈ outerPreds g b) (hc : g.IsChild o c)
    (hcp : g.Within c p) : ¬ g.Within c b := by
  obtain ⟨hs, hfwd⟩ := (mem_outerPreds hg).1 hp
  intro hcb
  rcases hb with hb | ⟨c', hc', rfl⟩
  · exact hg.not_within_of_level hc hb hcb
  · obtain rfl := hg.child_unique hc hc' hcb (hg.within_header hc'.1)
    exact hfwd (hg.retreats_of_within hcp hs)

/-- **One predecessor of a node.**  What is left comes over it, and was there
before or is added by it. -/
theorem arrive_cases (hb : g.IsNode o b) (hin : g.Inside o b) (hne : b ≠ h)
    (hp : p ∈ outerPreds g b) (hd : d ∈ arrive g constant inner h doms b shared p) :
    Offers g constant inner doms o p d ∧ (d ∈ shared ∨ Adds g constant inner o p d) := by
  obtain ⟨hs, -⟩ := (mem_outerPreds hg).1 hp
  rcases hg.level_or_child (hg.inside_of_succ hh hin hne hs) with hlevel | ⟨c, hc, hcp⟩
  · obtain ⟨h₁, h₂⟩ := mem_arrive_of_none (leftOf_level hg hlevel hb) hd
    exact ⟨.inl ⟨hlevel, h₂⟩, .inl h₁⟩
  · have hout := not_within_of_outer hg hb hp hc hcp
    obtain ⟨h₁, h₂⟩ := mem_arrive_of_some (leftOf_child hg hc hcp hb hout hne) hd
    refine ⟨.inr ⟨c, hc, hcp, h₂⟩, ?_⟩
    rcases h₁ with h₁ | ⟨hconst, h₁⟩
    · exact .inl h₁
    · exact .inr ⟨c, hc, hcp, hconst, h₁⟩

omit hh in
/-- **What a predecessor leaves**: what is shared and comes over it, but for the
header of a loop without a constant bound. -/
theorem mem_arrive_of_offers (hb : g.IsNode o b) (hne : b ≠ h) (hp : p ∈ outerPreds g b)
    (hd : d ∈ shared) (hoffers : Offers g constant inner doms o p d)
    (hvariable : ∀ c, g.IsChild o c → constant (g.header c) = false → d ≠ g.header c) :
    d ∈ arrive g constant inner h doms b shared p := by
  rcases hoffers with ⟨hlevel, hoffer⟩ | ⟨c, hc, hcp, hoffer⟩
  · refine (mem_arrive_none (leftOf_level hg hlevel hb)).2 ⟨hd, hoffer, fun hdrop => ?_⟩
    -- control does not come from a loop
    have hdp := Graph.Checked.depth_of_level hlevel
    simp only [comesFromLoop, Bool.and_eq_true, Bool.or_eq_true, decide_eq_true_eq, hdp] at hdrop
    rcases hb with hb | ⟨c, hc, rfl⟩
    · simp [Graph.Checked.depth_of_level hb, hlevel, hb] at hdrop
    · rw [hg.depth_header hc.1, hg.loopDepth_child hc] at hdrop
      omega
  · have hout := not_within_of_outer hg hb hp hc hcp
    refine (mem_arrive_some (leftOf_child hg hc hcp hb hout hne)).2 ⟨.inl hd, hoffer.symm, fun hdrop => ?_⟩
    simp only [Bool.and_eq_true, Bool.not_eq_true'] at hdrop
    exact hvariable c hc hdrop.2

/-- **All predecessors of a node.**  What is left comes over each of them, or was
added by a later one. -/
theorem mem_foldl_arrive (hb : g.IsNode o b) (hin : g.Inside o b) (hne : b ≠ h)
    {before after : List BlockId} (hl : ∀ p ∈ before ++ q :: after, p ∈ outerPreds g b)
    (hd : d ∈ (before ++ q :: after).foldl (arrive g constant inner h doms b) shared) :
    Offers g constant inner doms o q d ∨ ∃ p ∈ after, Adds g constant inner o p d := by
  rw [List.foldl_append, List.foldl_cons] at hd
  generalize before.foldl (arrive g constant inner h doms b) shared = s at hd
  -- Go back over the later predecessors.
  induction after using List.reverseRecOn with
  | nil => exact .inl (arrive_cases hg hh hb hin hne (hl q (by simp)) hd).1
  | append_singleton after p ih =>
    rw [List.foldl_append, List.foldl_cons, List.foldl_nil] at hd
    rcases (arrive_cases hg hh hb hin hne (hl p (by simp)) hd).2 with hd | hd
    · have hl' : ∀ x ∈ before ++ q :: after, x ∈ outerPreds g b := fun x hx =>
        hl x (by simpa using List.mem_append_left [p] hx)
      rcases ih hl' hd with h | ⟨x, hx, h⟩
      · exact .inl h
      · exact .inr ⟨x, by simp [hx], h⟩
    · exact .inr ⟨p, by simp, hd⟩

end Node

/-! ### Merging the latches -/

theorem pairwise_sort (l : List BlockId) : (BlockId.sort l).Pairwise (· ≤ ·) := by
  have htrans : ∀ a b c : BlockId, decide (a ≤ b) = true → decide (b ≤ c) = true →
      decide (a ≤ c) = true := by
    intro a b c
    simp only [decide_eq_true_eq]
    exact Int.le_trans
  have htotal : ∀ a b : BlockId, (decide (a ≤ b) || decide (b ≤ a)) = true := by
    intro a b
    simpa using Int.le_total a b
  refine (List.pairwise_mergeSort htrans htotal l).imp ?_
  exact fun h => of_decide_eq_true h

section Latches

variable (hg : g.Checked) (hl : l < g.loops.length)
include hg hl

/-- A latch on the level of the loop. -/
theorem mem_addLatch_level {acc : Option BlockSet} {y : BlockId} (hy : g.loopOf y = some l) :
    d ∈ (addLatch g constant inner doms (g.header l) acc y).getD ∅ ↔
      d ∈ doms.of y ∧ (acc = none ∨ d ∈ acc.getD ∅) := by
  have hdepth := hg.depth_header hl
  have hdy := Graph.Checked.depth_of_level hy
  have hnested : ¬ g.depth (g.header l) < g.depth y := by omega
  cases acc <;> simp [addLatch, hnested, and_comm]

/-- A latch in an inner loop. -/
theorem mem_addLatch_child {acc : Option BlockSet} {y : BlockId} (hc : g.IsChild (some l) c)
    (hy : g.Within c y) :
    d ∈ (addLatch g constant inner doms (g.header l) acc y).getD ∅ ↔
      ((d ∈ doms.of (g.header c) ∧ (acc = none ∨ d ∈ acc.getD ∅)) ∨
        (constant (g.header c) = true ∧ d ∈ inner.of (g.header c))) ∧
      (constant (g.header c) = false → d ≠ g.header c) := by
  have hdepth := hg.depth_header hl
  have hdc := hg.loopDepth_child hc
  have hcd := hg.loopDepth_le_depth hy
  have hnested : g.depth (g.header l) < g.depth y := by omega
  have hancestor : g.ancestorAt (g.loopOf y) (g.depth (g.header l) + 1) = some c := by
    cases hi : g.loopOf y with
    | none => exact absurd hy (hg.loopOf_eq_none.1 hi c)
    | some i =>
      obtain ⟨hiy, hmin⟩ := hg.loopOf_eq_some.1 hi
      rw [hg.ancestorAt_eq_some (Graph.lt_of_within hiy), hdc, hdepth]
      exact ⟨hmin c hy, by push_cast; rfl⟩
  have hheader : g.headerOf (some c) = g.header c := rfl
  cases hconst : constant (g.header c) <;> cases acc <;>
    simp [addLatch, hnested, hancestor, hheader, hconst] <;> tauto

/-- **One latch**, in the same way. -/
theorem addLatch_cases {acc : Option BlockSet} {y : BlockId} (hy : g.Within l y)
    (hd : d ∈ (addLatch g constant inner doms (g.header l) acc y).getD ∅) :
    Offers g constant inner doms (some l) y d ∧
      (acc = none ∨ d ∈ acc.getD ∅ ∨ Adds g constant inner (some l) y d) := by
  rcases hg.level_or_child (o := some l) hy with hlevel | ⟨c, hc, hcy⟩
  · obtain ⟨h₁, h₂⟩ := (mem_addLatch_level hg hl hlevel).1 hd
    exact ⟨.inl ⟨hlevel, h₁⟩, h₂.imp_right .inl⟩
  · rcases ((mem_addLatch_child hg hl hc hcy).1 hd).1 with ⟨h₁, h₂⟩ | ⟨hconst, hin⟩
    · exact ⟨.inr ⟨c, hc, hcy, .inl h₁⟩, h₂.imp_right .inl⟩
    · exact ⟨.inr ⟨c, hc, hcy, .inr ⟨hconst, hin⟩⟩, .inr (.inr ⟨c, hc, hcy, hconst, hin⟩)⟩

/-- What a latch leaves. -/
theorem mem_addLatch_of_offers {acc : Option BlockSet} {y : BlockId}
    (hoffers : Offers g constant inner doms (some l) y d) (hacc : acc = none ∨ d ∈ acc.getD ∅)
    (hvariable : ∀ c, g.IsChild (some l) c → constant (g.header c) = false → d ≠ g.header c) :
    d ∈ (addLatch g constant inner doms (g.header l) acc y).getD ∅ := by
  rcases hoffers with ⟨hlevel, hoffer⟩ | ⟨c, hc, hcy, hoffer⟩
  · exact (mem_addLatch_level hg hl hlevel).2 ⟨hoffer, hacc⟩
  · refine (mem_addLatch_child hg hl hc hcy).2 ⟨?_, hvariable c hc⟩
    exact hoffer.imp_left fun hoffer => ⟨hoffer, hacc⟩

/-- **All latches.** -/
theorem mem_foldl_addLatch {before after : List BlockId} {y : BlockId} {acc : Option BlockSet}
    (hin : ∀ x ∈ y :: after, g.Within l x)
    (hd : d ∈ ((before ++ y :: after).foldl (addLatch g constant inner doms (g.header l)) acc).getD
      ∅) :
    Offers g constant inner doms (some l) y d ∨
      ∃ x ∈ after, Adds g constant inner (some l) x d := by
  rw [List.foldl_append, List.foldl_cons] at hd
  generalize before.foldl (addLatch g constant inner doms (g.header l)) acc = s at hd
  induction after using List.reverseRecOn with
  | nil => exact .inl (addLatch_cases hg hl (hin y (by simp)) hd).1
  | append_singleton after x ih =>
    rw [List.foldl_append, List.foldl_cons, List.foldl_nil] at hd
    rcases (addLatch_cases hg hl (hin x (by simp)) hd).2 with hd | hd | hd
    · -- There was a latch before.
      have hsome : ∀ (xs : List BlockId) (acc : Option BlockSet), acc ≠ none →
          xs.foldl (addLatch g constant inner doms (g.header l)) acc ≠ none := by
        intro xs
        induction xs with
        | nil => exact fun _ h => h
        | cons x xs ihx => exact fun acc _ => ihx _ (by simp [addLatch])
      exact absurd hd (hsome after _ (by simp [addLatch]))
    · have hin' : ∀ z ∈ y :: after, g.Within l z := fun z hz => hin z (List.mem_append_left [x] hz)
      rcases ih hin' hd with h | ⟨z, hz, h⟩
      · exact .inl h
      · exact .inr ⟨z, by simp [hz], h⟩
    · exact .inr ⟨x, by simp, hd⟩

/-- The latches of a loop, ascending. -/
theorem latchDominators_eq (constant : ConstantBounds) (inner doms : DominatorTable) :
    ∃ latches : List BlockId, latches.Pairwise (· ≤ ·) ∧
      (∀ x, x ∈ latches ↔ g.Retreats x (g.header l)) ∧
      latchDominators g constant inner doms (g.header l) =
        (latches.foldl (addLatch g constant inner doms (g.header l)) none).getD ∅ := by
  obtain ⟨L, hL⟩ := Graph.exists_loop hl
  refine ⟨L.latches, ?_, fun x => ?_, ?_⟩
  · rw [(hg.loop?_eq_some hL).2.2.1, Loops.latchesOf]
    exact pairwise_sort _
  · rw [hg.mem_latches hL, Graph.header_eq hL]
  · simp only [latchDominators, hg.loopOf_header hl, Option.bind_some, hL]

/-- **What every way round has** comes over each latch, or was added by a later
one. -/
theorem latchDominators_cases {y : BlockId} (hy : g.Retreats y (g.header l))
    (hd : d ∈ latchDominators g constant inner doms (g.header l)) :
    Offers g constant inner doms (some l) y d ∨
      ∃ x, g.Retreats x (g.header l) ∧ y ≤ x ∧ Adds g constant inner (some l) x d := by
  obtain ⟨latches, hsorted, hlatch, he⟩ := latchDominators_eq hg hl constant inner doms
  obtain ⟨before, after, rfl⟩ := List.append_of_mem ((hlatch y).2 hy)
  rw [he] at hd
  have hmem : ∀ x ∈ y :: after, g.Retreats x (g.header l) := fun x hx =>
    (hlatch x).1 (List.mem_append_right _ hx)
  rcases mem_foldl_addLatch hg hl (fun x hx => hg.within_of_retreats hl (hmem x hx)) hd
    with h | ⟨x, hx, h⟩
  · exact .inl h
  · refine .inr ⟨x, hmem x (List.mem_cons_of_mem _ hx), ?_, h⟩
    exact (List.pairwise_cons.1 (List.pairwise_append.1 hsorted).2.1).1 x hx

/-- **What comes over each latch** every way round has. -/
theorem mem_latchDominators
    (hoffers : ∀ y, g.Retreats y (g.header l) → Offers g constant inner doms (some l) y d)
    (hvariable : ∀ c, g.IsChild (some l) c → constant (g.header c) = false → d ≠ g.header c) :
    d ∈ latchDominators g constant inner doms (g.header l) := by
  obtain ⟨latches, -, hlatch, he⟩ := latchDominators_eq hg hl constant inner doms
  have key : ∀ (ys : List BlockId) (acc : Option BlockSet),
      (∀ y ∈ ys, Offers g constant inner doms (some l) y d) → acc = none ∨ d ∈ acc.getD ∅ →
      ys ≠ [] ∨ d ∈ acc.getD ∅ →
        d ∈ (ys.foldl (addLatch g constant inner doms (g.header l)) acc).getD ∅ := by
    intro ys
    induction ys with
    | nil => exact fun acc _ _ hacc => hacc.resolve_left fun h => h rfl
    | cons y ys ih =>
      intro acc hys hacc _
      have hnext := mem_addLatch_of_offers hg hl (hys y List.mem_cons_self) hacc hvariable
      exact ih _ (fun x hx => hys x (List.mem_cons_of_mem _ hx)) (.inr hnext) (.inr hnext)
  -- there is a latch
  obtain ⟨L, hL⟩ := Graph.exists_loop hl
  obtain ⟨u, hu⟩ := hg.retreats_header hL
  rw [← Graph.header_eq hL] at hu
  rw [he]
  exact key latches none (fun y hy => hoffers y ((hlatch y).1 hy)) (.inl rfl)
    (.inl (List.ne_nil_of_mem ((hlatch u).2 hu)))

end Latches

end Bounded
end ConstantTime
