/-
# Every class has one root

"Single-Path Constant-Time Transformation Engine", §4.3 and §8.

Blocks with the same dependences are on the level of one region, and of any two of
them one post-dominates the other there (`IsAnswer.comparable`): they share a
dependence, post-dominate its target, and the post-dominators of one node form a
chain.  A loop header has the entry of its loop as its only dependence, and shares
it with blocks that post-dominate the header inside the loop.

So the member of a class that comes first in the order is post-dominated by all
others, and no other member is (`roots_unique`).
-/

import ConstantTime.Predicate.Classes
import ConstantTime.Proofs.Postdominance.Dependence
import Mathlib.Order.WellFounded

namespace ConstantTime

open ConstantTime.Graph

variable {g : Graph} {b b' e h h' n : BlockId} {o o' : Option LoopId} {p : Postdominators}
  {d : Dependences}

/-- A node that is not the start of its region is a node of one region only. -/
theorem Graph.Checked.isNode_unique (hg : g.Checked) (hh : g.IsStart o h) (hh' : g.IsStart o' h')
    (hn : g.IsNode o n) (hn' : g.IsNode o' n) (hne : n ≠ h) (hne' : n ≠ h') : o = o' := by
  have hlevel : ∀ {o o' h}, g.IsStart o h → n ≠ h → g.loopOf n = o →
      (∃ c, g.IsChild o' c ∧ n = g.header c) → False := by
    rintro o o' h hh hne rfl ⟨c, hc, rfl⟩
    rw [hg.loopOf_header hc.1] at hh
    exact hne hh.2.symm
  rcases hn with hn | ⟨c, hc, rfl⟩
  · rcases hn' with hn' | hn'
    · exact hn.symm.trans hn'
    · exact (hlevel hh hne hn hn').elim
  · rcases hn' with hn' | ⟨c', hc', he⟩
    · exact (hlevel hh' hne' hn' ⟨c, hc, rfl⟩).elim
    · rw [← hc.2, ← hc'.2, hg.header_inj hc.1 hc'.1 he]

namespace Postdominators.IsAnswer

open Dependences

variable (hg : g.Checked) (hp : IsAnswer g e p) (hd : ofPostdominators p g = .ok d)
include hg hp

/-- What post-dominates another block comes later. -/
theorem place_lt_of_postdominates (hpost : p.postdominates b b' = true) (hne : b ≠ b') :
    g.place b' < g.place b := by
  obtain ⟨o, h, hh, hmem⟩ := hp.postdominates_iff.1 hpost
  exact (hp.settled_region hh).place_lt hg hh hmem hne

include hd

/-- A loop header shares its dependence with blocks of its own loop that post-dominate it. -/
theorem comparable_header (hb : g.isHeader b = true) (hb' : g.isHeader b' = false)
    (heq : d.of b = d.of b') : g.loopOf b = g.loopOf b' ∧ p.postdominates b' b = true := by
  have hdep : (⟨.entry, b⟩ : Dependence) ∈ d.of b' := heq ▸ (hp.mem_of_header hg hd hb).2 rfl
  obtain ⟨h, hh⟩ := exists_isStart hg b'
  obtain ⟨hmem, hentry⟩ := hp.of_dep hg hd hb' hh hdep
  obtain rfl : b = h := hentry.1 rfl
  exact ⟨hg.loopOf_start hh, hp.postdominates_iff.2 ⟨_, _, hh, hmem⟩⟩

/-- **Blocks that depend on the same** are on one level, and one post-dominates the other. -/
theorem comparable (hid : b ∈ g.ids) (heq : d.of b = d.of b') :
    g.loopOf b = g.loopOf b' ∧
      (b = b' ∨ p.postdominates b b' = true ∨ p.postdominates b' b = true) := by
  cases hb : g.isHeader b with
  | true =>
    cases hb' : g.isHeader b' with
    | true =>
      have hdep := (hp.mem_of_header hg hd hb).2 rfl
      rw [heq, hp.mem_of_header hg hd hb'] at hdep
      cases hdep
      exact ⟨rfl, .inl rfl⟩
    | false =>
      obtain ⟨hloop, hpost⟩ := hp.comparable_header hg hd hb hb' heq
      exact ⟨hloop, .inr (.inr hpost)⟩
  | false =>
    cases hb' : g.isHeader b' with
    | true =>
      obtain ⟨hloop, hpost⟩ := hp.comparable_header hg hd hb' hb heq.symm
      exact ⟨hloop.symm, .inr (.inl hpost)⟩
    | false =>
      obtain ⟨dep, hdep⟩ := hp.exists_dep hg hd hid hb
      obtain ⟨h, hh⟩ := exists_isStart hg b
      obtain ⟨h', hh'⟩ := exists_isStart hg b'
      obtain ⟨hmem, hentry⟩ := hp.of_dep hg hd hb hh hdep
      obtain ⟨hmem', hentry'⟩ := hp.of_dep hg hd hb' hh' (heq ▸ hdep)
      have hloop : g.loopOf b = g.loopOf b' := by
        by_cases ho : dep.origin = .entry
        · rw [← hg.loopOf_start hh, ← hg.loopOf_start hh', ← hentry.1 ho, ← hentry'.1 ho]
        · have hnode := (hp.settled_region hh).node _ (Settled.contains_of_mem hmem)
          have hnode' := (hp.settled_region hh').node _ (Settled.contains_of_mem hmem')
          exact hg.isNode_unique hh hh' hnode.2 hnode'.2 (mt hentry.2 ho) (mt hentry'.2 ho)
      rw [← hloop] at hmem'
      have hchain := (hp.settled_region hh).chain hg hh hmem hmem'
      exact ⟨hloop, .inr (hchain.imp (fun hm => hp.postdominates_iff.2 ⟨_, _, hh, hm⟩)
        fun hm => hp.postdominates_iff.2 ⟨_, _, hh, hm⟩)⟩

end Postdominators.IsAnswer

/-! ### Classes -/

namespace Classes

theorem mem_place {deps : DependenceSet} {c : PredicateClass} {cs : List PredicateClass}
    (hc : c ∈ place deps b cs) :
    c ∈ cs ∨ c = ⟨deps, [b]⟩ ∨ ∃ c' ∈ cs, c'.deps = deps ∧ c = ⟨deps, c'.blocks ++ [b]⟩ := by
  induction cs with
  | nil => exact .inr (.inl (List.mem_singleton.1 hc))
  | cons c' cs ih =>
    rw [place] at hc
    split at hc
    · next he =>
      rcases List.mem_cons.1 hc with rfl | hc
      · exact .inr (.inr ⟨c', List.mem_cons_self, he, by rw [he]⟩)
      · exact .inl (List.mem_cons_of_mem _ hc)
    · rcases List.mem_cons.1 hc with rfl | hc
      · exact .inl List.mem_cons_self
      · rcases ih hc with hc | rfl | ⟨c'', hc'', he⟩
        · exact .inl (List.mem_cons_of_mem _ hc)
        · exact .inr (.inl rfl)
        · exact .inr (.inr ⟨c'', List.mem_cons_of_mem _ hc'', he⟩)

/-- The members of a class are blocks, in order, with the dependences of the class. -/
structure IsClass (d : Dependences) (xs : List BlockId) (c : PredicateClass) : Prop where
  ne_nil : c.blocks ≠ []
  sublist : c.blocks.Sublist xs
  deps : ∀ b ∈ c.blocks, d.of b = c.deps

theorem isClass_of_mem_foldl {xs : List BlockId} {c : PredicateClass}
    (hc : c ∈ xs.foldl (fun cs b => place (d.of b) b cs) []) : IsClass d xs c := by
  induction xs using List.reverseRecOn generalizing c with
  | nil => cases hc
  | append_singleton xs x ih =>
    rw [List.foldl_append] at hc
    rcases mem_place hc with hc | rfl | ⟨c', hc', he, rfl⟩
    · obtain ⟨hne, hsub, hdeps⟩ := ih hc
      exact ⟨hne, hsub.trans (List.sublist_append_left ..), hdeps⟩
    · exact ⟨by simp, List.sublist_append_right .., by simp⟩
    · obtain ⟨-, hsub, hdeps⟩ := ih hc'
      refine ⟨by simp, hsub.append_right _, fun b hb => ?_⟩
      rcases List.mem_append.1 hb with hb | hb
      · exact (hdeps b hb).trans he
      · rw [List.mem_singleton.1 hb]

theorem isClass_of_mem {c : PredicateClass} (hc : c ∈ (ofDependences g d).list) :
    IsClass d g.ids c := isClass_of_mem_foldl hc

/-- The member of a class that all others post-dominate. -/
def IsRoot (p : Postdominators) (c : PredicateClass) (r : BlockId) : Prop :=
  r ∈ c.blocks ∧ ∀ b ∈ c.blocks, b ≠ r → p.postdominates b r = true

theorem mem_rootsOf {c : PredicateClass} {r : BlockId} : r ∈ rootsOf p c ↔ IsRoot p c r := by
  simp only [rootsOf, IsRoot, List.mem_filter, List.all_eq_true, Bool.or_eq_true,
    decide_eq_true_eq, or_iff_not_imp_left, ne_eq]

/-- **Every class has one root**, the earliest of its members. -/
theorem existsUnique_isRoot (hg : g.Checked) (hp : Postdominators.IsAnswer g e p)
    (hd : Dependences.ofPostdominators p g = .ok d) {c : PredicateClass}
    (hc : IsClass d g.ids c) : ∃! r, IsRoot p c r := by
  obtain ⟨b₀, hb₀⟩ := List.exists_mem_of_ne_nil _ hc.ne_nil
  obtain ⟨r, hr, hmin⟩ := (measure g.place).wf.has_min {x | x ∈ c.blocks} ⟨b₀, hb₀⟩
  have hroot : IsRoot p c r := by
    refine ⟨hr, fun b hb hne => ?_⟩
    have heq := (hc.deps b hb).trans (hc.deps r hr).symm
    rcases (hp.comparable hg hd (hc.sublist.subset hb) heq).2 with he | h | h
    · exact absurd he hne
    · exact h
    · exact absurd (hp.place_lt_of_postdominates hg h hne.symm) (hmin b hb)
  refine ⟨r, hroot, fun r' hr' => ?_⟩
  by_contra hne
  have h₁ := hp.place_lt_of_postdominates hg (hroot.2 r' hr'.1 hne) hne
  have h₂ := hp.place_lt_of_postdominates hg (hr'.2 r hr (Ne.symm hne)) (Ne.symm hne)
  omega

theorem length_rootsOf {c : PredicateClass} (hc : IsClass d g.ids c) (h : ∃! r, IsRoot p c r) :
    (rootsOf p c).length = 1 := by
  obtain ⟨r, hr, hunique⟩ := h
  have hnodup : (rootsOf p c).Nodup := ((Shape.nodup_ids _).sublist hc.sublist).filter _
  have hroots : (rootsOf p c).Perm [r] := by
    refine (List.perm_ext_iff_of_nodup hnodup (List.nodup_singleton r)).2 fun x => ?_
    rw [mem_rootsOf, List.mem_singleton]
    exact ⟨hunique x, fun he => he ▸ hr⟩
  exact hroots.length_eq

/-- **Roots are unique.**  Where post-dominators and dependences are found for an accepted
graph, the classes pass the check of their roots: in every class exactly one member
is post-dominated by all others.  The members of a class are in the same innermost
loop. -/
theorem roots_unique {g : Graph} (hg : g.Accepted) {limit : Int64} {p : Postdominators}
    {d : Dependences} (hp : Postdominators.ofGraph g limit = .ok p)
    (hd : Dependences.ofPostdominators p g = .ok d) :
    (ofDependences g d).verifyRoots g p = none ∧
      ∀ c ∈ (ofDependences g d).list, (∃! r, IsRoot p c r) ∧
        ∀ b ∈ c.blocks, ∀ b' ∈ c.blocks, g.loopOf b = g.loopOf b' := by
  have hc := hg.checked
  obtain ⟨e, hp⟩ := Postdominators.isAnswer_of_ofGraph hc hp
  have hunique : ∀ c ∈ (ofDependences g d).list, ∃! r, IsRoot p c r := fun c hmem =>
    existsUnique_isRoot hc hp hd (isClass_of_mem hmem)
  refine ⟨?_, fun c hmem => ⟨hunique c hmem, fun b hb b' hb' => ?_⟩⟩
  · unfold verifyRoots
    rw [List.filterMap_eq_nil_iff.2]
    · rfl
    rintro ⟨c, i⟩ hmem
    have hmem := List.fst_mem_of_mem_zipIdx hmem
    exact if_pos (length_rootsOf (isClass_of_mem hmem) (hunique _ hmem))
  · have hclass := isClass_of_mem hmem
    exact (hp.comparable hc hd (hclass.sublist.subset hb)
      ((hclass.deps b hb).trans (hclass.deps b' hb').symm)).1

/-- A loop with a branch inside, which goes round or is left where the branch meets. -/
def branching : Graph :=
  Graph.drawn 6 [(0, 1), (1, 2), (1, 3), (2, 4), (3, 4), (4, 1), (4, 5)] (by decide +kernel)

/-- The post-dominators of `branching`. -/
def branchingDoms : Postdominators :=
  (Postdominators.ofGraph branching 50).toOption.get (by decide +kernel)

/-- The dependences of `branching`. -/
def branchingDeps : Dependences :=
  (Dependences.ofPostdominators branchingDoms branching).toOption.get (by decide +kernel)

/-- In `branching` the header and the block where the branch meets are one class; the
header is its only root. -/
theorem roots_unique_branching :
    (ofDependences branching branchingDeps).verifyRoots branching branchingDoms = none ∧
      ∃ c ∈ (ofDependences branching branchingDeps).list, c.blocks = [1, 4] ∧
        IsRoot branchingDoms c 1 ∧ ¬ IsRoot branchingDoms c 4 := by
  have hp : Postdominators.ofGraph branching 50 = .ok branchingDoms := Outcome.eq_ok_get _
  have hd : Dependences.ofPostdominators branchingDoms branching = .ok branchingDeps :=
    Outcome.eq_ok_get _
  obtain ⟨hverify, hclasses⟩ := roots_unique (Graph.accepted_drawn _) hp hd
  have hmem := List.get_mem (ofDependences branching branchingDeps).list ⟨1, by decide +kernel⟩
  obtain ⟨⟨r, -, hunique⟩, -⟩ := hclasses _ hmem
  have hroot : IsRoot branchingDoms
      ((ofDependences branching branchingDeps).list.get ⟨1, by decide +kernel⟩) 1 :=
    mem_rootsOf.1 (by decide +kernel)
  refine ⟨hverify, _, hmem, by decide +kernel, hroot, fun h => ?_⟩
  have := (hunique 1 hroot).trans (hunique 4 h).symm
  exact absurd this (by decide)

end Classes
end ConstantTime
