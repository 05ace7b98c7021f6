/-
# Which graphs are refused for their loops

"Single-Path Constant-Time Transformation Engine", §1 and §12.1.

A builder refuses a graph, after all else has been found in order, if an edge
that goes backward in its depth-first order leads to a block that is not on every
path to the source of the edge.  That order depends on how the edges were added.
The verdict does not: the graph is refused exactly if it has a cycle in which no
block dominates all the others (`Builder.build_irreducible_iff`).

* A refused edge closes a cycle on which nothing stands before its target.  A
  block that dominates the others would have to stand first, so it would be the
  target (`Ordered.undominated_of_retreating`).
* If all backward edges lead to dominators, the first block of a cycle dominates
  the others: going back along the cycle from where it is come to again, every
  block is met only past it (`Ordered.onEveryPath_of_closed`).
-/

import Mathlib.Order.WellFounded
import ConstantTime.Proofs.Graph.Dominance

namespace ConstantTime

namespace Shape

/-- Control can go round the blocks of `c`, past none of them twice. -/
structure IsCycle (g : Shape) (c : List BlockId) : Prop where
  nodup : c.Nodup
  closed : ∃ a b, g.IsPath a c b ∧ a ∈ g.succs b

/-- There is a cycle in which no block dominates all the others. -/
def HasUndominatedCycle (g : Shape) : Prop :=
  ∃ c, g.IsCycle c ∧ ∀ d ∈ c, ∃ x ∈ c, ¬ g.OnEveryPath d x

/-- Two graphs have the same edges, whatever the order in which they were added. -/
def SameEdges (g g' : Shape) : Prop := ∀ u v, v ∈ g.succs u ↔ v ∈ g'.succs u

namespace SameEdges

variable {g g' : Shape} {a b : BlockId} {p : List BlockId}

/-- Adding the edges in another order permutes the successors of the blocks. -/
theorem of_perm (hsize : g.size = g'.size)
    (h : ∀ u ∈ g.ids, (g.succs u).Perm (g'.succs u)) : g.SameEdges g' := by
  intro u v
  by_cases hu : u ∈ g.ids
  · exact (h u hu).mem_iff
  · have hu' : u ∉ g'.ids := by rwa [mem_ids, ← hsize, ← mem_ids]
    exact iff_of_false (fun hv => hu (mem_ids_of_mem_succs hv))
      fun hv => hu' (mem_ids_of_mem_succs hv)

theorem isPath_iff (h : g.SameEdges g') : g.IsPath a p b ↔ g'.IsPath a p b := by
  have hrel : (fun u v => v ∈ g.succs u) = fun u v => v ∈ g'.succs u := by
    funext u v
    exact propext (h u v)
  constructor
  · rintro ⟨hc, hh, hl⟩
    exact ⟨hrel ▸ hc, hh, hl⟩
  · rintro ⟨hc, hh, hl⟩
    exact ⟨hrel ▸ hc, hh, hl⟩

theorem onEveryPath_iff (h : g.SameEdges g') : g.OnEveryPath a b ↔ g'.OnEveryPath a b :=
  forall_congr' fun _ => imp_congr_left h.isPath_iff

theorem isCycle_iff (h : g.SameEdges g') : g.IsCycle p ↔ g'.IsCycle p := by
  constructor
  · rintro ⟨hnd, a, b, hp, hs⟩
    exact ⟨hnd, a, b, h.isPath_iff.1 hp, (h b a).1 hs⟩
  · rintro ⟨hnd, a, b, hp, hs⟩
    exact ⟨hnd, a, b, h.isPath_iff.2 hp, (h b a).2 hs⟩

theorem hasUndominatedCycle_iff (h : g.SameEdges g') :
    g.HasUndominatedCycle ↔ g'.HasUndominatedCycle := by
  simp only [HasUndominatedCycle, h.isCycle_iff, h.onEveryPath_iff]

end SameEdges
end Shape

/-! ### Cycles and backward edges -/

namespace Graph.Ordered

variable {g : Graph} (hg : g.Ordered) {u v : BlockId}
include hg

/-- **A backward edge past the header** is in a cycle that no block dominates. -/
theorem undominated_of_retreating (hs : v ∈ g.succs u) (hle : g.place v ≤ g.place u)
    (hnot : ¬ g.OnEveryPath v u) : g.HasUndominatedCycle := by
  obtain ⟨c, hc, hnd, hfirst⟩ := hg.exists_cycle_of_retreating hs hle
  have hv : v ∈ c := List.mem_of_mem_head? hc.head
  refine ⟨c, ⟨hnd, v, u, hc, hs⟩, fun d hd => ?_⟩
  by_contra hall
  have hdom : ∀ x ∈ c, g.OnEveryPath d x := fun x hx => by
    by_contra hx'
    exact hall ⟨x, hx, hx'⟩
  have hvid : v ∈ g.ids := hg.wellFormed.isBlock_of_mem_succs hs
  have hdid : d ∈ g.ids := hc.mem_ids hg.wellFormed hvid d hd
  have hdv : d = v := hg.place_inj hdid hvid
    (Nat.le_antisymm (hg.place_le_of_onEveryPath hvid (hdom v hv)) (hfirst d hd))
  exact hnot (hdv ▸ hdom u hc.last_mem)

omit hg in
/-- **The first block of a cycle dominates it**, if backward edges lead to
dominators. -/
theorem onEveryPath_of_closed
    (hback : ∀ u v, v ∈ g.succs u → g.place v ≤ g.place u → g.OnEveryPath v u)
    {p : List BlockId} (hp : g.IsPath v p v) (hfirst : ∀ x ∈ p, g.place v ≤ g.place x) :
    ∀ x ∈ p, g.OnEveryPath v x := by
  refine Shape.IsPath.snoc_induction (motive := fun p y => (∀ x ∈ p, g.place v ≤ g.place x) →
    g.OnEveryPath v y → ∀ x ∈ p, g.OnEveryPath v x) ?_ ?_ hp hfirst (.refl v)
  · intro _ hy x hx
    rwa [List.mem_singleton.1 hx]
  · intro p w y hpw hs ih hfirst hy x hx
    rcases List.mem_append.1 hx with hx | hx
    · refine ih (fun z hz => hfirst z (List.mem_append_left _ hz)) ?_ x hx
      by_cases hvy : v = y
      · subst hvy
        exact hback w v hs (hfirst w (List.mem_append_left _ hpw.last_mem))
      · exact onEveryPath_pred hy hvy hs
    · rwa [List.mem_singleton.1 hx]

/-- **An undominated cycle is the same as a backward edge past the header.** -/
theorem hasUndominatedCycle_iff : g.HasUndominatedCycle ↔
    ∃ u v, v ∈ g.succs u ∧ g.place v ≤ g.place u ∧ ¬ g.OnEveryPath v u := by
  constructor
  · rintro ⟨c, ⟨-, a, b, hc, hs⟩, hun⟩
    by_contra hnone
    have hback : ∀ u v, v ∈ g.succs u → g.place v ≤ g.place u → g.OnEveryPath v u :=
      fun u v hs hle => by
        by_contra hnot
        exact hnone ⟨u, v, hs, hle, hnot⟩
    obtain ⟨v, hv, hmin⟩ := (measure g.place).wf.has_min {x | x ∈ c} ⟨b, hc.last_mem⟩
    have hfirst : ∀ x ∈ c, g.place v ≤ g.place x := fun x hx => Nat.le_of_not_lt (hmin x hx)
    -- once round, from the first block to itself
    obtain ⟨q, r, rfl, hq, hr⟩ := hc.split hv
    have hround := hr.append (hq.cons hs)
    have hmem : ∀ x ∈ (v :: r) ++ (b :: (q ++ [v])).tail, x ∈ q ++ v :: r := by
      intro x hx
      simp only [List.tail_cons, List.mem_append, List.mem_cons, List.not_mem_nil, or_false] at hx ⊢
      tauto
    have hdom := onEveryPath_of_closed hback hround fun x hx => hfirst x (hmem x hx)
    obtain ⟨x, hx, hnot⟩ := hun v hv
    refine hnot (hdom x ?_)
    simp only [List.tail_cons, List.mem_append, List.mem_cons, List.not_mem_nil, or_false] at hx ⊢
    tauto
  · rintro ⟨u, v, hs, hle, hnot⟩
    exact hg.undominated_of_retreating hs hle hnot

/-- **When the search for loops fails.** -/
theorem ofShape_cases :
    (g.HasUndominatedCycle ∧ ∃ f, Loops.ofShape g.toShape g.order g.idom = reject f ∧
        f.code = .irreducible) ∨
      (¬ g.HasUndominatedCycle ∧ ∃ ls, Loops.ofShape g.toShape g.order g.idom = .ok ls) := by
  have hmem : ∀ e : FlowEdge, e ∈ Loops.retreating g.toShape g.order ↔
      e.target ∈ g.succs e.source ∧ g.place e.target ≤ g.place e.source := by
    rintro ⟨u, v⟩
    simp only [Loops.retreating, List.mem_flatMap, List.mem_map, List.mem_filter,
      decide_eq_true_eq, FlowEdge.mk.injEq]
    constructor
    · rintro ⟨_, -, _, ⟨hs, hle⟩, rfl, rfl⟩
      exact ⟨hs, hle⟩
    · rintro ⟨hs, hle⟩
      exact ⟨u, hg.mem_order u (Shape.mem_ids_of_mem_succs hs), v, ⟨hs, hle⟩, rfl, rfl⟩
  have hdom : ∀ u v, v ∈ g.succs u →
      (Dominators.isAncestor g.idom g.entry (g.size + 1) v u = true ↔ g.OnEveryPath v u) :=
    fun u v hs => hg.dominates_iff (Shape.mem_ids_of_mem_succs hs)
  rw [hg.hasUndominatedCycle_iff]
  unfold Loops.ofShape
  dsimp only
  split
  · next e he =>
    obtain ⟨hs, hle⟩ := (hmem e).1 (List.mem_of_find?_eq_some he)
    have hnot := List.find?_some he
    simp only [Bool.not_eq_true', Bool.eq_false_iff, ne_eq, hdom _ _ hs] at hnot
    exact .inl ⟨⟨_, _, hs, hle, hnot⟩, _, rfl, Cause.finding_code (.entersLoop _ _)⟩
  · next hnone =>
    refine .inr ⟨?_, _, rfl⟩
    rintro ⟨u, v, hs, hle, hnot⟩
    have := List.find?_eq_none.1 hnone ⟨u, v⟩ ((hmem _).2 ⟨hs, hle⟩)
    simp only [Bool.not_eq_true', Bool.not_eq_false, hdom u v hs] at this
    exact hnot this

end Graph.Ordered

/-! ### The verdict of a builder -/

namespace Builder

/-- A builder that has nothing else to complain about looks for the loops. -/
theorem graph_eq {b : Builder} (hfailure : b.failure = none) (hblocks : b.draft.blocks ≠ [])
    (hentry : b.draft.preds b.draft.entry = [])
    (horder : ∀ v ∈ b.draft.ids, v ∈ b.draft.reversePostorder) :
    b.graph = (Graph.ofShape b.draft b.draft.reversePostorder).mapError
      (.context "building loop forest") := by
  have hnone : b.draft.ids.find? (fun v => v ∉ b.draft.reversePostorder) = none := by
    refine List.find?_eq_none.2 fun v hv => ?_
    simpa using horder v hv
  unfold graph
  rw [hfailure]
  dsimp only
  rw [if_neg (by simpa using hblocks), hentry, if_neg (by simp), hnone]

/-- **Exactly the reducible graphs are handed over.**  Let a builder, after
whatever calls, have nothing recorded against it, at least one block, no edge into
the entry and every block reached from it.  It fails with the code for irreducible
control flow if and only if the graph has a cycle in which no block dominates all
the others; otherwise it hands the graph over.  It does not matter in which order
the edges were added: `s` is any graph with the same edges. -/
theorem build_irreducible_iff {name : String} {calls : List Call} {b : Builder}
    (hb : b = (Builder.new name).run calls) (hfailure : b.failure = none)
    (hblocks : b.draft.blocks ≠ []) (hentry : b.draft.preds b.draft.entry = [])
    (hreach : ∀ v ∈ b.draft.ids, ∃ p, b.draft.IsPath b.draft.entry p v) {s : Shape}
    (hs : s.SameEdges b.draft) :
    ((∃ e, b.build.2 = .error e ∧ e.code.text = "SP0100") ↔ s.HasUndominatedCycle) ∧
      (¬ s.HasUndominatedCycle → ∃ g, b.build.2 = .ok g) := by
  have hwf : b.draft.WellFormed := hb ▸ wellFormed_run (wellFormed_nil name) calls
  have hg := Shape.ordered_ordered hwf (List.length_pos_iff.2 hblocks) hreach
  have hgraph := graph_eq hfailure hblocks hentry hg.mem_order
  have hbuild : ∀ x, b.graph = x → b.build.2 = x := by
    rintro x rfl
    unfold build
    split <;> next h => exact h.symm
  rw [hs.hasUndominatedCycle_iff]
  rcases hg.ofShape_cases with ⟨hcycle, f, hf, hcode⟩ | ⟨hnone, ls, hls⟩
  · have hcycle : b.draft.HasUndominatedCycle := hcycle
    have hfails : b.build.2 = .error (.context "building loop forest" (.finding f)) := by
      refine hbuild _ ?_
      rw [hgraph, Graph.ofShape]
      have hf : Loops.ofShape b.draft b.draft.reversePostorder
        (Dominators.immediate b.draft b.draft.reversePostorder) = reject f := hf
      rw [hf]
      rfl
    exact ⟨iff_of_true ⟨_, hfails, congrArg Code.text hcode⟩ hcycle, fun h => absurd hcycle h⟩
  · have hnone : ¬ b.draft.HasUndominatedCycle := hnone
    obtain ⟨g, hgr⟩ : ∃ g, b.graph = .ok g := by
      have hls : Loops.ofShape b.draft b.draft.reversePostorder
        (Dominators.immediate b.draft b.draft.reversePostorder) = .ok ls := hls
      rw [hgraph, Graph.ofShape]
      rw [hls]
      exact ⟨_, rfl⟩
    have hok := hbuild _ hgr
    refine ⟨iff_of_false ?_ hnone, fun _ => ⟨g, hok⟩⟩
    rintro ⟨e, he, -⟩
    rw [hok] at he
    cases he

/-- A loop of two blocks that is entered at both is refused, in whichever order
its edges are added. -/
theorem build_irreducible_iff_two_entries :
    ∃ e, ((Builder.new "f").run
        [.newBlocks 3, .addEdge 2 1, .addEdge 1 2, .addEdge 0 2, .addEdge 0 1]).build.2 = .error e ∧
      e.code.text = "SP0100" := by
  have hcycle : Shape.twoEntries.HasUndominatedCycle := by
    refine ⟨[1, 2], ⟨by decide, 1, 2, ⟨by decide +kernel, rfl, rfl⟩, by decide +kernel⟩, ?_⟩
    intro d hd
    simp only [List.mem_cons, List.not_mem_nil, or_false] at hd
    rcases hd with rfl | rfl
    · refine ⟨2, by simp, fun h => ?_⟩
      have := h [0, 2] ⟨by decide +kernel, rfl, rfl⟩
      revert this
      decide
    · refine ⟨1, by simp, fun h => ?_⟩
      have := h [0, 1] ⟨by decide +kernel, rfl, rfl⟩
      revert this
      decide
  refine (build_irreducible_iff (s := Shape.twoEntries) rfl (by decide +kernel) (by decide +kernel)
    (by decide +kernel) ?_ ?_).1.2 hcycle
  · intro v hv
    have hids : ((Builder.new "f").run [.newBlocks 3, .addEdge 2 1, .addEdge 1 2, .addEdge 0 2,
      .addEdge 0 1]).draft.ids = [0, 1, 2] := by decide +kernel
    rw [hids] at hv
    simp only [List.mem_cons, List.not_mem_nil, or_false] at hv
    rcases hv with rfl | rfl | rfl
    · exact ⟨[0], .single 0⟩
    · exact ⟨[0, 1], by decide +kernel, rfl, rfl⟩
    · exact ⟨[0, 2], by decide +kernel, rfl, rfl⟩
  · exact .of_perm (by decide +kernel) (by decide +kernel)

end Builder
end ConstantTime
