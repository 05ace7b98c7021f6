/-
# The limits of the analyses

Five analyses repeat steps until nothing changes or nothing waits, and give up at a limit.
Each comes to an end for a reason of its own:

* the sweeps of the bounded dominators only take blocks off, so there are no more of them
  than pairs of blocks (`exists_boundedDominators`);
* the queues of the constant-loop dominators hold a node once for each way to it
  (`exists_constantLoopDominators`);
* a node of the post-dominators waits only for nodes after it
  (`Postdominators.exists_ofGraph`);
* the equations of the access analysis are solved from the inner loops outwards
  (`AccessAnalysis.exists_ofGraph`);
* a block that waits for its counter waits for one that gets it before
  (`CounterPlan.code_ne_of_ofAmounts`).

So a limit above the square of the number of blocks is never met (`Accepted.withinLimit`),
if every loop can be left; if one cannot, every limit is (`not_withinLimit_of_exitless`).
-/

import ConstantTime.Proofs.Access.Convergence
import ConstantTime.Proofs.Access.Treatment
import ConstantTime.Proofs.Dominance.Shrinking
import ConstantTime.Proofs.Dominance.Worklist
import ConstantTime.Proofs.Postdominance.Waiting

namespace ConstantTime
namespace Graph

variable {g : Graph} {e : BlockId} {limit : Int64}

/-- No analysis of the graph meets the limit, whatever is asked of it. -/
structure WithinLimit (g : Graph) (limit : Int64) : Prop where
  bounded : ∀ constant, ∃ m, g.boundedDominators constant limit g.entry = .ok m
  constantLoop : ∀ constant endOnly,
    ∃ m, g.constantLoopDominators constant limit endOnly g.entry = .ok m
  postdominators : ∃ p, Postdominators.ofGraph g limit = .ok p
  accesses : ∀ count bound, ∃ a, AccessAnalysis.ofGraph g count bound limit = .ok a ∧
    ∀ rootLike, ∃ range, a.total g rootLike = .ok range
  /-- A counter may be refused, but not for the limit. -/
  counter : ∀ amounts range rootLike (config : Config), config.maxIterations = limit →
    ∀ f, CounterPlan.ofAmounts g amounts range rootLike config = .error f →
      f.code ≠ .notConverged

/-- **The limits are never met** in an accepted graph with one end whose loops can all be
left: a limit above the square of the number of blocks suffices for every analysis, as long
as it can be scaled by the number of blocks. -/
theorem Accepted.withinLimit (hg : g.Accepted) (hend : g.end? = some e)
    (hexits : ∀ L ∈ g.loops, L.exits ≠ [])
    (hsquare : ((g.size * g.size + 1 : Nat) : Int) ≤ limit.toInt)
    (hfits : limit.toInt * ((g.size + 1 : Nat) : Int) < 2 ^ 63) : g.WithinLimit limit := by
  have hc := hg.checked
  refine ⟨exists_boundedDominators hc hsquare, exists_constantLoopDominators hc hsquare hfits,
    Postdominators.exists_ofGraph hc hend hexits hsquare hfits, fun count bound => ?_,
    fun amounts range rootLike config hlimit f =>
      CounterPlan.code_ne_of_ofAmounts hc hsquare hfits hend hlimit⟩
  obtain ⟨a, ha⟩ := AccessAnalysis.exists_ofGraph hc hsquare count bound
  exact ⟨a, ha, AccessAnalysis.exists_total hc hend ha⟩

/-- A loop inside a loop, both of which are left for the end. -/
def leftForEnd : Graph :=
  drawn 6 [(0, 1), (1, 2), (2, 3), (3, 2), (3, 4), (4, 1), (2, 5), (4, 5)] (by decide +kernel)

/-- The limit may be as low as the square of the number of blocks and one. -/
theorem withinLimit_leftForEnd : leftForEnd.size = 6 ∧ leftForEnd.WithinLimit 37 :=
  ⟨by decide +kernel, Accepted.withinLimit (e := 5) (accepted_drawn _) (by decide +kernel)
    (by decide +kernel) (by decide +kernel) (by decide +kernel)⟩

/-- A loop that cannot be left meets every limit. -/
theorem not_withinLimit_of_exitless {L : Loop} (hg : g.Accepted) (hend : g.end? = some e)
    (hL : L ∈ g.loops) (hno : L.exits = []) : ¬ g.WithinLimit limit := by
  intro h
  obtain ⟨p, hp⟩ := h.postdominators
  rw [Postdominators.ofGraph_of_exitless hg.checked hend hL hno] at hp
  cases hp

end Graph
end ConstantTime
