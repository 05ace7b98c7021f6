/-
# After a soft failure

"Single-Path Constant-Time Transformation Engine", §7.

A function without bounded dominators is a soft failure: a warning is noted, and the
analysis goes on.  It does not come far.  There are no bounded dominators exactly if some
loop cannot be left (`boundedDominators_isEmpty_iff`), and such a loop keeps the
post-dominators waiting until their limit is met (`Postdominators.ofGraph_of_exitless`).  So
a soft failure is followed by a broken invariant, at the latest in the fourth pass
(`halt_of_softFailure`).
-/

import ConstantTime.Proofs.Dominance.Exitless
import ConstantTime.Proofs.Dominance.Worklist
import ConstantTime.Proofs.Postdominance.Waiting
import ConstantTime.Proofs.Run.Dossier

namespace ConstantTime

/-! ### Checks of dominators -/

namespace DominatorTable

variable {m : DominatorTable} {g : Graph} {constant : ConstantBounds} {limit : Int64}
  {root b : BlockId} {doms : BlockSet} {f : Failure}

theorem code_of_verifyBlock (h : verifyBlock g root b doms = .error f) :
    f.code = .unsoundDominator := by
  unfold verifyBlock at h
  dsimp only at h
  split at h
  · cases h
    exact Cause.finding_code _
  · split at h
    · cases h
      exact Cause.finding_code _
    · cases h

theorem code_of_verifyReach (h : m.verifyReach g root = .error f) :
    f.code = .unsoundDominator :=
  Outcome.forM_error (fun _ _ => code_of_verifyBlock) h

theorem code_of_verifyPaths (h : m.verifyPaths g constant limit root = .error f) :
    f.code = .unsoundDominator := by
  unfold verifyPaths at h
  dsimp only at h
  split at h
  · cases h
  · cases h
    exact Cause.finding_code _

end DominatorTable

namespace Pass

variable {d d' : Dossier} {g : Graph} {m : DominatorTable} {h : Halt}

/-- The halt reports a broken invariant. -/
def IsBroken (h : Halt) : Prop := ∃ f, h = .failed f ∧ f.code.isInternal = true

/-- **A check of dominators** halts for a broken invariant only. -/
theorem isBroken_of_verified (hv : (verified d g m).2 = some h) : IsBroken h := by
  unfold verified checked at hv
  split at hv
  · split at hv
    · cases hv
    · next f hf =>
      cases hv
      refine ⟨f, rfl, ?_⟩
      have hcode : f.code = .unsoundDominator := by
        rcases Outcome.bind_eq_error.1 hf with hf | ⟨-, -, hf⟩
        · exact DominatorTable.code_of_verifyReach hf
        · exact DominatorTable.code_of_verifyPaths hf
      rw [hcode]
      decide +kernel
  · cases hv

/-- The dossier after a soft failure. -/
structure IsSoft (g : Graph) (config : Config) (d : Dossier) : Prop where
  graph : d.graph = some g
  config : d.config = config
  softFailure : d.softFailure = true
  warned : softWarning g ∈ d.warnings

variable {config : Config}

/-- **Without bounded dominators** the second pass warns and finishes. -/
theorem exists_soft (hd : d.graph = some g)
    (hm : g.boundedDominators d.isConstant d.config.maxIterations g.entry = .ok m)
    (hempty : m.isEmpty = true) :
    ∃ d', IsSoft g d.config d' ∧ boundedDominators.run d = (d', none) := by
  unfold boundedDominators onGraph adding
  dsimp only
  rw [hd]
  dsimp only
  rw [hm]
  dsimp only
  rw [if_pos hempty]
  refine ⟨_, ?_, rfl⟩
  exact ⟨rfl, rfl, rfl, List.mem_append_right _ (List.mem_singleton.2 rfl)⟩

/-- The dominators with a fixed count are found out all the same, or their limit is met, or
their check fails. -/
theorem IsSoft.constantLoopDominators (hd : IsSoft g config d) :
    IsSoft g config (constantLoopDominators.run d).1 ∧
      ∀ h ∈ (Pass.constantLoopDominators.run d).2, IsBroken h := by
  unfold Pass.constantLoopDominators onGraph adding
  dsimp only
  rw [hd.graph]
  dsimp only
  split
  · rw [verified_fst]
    exact ⟨⟨rfl, hd.config, hd.softFailure, hd.warned⟩, fun h => isBroken_of_verified⟩
  · next f hf =>
    refine ⟨hd, fun h hh => ?_⟩
    cases hh
    refine ⟨f, rfl, ?_⟩
    rw [code_of_constantLoopDominators hf]
    decide +kernel

/-- They are found out if nothing is checked and the limit suffices. -/
theorem IsSoft.constantLoopDominators_snd (hd : IsSoft g config d) (hg : g.Checked)
    (hverify : config.verify = false)
    (hsquare : ((g.size * g.size + 1 : Nat) : Int) ≤ config.maxIterations.toInt)
    (hfits : config.maxIterations.toInt * ((g.size + 1 : Nat) : Int) < 2 ^ 63) :
    (Pass.constantLoopDominators.run d).2 = none := by
  obtain ⟨m, hm⟩ := exists_constantLoopDominators hg hsquare hfits d.isConstant true
  unfold Pass.constantLoopDominators onGraph adding
  dsimp only
  rw [hd.graph]
  dsimp only
  rw [hd.config, hm]
  simp [verified, hverify]

/-- **The post-dominators meet their limit.** -/
theorem IsSoft.controlDependence (hd : IsSoft g config d) (hg : g.Checked) {e : BlockId}
    (hend : g.end? = some e) {L : Loop} (hL : L ∈ g.loops) (hno : L.exits = []) :
    ∃ f, controlDependence.run d = (d, some (.failed f)) ∧ f.code = .notConverged := by
  unfold Pass.controlDependence onGraph adding
  dsimp only
  rw [hd.graph]
  dsimp only
  rw [Postdominators.ofGraph_of_exitless hg hend hL hno]
  exact ⟨_, rfl, Cause.finding_code _⟩

end Pass

namespace Pipeline

variable {f : FunctionDescription} {config : Config} {g : Graph} {bounds : BoundTable}
  {e : BlockId} {m : DominatorTable}

/-- **A soft failure is followed by a broken invariant.**  Let a function be described whose
graph has one end, and let the bounded dominators from the entry have no answer.  The whole
analysis notes the soft failure and the warning, and stops in its third or fourth pass with
an internal error, whatever the configuration is.  If nothing is checked and the limit of
iterations suffices for the third pass, it is the fourth that meets its limit. -/
theorem halt_of_softFailure (hgraph : f.graph = .ok g) (hbounds : f.bounds g config = .ok bounds)
    (hend : g.end? = some e)
    (hm : g.boundedDominators (fun h => (bounds.get? h).any Bound.isConstant)
      config.maxIterations g.entry = .ok m) (hempty : m.isEmpty = true) :
    let r := standard.run f config
    r.dossier.softFailure = true ∧ Pass.softWarning g ∈ r.dossier.warnings ∧ r.started ≤ 4 ∧
      ∃ failure, r.failure? = some failure ∧ failure.code.isInternal = true ∧
        (config.verify = false → ((g.size * g.size + 1 : Nat) : Int) ≤ config.maxIterations.toInt →
          config.maxIterations.toInt * ((g.size + 1 : Nat) : Int) < 2 ^ 63 →
          r.started = 4 ∧ failure.code = .notConverged) := by
  have hg := (FunctionDescription.graph_accepted hgraph).checked
  obtain ⟨L, hL, hno⟩ := (boundedDominators_isEmpty_iff hg hm).1 hempty
  -- the first two passes finish
  let first : Dossier := { description := f, config := config, graph := some g, bounds := bounds }
  have hloops : Pass.loops.run { description := f, config := config } = (first, none) := by
    simp only [Pass.loops, hgraph, Pass.adding, hbounds, first]
  obtain ⟨d, hd, hbounded⟩ := Pass.exists_soft (d := first) rfl hm hempty
  have hrun : standard.run f config = runFrom [Pass.constantLoopDominators, Pass.controlDependence,
      Pass.equivalenceClasses, Pass.compensation, Pass.schedule] { dossier := d, started := 2 } := by
    rw [run, standard, runFrom, hloops]
    dsimp only
    rw [runFrom, hbounded]
  -- the third may halt, the fourth does
  obtain ⟨hd', hbroken⟩ := hd.constantLoopDominators
  rw [hrun, runFrom]
  split
  · next d' hrun' =>
    rw [hrun'] at hd'
    obtain ⟨failure, hdependence, hcode⟩ := hd'.controlDependence hg hend hL hno
    rw [runFrom, hdependence]
    refine ⟨hd'.softFailure, hd'.warned, Nat.le_refl _, _, rfl, ?_, fun _ _ _ => ⟨rfl, hcode⟩⟩
    change failure.code.isInternal = true
    rw [hcode]
    decide +kernel
  · next d' halt hrun' =>
    rw [hrun'] at hd' hbroken
    obtain ⟨failure, rfl, hinternal⟩ := hbroken halt rfl
    refine ⟨hd'.softFailure, hd'.warned, Nat.le_succ 3, _, rfl, hinternal,
      fun hverify hsquare hfits => ?_⟩
    have hnone := hd.constantLoopDominators_snd hg hverify hsquare hfits
    rw [hrun'] at hnone
    cases hnone

end Pipeline

/-- A pseudo-root with a loop at the block `l` that only goes round. -/
def FunctionDescription.spinning : FunctionDescription where
  name := "f"
  pseudoRoot := true
  blocks := some [some { name := "a", succs := ["l", "e"] },
    some { name := "l", succs := ["l"], bound := some ⟨1, 3⟩ }, some { name := "e" }]

/-- The graph of `spinning`: the blocks `a`, `l` and `e` are numbered in this order. -/
def Graph.spinning : Graph := FunctionDescription.spinning.graph.toOption.get (by decide +kernel)

/-- The analysis of `spinning` never comes to the choice of a compensation. -/
theorem Pipeline.halt_of_softFailure_spinning :
    let r := standard.run .spinning { compensation := .opposite, verify := false }
    r.dossier.softFailure = true ∧ Pass.softWarning .spinning ∈ r.dossier.warnings ∧
      r.started = 4 ∧ ∃ failure, r.failure? = some failure ∧ failure.code.text = "SP0205" := by
  have hgraph : FunctionDescription.spinning.graph = .ok .spinning := Outcome.eq_ok_get _
  have hbounds : FunctionDescription.spinning.bounds .spinning
      { compensation := .opposite, verify := false } = .ok (.ofList [(1, ⟨1, 3⟩)]) := by
    decide +kernel
  have hm : Graph.spinning.boundedDominators (fun h =>
      ((OrderedMap.ofList [(1, ⟨1, 3⟩)]).get? h).any Bound.isConstant) 10000
      Graph.spinning.entry = .ok ∅ := by decide +kernel
  obtain ⟨hsoft, hwarned, -, failure, hfailure, -, hlimit⟩ := halt_of_softFailure (e := 2) hgraph
    hbounds (by decide +kernel) hm rfl
  obtain ⟨hstarted, hcode⟩ := hlimit rfl (by decide +kernel) (by decide +kernel)
  exact ⟨hsoft, hwarned, hstarted, failure, hfailure, by rw [hcode]; rfl⟩

end ConstantTime
