/-
# What a dossier holds follows from the description

The graph of a dossier is the one that its function describes, a builder has handed
it over (`FunctionDescription.graph_accepted`), the bounds are those described for
its loops, and the blocks with a fixed count have been computed from both
(`Dossier.Follows`).  The passes that write none of these keep all of them
(`Dossier.Agrees`), and the two that do write what follows; so it holds at the end of
the whole analysis, whether this finishes or not (`follows_standard`).
-/

import ConstantTime.Proofs.Graph.Construction
import ConstantTime.Proofs.Outcome
import ConstantTime.Run.Pipeline

namespace ConstantTime

/-! ### The graph of a description -/

/-- The calls that draft a function: all blocks, then the edges of each. -/
def FunctionDescription.calls (blocks : List BlockDescription) : List Builder.Call :=
  blocks.map (fun d => .newBlock d.name) ++
    blocks.flatMap fun d => d.succs.map fun s => .addEdgeByName d.name s

theorem FunctionDescription.draft_eq_run (name : String) (blocks : List BlockDescription) :
    draft name blocks = (Builder.new name).run (calls blocks) := by
  rw [draft, calls, Builder.run, List.foldl_append, List.foldl_map, List.foldl_flatMap]
  simp only [List.foldl_map]
  rfl

/-- **A graph that is described is accepted.** -/
theorem FunctionDescription.graph_accepted {f : FunctionDescription} {g : Graph}
    (h : f.graph = .ok g) : g.Accepted := by
  unfold graph at h
  cases hblocks : f.namedBlocks with
  | error e =>
    rw [hblocks] at h
    cases h
  | ok blocks =>
    rw [hblocks] at h
    have hbuild : (draft f.name blocks).build.2 = .ok g := by
      change Halt.ofOutcome _ = _ at h
      unfold Halt.ofOutcome at h
      split at h
      · next g' hg =>
        cases h
        exact hg
      · cases h
    refine ⟨f.name, calls blocks, ?_⟩
    rw [← draft_eq_run]
    unfold Builder.build at hbuild
    split at hbuild
    · next g' hg =>
      cases hbuild
      exact hg
    · cases hbuild

/-! ### Dossiers -/

namespace Dossier

/-- The dossiers agree on the function, its graph, its bounds and what has a fixed
count. -/
structure Agrees (d d' : Dossier) : Prop where
  description : d'.description = d.description
  config : d'.config = d.config
  graph : d'.graph = d.graph
  bounds : d'.bounds = d.bounds
  constantLoop : d'.constantLoop = d.constantLoop

/-- What the dossier holds follows from the description of the function. -/
structure Follows (f : FunctionDescription) (d : Dossier) : Prop where
  description : d.description = f
  graph : ∀ g, d.graph = some g → f.graph = .ok g ∧ f.bounds g d.config = .ok d.bounds
  constantLoop : ∀ m, d.constantLoop = some m → ∃ g, d.graph = some g ∧
    g.constantLoopDominators d.isConstant d.config.maxIterations true g.entry = .ok m

variable {f : FunctionDescription} {d d' : Dossier}

theorem Agrees.refl (d : Dossier) : d.Agrees d := ⟨rfl, rfl, rfl, rfl, rfl⟩

theorem Follows.of_agrees (h : d.Follows f) (ha : d.Agrees d') : d'.Follows f := by
  obtain ⟨hdesc, hconf, hgraph, hbounds, hconst⟩ := ha
  have hfixed : d'.isConstant = d.isConstant := by
    funext h
    rw [isConstant, isConstant, hbounds]
  constructor
  · rw [hdesc, h.description]
  · rw [hgraph, hconf, hbounds]
    exact h.graph
  · rw [hconst, hgraph, hconf, hfixed]
    exact h.constantLoop

end Dossier

/-! ### Passes -/

namespace Pass

/-- The pass writes neither the graph nor what is known of loops. -/
def Keeps (p : Pass) : Prop := ∀ d : Dossier, d.Agrees (p.run d).1

variable {f : FunctionDescription} {d d' : Dossier}

/-- What holds before a step that needs the graph holds after it, if the step keeps it. -/
theorem onGraph_induction {P : Dossier → Prop} {step : Graph → Dossier → Dossier × Option Halt}
    (h : P d) (hstep : ∀ g, P (step g d).1) : P (onGraph step d).1 := by
  unfold onGraph
  split
  · exact h
  · exact hstep _

/-- What holds before a result is added holds afterwards, if adding one keeps it. -/
theorem adding_induction {P : Dossier → Prop} {α : Type} {r : Outcome α}
    {put : α → Dossier × Option Halt} (h : P d) (hput : ∀ a, P (put a).1) :
    P (adding d r put).1 := by
  unfold adding
  split
  · exact hput _
  · exact h

theorem verified_fst (d : Dossier) (g : Graph) (m : DominatorTable) :
    (verified d g m).1 = d := by
  unfold verified checked
  split
  · split <;> rfl
  · rfl

theorem keeps_boundedDominators : boundedDominators.Keeps := by
  intro d
  refine onGraph_induction (.refl d) fun g => ?_
  refine adding_induction (.refl d) fun m => ?_
  dsimp only
  split
  · exact ⟨rfl, rfl, rfl, rfl, rfl⟩
  · rw [verified_fst]
    exact ⟨rfl, rfl, rfl, rfl, rfl⟩

theorem keeps_controlDependence : controlDependence.Keeps := by
  intro d
  refine onGraph_induction (.refl d) fun g => ?_
  refine adding_induction (.refl d) fun p => ?_
  exact adding_induction (.refl d) fun deps => ⟨rfl, rfl, rfl, rfl, rfl⟩

theorem keeps_equivalenceClasses : equivalenceClasses.Keeps := by
  intro d
  refine onGraph_induction (.refl d) fun g => ?_
  dsimp only
  split
  · exact .refl d
  · split
    · exact .refl d
    · exact ⟨rfl, rfl, rfl, rfl, rfl⟩

theorem keeps_compensation : compensation.Keeps := by
  intro d
  refine onGraph_induction (.refl d) fun g => ?_
  dsimp only
  split
  · exact .refl d
  · exact adding_induction (.refl d) fun r => ⟨rfl, rfl, rfl, rfl, rfl⟩

theorem keeps_schedule : schedule.Keeps := by
  intro d
  refine onGraph_induction (.refl d) fun g => ?_
  dsimp only
  split
  · exact .refl d
  · exact ⟨rfl, rfl, rfl, rfl, rfl⟩

/-- **The graph and the bounds follow**, also when they are written once more. -/
theorem follows_loops (h : d.Follows f) : (loops.run d).1.Follows f := by
  obtain rfl := h.description
  unfold loops adding
  dsimp only
  split
  · exact h
  · next g hg =>
    split
    · next bounds hbounds =>
      refine ⟨rfl, fun g' hg' => ?_, fun m hm => ?_⟩
      · cases hg'
        exact ⟨hg, hbounds⟩
      · obtain ⟨g', hg', hdoms⟩ := h.constantLoop m hm
        obtain ⟨hgraph, hbounds'⟩ := h.graph g' hg'
        cases hg.symm.trans hgraph
        cases hbounds.symm.trans hbounds'
        exact ⟨g, rfl, hdoms⟩
    · exact h

/-- **What has a fixed count follows.** -/
theorem follows_constantLoopDominators (h : d.Follows f) :
    (constantLoopDominators.run d).1.Follows f := by
  unfold constantLoopDominators onGraph adding
  dsimp only
  split
  · exact h
  · next g hg =>
    split
    · next m hm =>
      rw [verified_fst]
      exact ⟨h.description, h.graph, fun m' hm' => ⟨g, hg, Option.some_inj.1 hm' ▸ hm⟩⟩
    · exact h

end Pass

/-! ### Pipelines -/

namespace Pipeline

variable {f : FunctionDescription}

/-- What every pass keeps holds at the end of a pipeline. -/
theorem runFrom_induction {P : Dossier → Prop} {ps : Pipeline} {r : PipelineRun}
    (step : ∀ p ∈ ps, ∀ d : Dossier, P d → P (p.run d).1) (h : P r.dossier) :
    P (ps.runFrom r).dossier := by
  induction ps generalizing r with
  | nil => exact h
  | cons p ps ih =>
    have hp := step p List.mem_cons_self r.dossier h
    rw [runFrom]
    split
    · next d hd =>
      rw [hd] at hp
      exact ih (fun p hp => step p (List.mem_cons_of_mem _ hp)) hp
    · next d hd =>
      rw [hd] at hp
      exact hp

/-- **The whole analysis** leaves a dossier that follows from the description. -/
theorem follows_standard (f : FunctionDescription) (config : Config) :
    (standard.run f config).dossier.Follows f := by
  have hstart : Dossier.Follows f { description := f, config := config } :=
    ⟨rfl, fun g hg => absurd hg (by simp), fun m hm => absurd hm (by simp)⟩
  refine runFrom_induction (fun p hp d hd => ?_) hstart
  simp only [standard, List.mem_cons, List.not_mem_nil, or_false] at hp
  rcases hp with rfl | rfl | rfl | rfl | rfl | rfl | rfl
  · exact Pass.follows_loops hd
  · exact hd.of_agrees (Pass.keeps_boundedDominators d)
  · exact Pass.follows_constantLoopDominators hd
  · exact hd.of_agrees (Pass.keeps_controlDependence d)
  · exact hd.of_agrees (Pass.keeps_equivalenceClasses d)
  · exact hd.of_agrees (Pass.keeps_compensation d)
  · exact hd.of_agrees (Pass.keeps_schedule d)

end Pipeline
end ConstantTime
