/-
# What the order of completion decides

The functions of a module are analysed by tasks of their own, which may complete in any
order.  A task writes the dossier of its function at the position of the function and
adds its counts to the summary, so neither depends on the order (`inOrder_eq_of_perm`).  But
a task that fails adds its failure after those of the tasks that failed before, and the
report lists the errors in that order.

So the report of a module is the same in every order of completion if and only if any
two functions have errors that can be listed in either order
(`Report.ofRun_inOrder`); two functions that fail with different texts are enough for
two different reports.
-/

import ConstantTime.Proofs.Run.Counting
import ConstantTime.Report.Basic
import Mathlib.Data.List.Induction

namespace ConstantTime

namespace ModuleRun

variable {ps : Pipeline} {config : Config} {m : ModuleDescription} {lang : Language}
  {order order' : List Nat} {i j : Nat}

/-! ### One task -/

/-- The run of the function at a position. -/
def taskRun (ps : Pipeline) (config : Config) (m : ModuleDescription) (i : Nat) :
    Option PipelineRun :=
  (m.entries[i]?).join.map fun f => ps.run f config

/-- The dossier that a task leaves. -/
def taskDossier (ps : Pipeline) (config : Config) (m : ModuleDescription) (i : Nat) :
    Option Dossier :=
  (taskRun ps config m i).bind PipelineRun.kept?

/-- The counts that a task adds. -/
def taskSummary (ps : Pipeline) (config : Config) (m : ModuleDescription) (i : Nat) : Summary :=
  (taskRun ps config m i).elim 0 PipelineRun.counted

/-- The failure that a task leaves. -/
def taskFailure (ps : Pipeline) (config : Config) (m : ModuleDescription) (i : Nat) :
    Option Failure :=
  (taskRun ps config m i).bind PipelineRun.noted?

/-- The texts of the errors that a task adds to the report. -/
def taskErrors (lang : Language) (ps : Pipeline) (config : Config) (m : ModuleDescription)
    (i : Nat) : List String :=
  Report.errorTexts lang (taskFailure ps config m i)

/-- **What a task does.** -/
theorem complete_eq (r : ModuleRun) (hr : r.module = m) (i : Nat) :
    r.complete ps config i =
      { r with
        dossiers := keep r.dossiers i (taskDossier ps config m i)
        summary := r.summary + taskSummary ps config m i
        failure := Failure.append r.failure (taskFailure ps config m i) } := by
  subst hr
  unfold complete taskDossier taskSummary taskFailure taskRun
  cases (r.module.entries[i]?).join with
  | none => simp [keep]
  | some f => exact record_eq r i (ps.run f config)

/-! ### All tasks -/

/-- What the tasks have done that have completed in the given order: each has left its
dossier at its position, and the failures stand in the order of completion. -/
structure Completed (ps : Pipeline) (config : Config) (m : ModuleDescription)
    (order : List Nat) (r : ModuleRun) : Prop where
  module : r.module = m
  dossiers : r.dossiers = (List.range m.entries.length).map fun i =>
    if i ∈ order then taskDossier ps config m i else none
  summary : r.summary = (order.map (taskSummary ps config m)).sum
  failure : Failure.partsOf r.failure =
    order.flatMap fun i => Failure.partsOf (taskFailure ps config m i)

theorem completed_start : Completed ps config m [] (start m) := by
  refine ⟨rfl, ?_, rfl, rfl⟩
  simp [start, List.map_const']

/-- **One more task.** -/
theorem Completed.complete {r : ModuleRun} (h : Completed ps config m order r) (i : Nat) :
    Completed ps config m (order ++ [i]) (r.complete ps config i) := by
  rw [complete_eq r h.module]
  refine ⟨h.module, ?_, ?_, ?_⟩
  · refine List.ext_getElem? fun j => ?_
    dsimp only
    rw [h.dossiers]
    cases hd : taskDossier ps config m i with
    | none =>
      rw [keep, List.getElem?_map, List.getElem?_map]
      refine congrFun (congrArg Option.map (funext fun j => ?_)) _
      by_cases hji : j = i
      · simp [hji, hd]
      · simp [hji]
    | some d =>
      rw [keep, List.getElem?_set]
      by_cases hij : i = j
      · subst hij
        by_cases hi : i < m.entries.length <;> simp [hi, hd]
      · rw [if_neg hij, List.getElem?_map, List.getElem?_map]
        by_cases hj : j < m.entries.length
        · simp [hj, Ne.symm hij]
        · simp [hj]
  · simp [h.summary]
  · rw [Failure.partsOf_append, h.failure, List.flatMap_append, List.flatMap_singleton]

/-- The last task completes after the others. -/
theorem inOrder_append_singleton (order : List Nat) (i : Nat) :
    inOrder ps config m (order ++ [i]) = (inOrder ps config m order).complete ps config i := by
  rw [inOrder, List.foldl_append, List.foldl_cons, List.foldl_nil]
  rfl

/-- **Any number of tasks.** -/
theorem completed_inOrder (ps : Pipeline) (config : Config) (m : ModuleDescription)
    (order : List Nat) : Completed ps config m order (inOrder ps config m order) := by
  induction order using List.reverseRecOn with
  | nil => exact completed_start
  | append_singleton order i ih =>
    rw [inOrder_append_singleton]
    exact ih.complete i

/-- The dossiers and the counts do not depend on the order. -/
theorem inOrder_eq_of_perm (hperm : order.Perm order') :
    inOrder ps config m order =
      { inOrder ps config m order' with failure := (inOrder ps config m order).failure } := by
  have h := completed_inOrder ps config m order
  have h' := completed_inOrder ps config m order'
  have hdossiers : (inOrder ps config m order).dossiers = (inOrder ps config m order').dossiers := by
    rw [h.dossiers, h'.dossiers]
    simp only [hperm.mem_iff]
  have hsummary : (inOrder ps config m order).summary = (inOrder ps config m order').summary := by
    rw [h.summary, h'.summary]
    exact (hperm.map _).sum_eq
  dsimp only
  rw [← hdossiers, ← hsummary, h'.module.trans h.module.symm]

/-- The errors stand in the order of completion. -/
theorem errorTexts_inOrder :
    Report.errorTexts lang (inOrder ps config m order).failure =
      order.flatMap (taskErrors lang ps config m) := by
  rw [Report.errorTexts, (completed_inOrder ps config m order).failure, List.map_flatMap]
  rfl

end ModuleRun

/-! ### Lists in any order -/

/-- Lists that can be put together in either order, pair by pair, can be put together in
any order. -/
theorem flatMap_eq_of_perm {α β : Type} {f : α → List β} {xs ys : List α} (hperm : xs.Perm ys)
    (h : ∀ x ∈ xs, ∀ y ∈ xs, f x ++ f y = f y ++ f x) : xs.flatMap f = ys.flatMap f := by
  induction hperm with
  | nil => rfl
  | cons x _ ih =>
    rw [List.flatMap_cons, List.flatMap_cons,
      ih fun y hy z hz => h y (List.mem_cons_of_mem _ hy) z (List.mem_cons_of_mem _ hz)]
  | swap x y l =>
    simp only [List.flatMap_cons, ← List.append_assoc]
    rw [h y (by simp) x (by simp)]
  | trans hxy _ ih₁ ih₂ =>
    rw [ih₁ h, ih₂ fun x hx y hy => h x (hxy.mem_iff.2 hx) y (hxy.mem_iff.2 hy)]

/-! ### Reports -/

/-- The bundles of a block can be listed if those of every schedule can. -/
theorem Dossier.Placed.exists_bundles {d : Dossier} (h : d.Placed) (b : BlockId) :
    ∃ bs, d.bundles b = .ok bs := by
  rw [bundles]
  cases hb : (d.schedules[b.toNat]?).join with
  | none => exact ⟨[], rfl⟩
  | some s =>
    have hs : some s ∈ d.schedules := List.mem_of_getElem? (Option.join_eq_some_iff.1 hb)
    exact (h s (List.mem_filterMap.2 ⟨some s, hs, rfl⟩)).exists_withDelaySlots _

/-- There is a report of a function whose schedules can be listed. -/
theorem FunctionReport.exists_ofDossier {d : Dossier} (lang : Language) (h : d.Placed) :
    ∃ report, ofDossier lang d = .ok report := by
  rw [ofDossier]
  cases d.graph with
  | none => exact ⟨_, rfl⟩
  | some g =>
    have hschedules : ∃ reports, ofSchedules g d = .ok reports := by
      refine Outcome.exists_mapM fun ⟨s, i⟩ hs => ?_
      obtain ⟨⟨entry, j⟩, hentry, hsome⟩ := List.mem_filterMap.1 hs
      obtain ⟨s', rfl, hsi⟩ := Option.map_eq_some_iff.1 hsome
      cases hsi
      have hplaced : s.Placed := h s (List.mem_filterMap.2
        ⟨some s, List.mem_of_getElem? (List.mk_mem_zipIdx_iff_getElem?.1 hentry), rfl⟩)
      obtain ⟨bs, hbs⟩ := h.exists_bundles i
      dsimp only
      rw [hplaced.noOps_eq, hbs]
      exact ⟨_, rfl⟩
    obtain ⟨reports, hreports⟩ := hschedules
    dsimp only
    rw [hreports]
    exact ⟨_, rfl⟩

/-- **There is a report** of a run whose dossiers have schedules that can be listed. -/
theorem Report.exists_ofRun {r : ModuleRun} (lang : Language)
    (h : ∀ d ∈ r.dossiers.filterMap id, d.Placed) : ∃ report, ofRun lang r = .ok report := by
  obtain ⟨reports, hreports⟩ :=
    Outcome.exists_mapM fun d hd => FunctionReport.exists_ofDossier lang (h d hd)
  rw [ofRun, hreports]
  exact ⟨_, rfl⟩

open ModuleRun

/-- **The report of a module and the order of completion.**  Let the tasks of a valid
module complete in any order.  The report is that of the run that takes one function
after the other, but for the errors, which stand in the order of completion.  It is the
same report in every order if and only if the errors of any two functions give the same
list in either order.  There is a report if the schedules of all functions that finish can
be listed. -/
theorem Report.ofRun_inOrder (lang : Language) (ps : Pipeline) (config : Config)
    {m : ModuleDescription} (hvalid : m.validate = .ok ()) :
    (∀ order, order.Perm (List.range m.entries.length) →
      Report.ofRun lang (inOrder ps config m order) =
        (Report.ofOutcome lang (ofModule ps config m)).map fun report =>
          { report with errors := order.flatMap (taskErrors lang ps config m) }) ∧
    (∀ report, Report.ofOutcome lang (ofModule ps config m) = .ok report →
      ((∀ order, order.Perm (List.range m.entries.length) →
          Report.ofRun lang (inOrder ps config m order) = .ok report) ↔
        ∀ i < m.entries.length, ∀ j < m.entries.length,
          taskErrors lang ps config m i ++ taskErrors lang ps config m j =
            taskErrors lang ps config m j ++ taskErrors lang ps config m i)) ∧
    ((∀ i < m.entries.length, ∀ d, taskDossier ps config m i = some d → d.Placed) →
      ∃ report, Report.ofOutcome lang (ofModule ps config m) = .ok report) := by
  have hrun : ofModule ps config m = .ok (inOrder ps config m (List.range m.entries.length)) := by
    rw [ofModule, hvalid]
    rfl
  rw [hrun]
  have hreport : ∀ order, order.Perm (List.range m.entries.length) →
      Report.ofRun lang (inOrder ps config m order) =
        (Report.ofRun lang (inOrder ps config m (List.range m.entries.length))).map fun report =>
          { report with errors := order.flatMap (taskErrors lang ps config m) } := by
    intro order hperm
    rw [inOrder_eq_of_perm hperm, ← errorTexts_inOrder, Report.ofRun, Report.ofRun]
    cases ((inOrder ps config m (List.range m.entries.length)).dossiers.filterMap id).mapM
      (FunctionReport.ofDossier lang) <;> rfl
  refine ⟨hreport, fun report hsome => ⟨fun hsame i hi j hj => ?_, fun hcomm order hperm => ?_⟩,
    fun hplaced => Report.exists_ofRun lang fun d hd => ?_⟩
  · by_cases hij : i = j
    · rw [hij]
    -- the two functions complete first, one way round and the other
    have hmem : ∀ k < m.entries.length, k ∈ List.range m.entries.length := fun k => List.mem_range.2
    have hperm : (i :: j :: ((List.range m.entries.length).erase i).erase j).Perm
        (List.range m.entries.length) :=
      ((List.perm_cons_erase ((List.mem_erase_of_ne (Ne.symm hij)).2 (hmem j hj))).symm.cons i).trans
        (List.perm_cons_erase (hmem i hi)).symm
    have herrors := (hsame _ hperm).trans (hsame _ ((List.Perm.swap _ _ _).trans hperm)).symm
    have hsome : Report.ofRun lang (inOrder ps config m (List.range m.entries.length)) =
      .ok report := hsome
    rw [hreport _ hperm, hreport _ ((List.Perm.swap _ _ _).trans hperm), hsome] at herrors
    have herrors := congrArg Report.errors (Except.ok.inj herrors)
    simp only [List.flatMap_cons, ← List.append_assoc] at herrors
    exact List.append_cancel_right herrors
  · rw [hreport order hperm, flatMap_eq_of_perm hperm fun i hi j hj =>
      hcomm i (by simpa using hperm.mem_iff.1 hi) j (by simpa using hperm.mem_iff.1 hj),
      ← hreport _ (List.Perm.refl _)]
    exact hsome
  · rw [(completed_inOrder ps config m _).dossiers, List.filterMap_map] at hd
    obtain ⟨i, hi, hd⟩ := List.mem_filterMap.1 hd
    exact hplaced i (List.mem_range.1 hi) d (by simpa [List.mem_range.1 hi] using hd)

/-- A function whose loop can be entered past its header. -/
def FunctionDescription.enteredTwice (name : String) : FunctionDescription where
  name := name
  blocks := some [some { name := "a", succs := ["b", "c"] }, some { name := "b", succs := ["c"] },
    some { name := "c", succs := ["b"] }]

/-- Two functions that fail, listed against the order of their names. -/
def ModuleDescription.bothFail : ModuleDescription where
  name := "m"
  functions := some [some (.enteredTwice "g"), some (.enteredTwice "f")]

/-- The report of `bothFail` tells in which order the two tasks have completed. -/
theorem Report.ofRun_inOrder_bothFail :
    ModuleDescription.bothFail.validate = .ok () ∧
      ∃ report, Report.ofOutcome .english (ofModule .standard {} .bothFail) = .ok report ∧
        Report.ofRun .english (inOrder .standard {} .bothFail [1, 0]) =
          .ok { report with
            errors := taskErrors .english .standard {} .bothFail 1 ++
              taskErrors .english .standard {} .bothFail 0 } ∧
        ¬ ∀ order, order.Perm (List.range 2) →
          Report.ofRun .english (inOrder .standard {} .bothFail order) = .ok report := by
  have hvalid : ModuleDescription.bothFail.validate = .ok () := by decide +kernel
  obtain ⟨hreport, hsame, hexists⟩ := Report.ofRun_inOrder .english .standard {} hvalid
  obtain ⟨report, hsome⟩ := hexists (by decide +kernel)
  refine ⟨hvalid, report, hsome, ?_, fun h => ?_⟩
  · have := hreport [1, 0] (by decide)
    rw [hsome] at this
    simpa [Except.map] using this
  · exact absurd ((hsame report hsome).1 h 0 (by decide) 1 (by decide)) (by decide +kernel)

end ConstantTime
