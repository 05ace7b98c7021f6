/-
# What a module run accounts for

"Single-Path Constant-Time Transformation Engine", §12.7.

When all tasks of a module are done the account is right, however their updates have come
between one another.  Every finished function has its dossier, and the counters are the sums of
what the runs add to them.  A function that has not finished leaves one failure, and so does one
that has if a schedule of it cannot be listed: it is then on both sides of the account
(`Recorded`).

So there is a dossier or one failure for every function, and the counters are the sums over the
dossiers (`Accounted`), if and only if the schedules of all finished functions can be listed
(`accounted_iff`), as they can after the passes of this library.

The sum of the contributions of all runs does not depend on the order in which they are
added, and each counter reads off its own part of it (`field_sum`).  The failures are those
of the runs in some order; a run leaves one, whatever its passes have put together
(`PipelineRun.parts_of_noted`).
-/

import ConstantTime.Proofs.Run.Updates
import Mathlib.Algebra.BigOperators.Group.Multiset.Basic

namespace ConstantTime

/-! ### One failure each -/

/-- A step that halts under a label leaves one failure, whatever it has put together. -/
theorem Halt.parts_failure_during (h : Halt) (label function : String) :
    ((h.during label).failure function).parts = [(h.during label).failure function] := by
  cases h <;> rfl

namespace Pipeline

variable {ps : Pipeline} {f : FunctionDescription} {config : Config} {r : PipelineRun} {e : Failure}

theorem parts_of_runFrom (hr : r.halt = none) (he : (ps.runFrom r).failure? = some e) :
    e.parts = [e] := by
  induction ps generalizing r with
  | nil =>
    rw [runFrom, PipelineRun.failure?, hr] at he
    cases he
  | cons p ps ih =>
    rw [runFrom] at he
    split at he
    · exact ih rfl he
    · cases he
      exact Halt.parts_failure_during ..

/-- **A function that fails leaves one failure.** -/
theorem parts_of_failure (he : (ps.run f config).failure? = some e) : e.parts = [e] :=
  parts_of_runFrom rfl he

end Pipeline

/-- And so does one whose counting breaks off. -/
theorem PipelineRun.parts_of_noted {run : PipelineRun} {e : Failure}
    (hown : ∀ e, run.failure? = some e → e.parts = [e]) (he : run.noted? = some e) :
    e.parts = [e] := by
  rcases Option.or_eq_some_iff.1 he with h | ⟨-, h⟩
  · exact hown e h
  · obtain ⟨d, -, h⟩ := Option.bind_eq_some_iff.1 h
    obtain ⟨text, -, rfl⟩ := Option.map_eq_some_iff.1 h
    rfl

namespace ModuleRun

/-! ### The account -/

/-- The dossiers of the functions that have finished. -/
def finished (r : ModuleRun) : List Dossier := r.dossiers.filterMap id

/-- **What is recorded**, whatever the passes leave: the dossiers that are kept, the failures
that are left, and what both count as.  A function is on both sides if it has finished with a
schedule that cannot be listed. -/
structure Recorded (runs : List PipelineRun) (r : ModuleRun) : Prop where
  dossiers : r.dossiers = runs.map PipelineRun.kept?
  noted : (Failure.partsOf r.failure).Perm (runs.filterMap PipelineRun.noted?)
  both : r.finished.length + (Failure.partsOf r.failure).length =
    runs.length + r.finished.countP fun d => ¬ d.Placed
  functions : r.summary.functions = Int64.ofNat r.finished.length
  failed : r.summary.failed = Int64.ofNat (Failure.partsOf r.failure).length
  softFailures : r.summary.softFailures = Int64.ofNat (r.finished.countP Dossier.softFailure)
  noCompensation : r.summary.noCompensation = Int64.ofNat (r.finished.countP (·.chose .none))
  counter : r.summary.counter = Int64.ofNat (r.finished.countP (·.chose .counter))
  opposite : r.summary.opposite = Int64.ofNat (r.finished.countP (·.chose .opposite))

/-- **The account is right**: for every function there is its dossier, if its run has
finished, or one failure, and the counters are what the dossiers and the failures add up to. -/
structure Accounted (runs : List PipelineRun) (r : ModuleRun) : Prop extends Recorded runs r where
  failures : (Failure.partsOf r.failure).Perm (runs.filterMap PipelineRun.failure?)
  everyone : r.finished.length + (Failure.partsOf r.failure).length = runs.length
  sum : r.summary.functions + r.summary.failed = Int64.ofNat runs.length
  bundles : r.summary.bundles = Int64.ofNat (r.finished.map (·.total Schedule.cycles)).sum
  noOps : ∃ ns, r.finished.mapM Dossier.noOps = .ok ns ∧ r.summary.noOps = Int64.ofNat ns.sum
  longInstructions : r.summary.longInstructions =
    Int64.ofNat (r.finished.map (·.total Schedule.longCount)).sum

variable {runs : List PipelineRun} {r : ModuleRun}

theorem finished_eq (hdossiers : r.dossiers = runs.map PipelineRun.kept?) :
    r.finished = runs.filterMap PipelineRun.kept? := by
  rw [finished, hdossiers, List.filterMap_map]
  rfl

section Counters

variable (field : Summary → Int64) (hzero : field 0 = 0)
  (hadd : ∀ a b, field (a + b) = field a + field b)
include hzero hadd

/-- A counter is the sum of what the runs add to it. -/
theorem field_sum {w : PipelineRun → Nat}
    (hw : ∀ run ∈ runs, field run.counted = Int64.ofNat (w run)) :
    field (runs.map PipelineRun.counted).sum = Int64.ofNat (runs.map w).sum := by
  induction runs with
  | nil => exact hzero
  | cons run runs ih =>
    rw [List.map_cons, List.sum_cons, hadd, hw run List.mem_cons_self,
      ih fun run' h => hw run' (List.mem_cons_of_mem _ h), List.map_cons, List.sum_cons,
      Int64.ofNat_add]

variable (hsummary : r.summary = (runs.map PipelineRun.counted).sum)
  (hdossiers : r.dossiers = runs.map PipelineRun.kept?) (hfail : field .ofFailure = 0)
include hsummary hdossiers hfail

/-- A counter to which only finished functions add is a sum over their dossiers. -/
theorem field_eq_sum {v : Dossier → Nat}
    (hv : ∀ d ∈ r.finished, field (Summary.ofDossier d).1 = Int64.ofNat (v d)) :
    field r.summary = Int64.ofNat (r.finished.map v).sum := by
  rw [finished_eq hdossiers] at hv ⊢
  rw [hsummary, field_sum field hzero hadd (w := fun run => run.kept?.elim 0 v) fun run hrun => ?_]
  · congr 1
    clear hsummary hdossiers hv
    induction runs with
    | nil => rfl
    | cons run runs ih => cases hrun : run.kept? <;> simp [hrun, ih]
  · have hnoted : field (if run.noted?.isSome then .ofFailure else 0) = 0 := by
      split
      · exact hfail
      · exact hzero
    rw [PipelineRun.counted, hadd, hnoted, Int64.add_zero]
    cases hkept : run.kept? with
    | none => exact hzero
    | some d => exact hv d (List.mem_filterMap.2 ⟨run, hrun, hkept⟩)

/-- A counter of the finished functions that are of a kind, to which schedules add nothing. -/
theorem field_eq_countP {P : Dossier → Bool}
    (hP : ∀ d, field d.ownCount = if P d then 1 else 0) (hschedules : ∀ bundles noOps long,
      field { bundles := bundles, noOps := noOps, longInstructions := long } = 0) :
    field r.summary = Int64.ofNat (r.finished.countP P) := by
  have hcount : ∀ ds : List Dossier, (ds.map fun d => if P d then 1 else 0).sum = ds.countP P := by
    intro ds
    induction ds with
    | nil => rfl
    | cons d ds ih => rw [List.map_cons, List.sum_cons, ih, List.countP_cons, Nat.add_comm]
  rw [← hcount]
  refine field_eq_sum field hzero hadd hsummary hdossiers hfail fun d _ => ?_
  obtain ⟨_, _, _, h⟩ := Summary.exists_ofSchedules_eq (d.schedules.filterMap id)
  rw [d.ofDossier_eq, hadd, hP, h, hschedules, Int64.add_zero]
  cases P d <;> rfl

end Counters

/-! ### Dossiers and failures -/

theorem length_noted (runs : List PipelineRun) :
    (runs.map fun run => if run.noted?.isSome then 1 else 0).sum =
      (runs.filterMap PipelineRun.noted?).length := by
  induction runs with
  | nil => rfl
  | cons run runs ih =>
    rw [List.map_cons, List.sum_cons, ih, List.filterMap_cons]
    cases run.noted? <;> simp [Nat.add_comm]

/-- Every run leaves a dossier or a failure, and some leave both. -/
theorem length_kept (runs : List PipelineRun) :
    (runs.filterMap PipelineRun.kept?).length + (runs.filterMap PipelineRun.noted?).length =
      runs.length + (runs.filterMap PipelineRun.kept?).countP fun d => ¬ d.Placed := by
  induction runs with
  | nil => rfl
  | cons run runs ih =>
    have hrun := run.kept?_add_noted?
    simp only [List.filterMap_eq_flatMap_toList, List.flatMap_cons, List.length_append,
      List.countP_append, List.length_cons] at ih ⊢
    omega

/-- The failures of runs that leave one each. -/
theorem sum_partsOf (hsingle : ∀ run ∈ runs, ∀ e, run.noted? = some e → e.parts = [e]) :
    (runs.map fun run => (Failure.partsOf run.noted? : Multiset Failure)).sum =
      runs.filterMap PipelineRun.noted? := by
  induction runs with
  | nil => rfl
  | cons run runs ih =>
    have ih := ih fun run hrun => hsingle run (List.mem_cons_of_mem _ hrun)
    rw [List.map_cons, List.sum_cons, ih, List.filterMap_cons]
    cases he : run.noted? with
    | none => exact zero_add _
    | some e =>
      rw [Failure.partsOf, hsingle run List.mem_cons_self e he]
      rfl

section Account

variable (hdossiers : r.dossiers = runs.map PipelineRun.kept?)
  (hsummary : r.summary = (runs.map PipelineRun.counted).sum)
  (hnoted : (Failure.partsOf r.failure).Perm (runs.filterMap PipelineRun.noted?))
include hdossiers hsummary hnoted

/-- What is recorded follows from the dossiers, the failures and the sum of the
contributions. -/
theorem recorded_of_eq : Recorded runs r := by
  have hfailed : r.summary.failed = Int64.ofNat (Failure.partsOf r.failure).length := by
    rw [hsummary, hnoted.length_eq, ← length_noted]
    refine field_sum Summary.failed rfl (fun _ _ => rfl) fun run _ => ?_
    have hkept : (run.kept?.elim 0 fun d => (Summary.ofDossier d).1).failed = 0 := by
      cases run.kept? with
      | none => rfl
      | some d =>
        obtain ⟨_, _, _, h⟩ := Summary.exists_ofSchedules_eq (d.schedules.filterMap id)
        rw [Option.elim_some, d.ofDossier_eq, h]
        rfl
    rw [PipelineRun.counted, Summary.add_def, Summary.add, hkept, Int64.zero_add]
    cases run.noted? <;> rfl
  have hfunctions : r.summary.functions = Int64.ofNat r.finished.length := by
    rw [← List.countP_true]
    exact field_eq_countP Summary.functions rfl (fun _ _ => rfl) hsummary hdossiers rfl
      (fun _ => rfl) fun _ _ _ => rfl
  exact {
    dossiers := hdossiers
    noted := hnoted
    both := by rw [finished_eq hdossiers, hnoted.length_eq, length_kept]
    functions := hfunctions
    failed := hfailed
    softFailures := field_eq_countP Summary.softFailures rfl (fun _ _ => rfl) hsummary hdossiers rfl
      (fun _ => rfl) fun _ _ _ => rfl
    noCompensation := field_eq_countP Summary.noCompensation rfl (fun _ _ => rfl) hsummary hdossiers
      rfl (fun _ => rfl) fun _ _ _ => rfl
    counter := field_eq_countP Summary.counter rfl (fun _ _ => rfl) hsummary hdossiers rfl
      (fun _ => rfl) fun _ _ _ => rfl
    opposite := field_eq_countP Summary.opposite rfl (fun _ _ => rfl) hsummary hdossiers rfl
      (fun _ => rfl) fun _ _ _ => rfl }

/-- **The account is right** if and only if the schedules of all finished functions can be
listed. -/
theorem accounted_iff : Accounted runs r ↔ ∀ d ∈ r.finished, d.Placed := by
  have hrecorded := recorded_of_eq hdossiers hsummary hnoted
  constructor
  · intro h d hd
    have hnone : r.finished.countP (fun d => ¬ d.Placed) = 0 := by
      have := h.both
      have := h.everyone
      omega
    simpa using List.countP_eq_zero.1 hnone d hd
  · intro h
    have hown : runs.filterMap PipelineRun.noted? = runs.filterMap PipelineRun.failure? := by
      refine List.filterMap_congr fun run hrun => ?_
      rw [PipelineRun.noted?, PipelineRun.brokeOff?_eq_none, Option.or_none]
      exact fun d hd => h d (finished_eq hdossiers ▸ List.mem_filterMap.2 ⟨run, hrun, hd⟩)
    have heveryone : r.finished.length + (Failure.partsOf r.failure).length = runs.length := by
      rw [hrecorded.both, List.countP_eq_zero.2 fun d hd => by simp [h d hd]]
      rfl
    exact {
      hrecorded with
      failures := hown ▸ hnoted
      everyone := heveryone
      sum := by rw [hrecorded.functions, hrecorded.failed, ← Int64.ofNat_add, heveryone]
      bundles := field_eq_sum Summary.bundles rfl (fun _ _ => rfl) hsummary hdossiers
        rfl fun d hd => by rw [(h d hd).ofDossier_eq]
      noOps := ⟨_, Outcome.mapM_eq_ok_map fun d hd => (h d hd).noOps_eq,
        field_eq_sum Summary.noOps rfl (fun _ _ => rfl) hsummary hdossiers
          rfl fun d hd => by rw [(h d hd).ofDossier_eq]⟩
      longInstructions := field_eq_sum Summary.longInstructions rfl (fun _ _ => rfl) hsummary
        hdossiers rfl fun d hd => by rw [(h d hd).ofDossier_eq] }

end Account

/-! ### What the updates add up to -/

/-- What an update adds to the counters. -/
def Update.counted : Update → Summary
  | .count s => s
  | .keep _ => 0
  | .fail _ => 0

/-- The failures that have been left, in any order. -/
def reported (r : ModuleRun) : Multiset Failure := Failure.partsOf r.failure

/-- What an update adds to the failures. -/
def Update.failures : Update → Multiset Failure
  | .fail e => e.parts
  | .keep _ => 0
  | .count _ => 0

theorem summary_apply (i : Nat) (r : ModuleRun) (u : Update) :
    (apply i r u).summary = r.summary + u.counted := by
  cases u with
  | keep => exact (add_zero _).symm
  | count => rfl
  | fail => exact (add_zero _).symm

theorem reported_apply (i : Nat) (r : ModuleRun) (u : Update) :
    (apply i r u).reported = r.reported + u.failures := by
  cases u with
  | keep => exact (add_zero _).symm
  | count => exact (add_zero _).symm
  | fail e => exact congrArg _ (Failure.partsOf_append r.failure (some e))

/-- The updates of a task add up to what its run adds to the counters. -/
theorem sum_counted (run : PipelineRun) :
    ((updates run).map Update.counted).sum = run.counted := by
  have hcounts : ∀ cs : List Summary, ((cs.map Update.count).map Update.counted).sum = cs.sum :=
    fun cs => by rw [List.map_map, show Update.counted ∘ Update.count = id from rfl, List.map_id]
  have hkept : ((run.kept?.elim [] fun d => Update.keep d :: d.counts.map .count).map
      Update.counted).sum = run.kept?.elim 0 fun d => (Summary.ofDossier d).1 := by
    cases run.kept? with
    | none => rfl
    | some d =>
      rw [Option.elim_some, List.map_cons, List.sum_cons, hcounts, Dossier.sum_counts]
      exact zero_add _
  rw [updates, List.map_append, List.sum_append, hkept, PipelineRun.counted]
  cases run.noted? <;> rfl

/-- They leave the failure of the run, if it leaves one. -/
theorem sum_failures (run : PipelineRun) : ((updates run).map Update.failures).sum =
    (Failure.partsOf run.noted? : Multiset Failure) := by
  have hcounts : ∀ cs : List Summary, ((cs.map Update.count).map Update.failures).sum = 0 := by
    intro cs
    induction cs with
    | nil => rfl
    | cons c cs ih => exact (zero_add _).trans ih
  have hkept : ((run.kept?.elim [] fun d => Update.keep d :: d.counts.map .count).map
      Update.failures).sum = 0 := by
    cases run.kept? with
    | none => rfl
    | some d => exact (zero_add _).trans (hcounts _)
  rw [updates, List.map_append, List.sum_append, hkept, zero_add]
  cases run.noted? with
  | none => rfl
  | some e => exact (zero_add _).trans (add_zero _)

variable {m : ModuleDescription} {ps : Pipeline} {config : Config} {fs : List FunctionDescription}

/-- **When all tasks are done** what they share is what the runs leave, whatever the order of
their updates. -/
theorem account_of_ends (hfs : m.entries = fs.map some) {r : ModuleRun}
    (h : AtWork.Ends m (fs.map (ps.run · config)) r) :
    Recorded (fs.map (ps.run · config)) r ∧
      (Accounted (fs.map (ps.run · config)) r ↔ ∀ d ∈ r.finished, d.Placed) := by
  obtain ⟨s, hsteps, hdone, rfl⟩ := h
  have hdossiers := (hsteps.inPlace (AtWork.inPlace_start (by simp [hfs]))).dossiers_eq hdone
  have hsingle : ∀ run ∈ fs.map (ps.run · config), ∀ e, run.noted? = some e → e.parts = [e] := by
    intro run hrun e he
    obtain ⟨f, -, rfl⟩ := List.mem_map.1 hrun
    exact PipelineRun.parts_of_noted (fun _ => Pipeline.parts_of_failure) he
  have hsummary : s.run.summary = ((fs.map (ps.run · config)).map PipelineRun.counted).sum := by
    rw [← funext sum_counted]
    exact hsteps.shared_eq summary_apply rfl hdone
  have hnoted : (Failure.partsOf s.run.failure).Perm
      ((fs.map (ps.run · config)).filterMap PipelineRun.noted?) := by
    rw [← Multiset.coe_eq_coe, ← sum_partsOf hsingle, ← funext sum_failures, ← reported]
    exact hsteps.shared_eq reported_apply rfl hdone
  exact ⟨recorded_of_eq hdossiers hsummary hnoted, accounted_iff hdossiers hsummary hnoted⟩

/-- The schedules of the finished functions can be listed if the passes leave only such. -/
theorem Recorded.placed {r : ModuleRun} (h : Recorded (fs.map (ps.run · config)) r)
    (hps : ∀ p ∈ ps, p.KeepsPlaced) : ∀ d ∈ r.finished, d.Placed := by
  intro d hd
  rw [finished_eq h.dossiers] at hd
  obtain ⟨run, hrun, hkept⟩ := List.mem_filterMap.1 hd
  obtain ⟨f, -, rfl⟩ := List.mem_map.1 hrun
  obtain ⟨-, hsame⟩ := Option.ite_none_right_eq_some.1 hkept
  exact Option.some.inj hsame ▸ Pipeline.placed_run hps f config

/-- Tasks that complete one after the other may end so. -/
theorem ends_inOrder (hfs : m.entries = fs.map some) {order : List Nat}
    (hperm : order.Perm (List.range m.entries.length)) :
    AtWork.Ends m (fs.map (ps.run · config)) (inOrder ps config m order) := by
  rw [hfs, List.length_map] at hperm
  refine ⟨_, AtWork.steps_inOrder hfs (hperm.nodup_iff.2 List.nodup_range)
    fun i hi => List.mem_range.1 (hperm.mem_iff.1 hi), fun us hus => ?_, rfl⟩
  obtain ⟨i, hi, rfl⟩ := List.mem_iff_getElem.1 hus
  have hlt : i < fs.length := by simpa [AtWork.without] using hi
  simp [AtWork.without, hperm.mem_iff.2 (List.mem_range.2 hlt)]

end ModuleRun

namespace ModuleDescription

theorem exists_of_checkFunctions {entries : Listing FunctionDescription} {seen : List String}
    {i : Nat} (h : checkFunctions seen i entries = .ok ()) :
    ∃ fs : List FunctionDescription, entries = fs.map some := by
  induction entries generalizing seen i with
  | nil => exact ⟨[], rfl⟩
  | cons e entries ih =>
    rw [checkFunctions, Outcome.bind_eq_ok] at h
    obtain ⟨name, he, hrest⟩ := h
    obtain ⟨fs, rfl⟩ := ih hrest
    cases e with
    | none => cases he
    | some f => exact ⟨f :: fs, rfl⟩

/-- A valid module describes every function that it lists. -/
theorem exists_functions {m : ModuleDescription} (h : m.validate = .ok ()) :
    ∃ fs : List FunctionDescription, m.entries = fs.map some :=
  exists_of_checkFunctions h

end ModuleDescription

namespace ModuleRun

/-- Three functions: the first finishes, the second fails and the third breaks off. -/
def mixed : List FunctionDescription :=
  [{ name := "f", blocks := some [some { name := "a" }] }, .enteredTwice "g",
    { name := "h", blocks := some [none] }]

end ModuleRun
end ConstantTime
