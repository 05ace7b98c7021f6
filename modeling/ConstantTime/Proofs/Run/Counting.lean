/-
# What a run counts as

The counters are added up one by one: a finished function adds one, what was chosen for it,
and three numbers for each of its schedules (`Dossier.counts`).  Counting breaks off at the
first schedule that has something at a position below zero.  Then what came before it has been
counted, and so have its bundles, but nothing after them (`Summary.ofSchedules_break`), and the
function leaves a failure although its dossier is kept (`PipelineRun.noted?`).

So a run leaves a dossier, a failure, or both: it leaves both if and only if it has finished
with a dossier that is not placed (`PipelineRun.brokeOff?_isSome`).  The passes of this library
leave only placed dossiers (`Pass.keepsPlaced_of_mem`).
-/

import ConstantTime.Proofs.Run.Dossier
import ConstantTime.Proofs.Schedule.Issue
import ConstantTime.Proofs.Word
import ConstantTime.Run.Module
import Mathlib.Algebra.BigOperators.Group.List.Basic
import Mathlib.Algebra.GroupWithZero.Nat

namespace ConstantTime

/-! ### Counts -/

namespace Summary

instance : Zero Summary := ⟨{}⟩

instance : Add Summary := ⟨add⟩

theorem zero_def : (0 : Summary) = {} := rfl

theorem add_def (a b : Summary) : a + b = a.add b := rfl

instance : AddCommMonoid Summary where
  add_assoc a b c := by simp only [add_def, add, Int64.add_assoc]
  zero_add a := by simp [add_def, zero_def, add]
  add_zero a := by simp [add_def, zero_def, add]
  add_comm a b := by simp only [add_def, add, Int64.add_comm]
  nsmul := nsmulRec

/-- What a chosen compensation counts as. -/
def ofStrategy : Strategy → Summary
  | .none => { noCompensation := 1 }
  | .counter => { counter := 1 }
  | .opposite => { opposite := 1 }

end Summary

/-- What schedules add to the counters, one after the other, up to the first whose no-ops
cannot be counted. -/
def Schedule.counts : List Schedule → List Summary
  | [] => []
  | s :: rest =>
    { bundles := Int64.ofNat s.cycles } ::
      match s.noOps with
      | .error _ => []
      | .ok noOps =>
        { noOps := Int64.ofNat noOps } :: { longInstructions := Int64.ofNat s.longCount } ::
          counts rest

namespace Summary

variable {l before after : List Schedule} {s : Schedule}

/-- **The counts of schedules add up** to what is said of them together. -/
theorem sum_scheduleCounts (l : List Schedule) : (Schedule.counts l).sum = (ofSchedules l).1 := by
  induction l with
  | nil => rfl
  | cons s l ih =>
    rw [Schedule.counts, ofSchedules]
    cases s.noOps with
    | error text => exact add_zero _
    | ok noOps =>
      rw [List.sum_cons, List.sum_cons, List.sum_cons, ih, ← add_assoc, ← add_assoc]
      simp [add_def, add]

/-- Schedules add to three of the counters. -/
theorem exists_ofSchedules_eq (l : List Schedule) : ∃ bundles noOps long,
    (ofSchedules l).1 = { bundles := bundles, noOps := noOps, longInstructions := long } := by
  induction l with
  | nil => exact ⟨0, 0, 0, rfl⟩
  | cons s l ih =>
    rw [ofSchedules]
    cases s.noOps with
    | error text => exact ⟨Int64.ofNat s.cycles, 0, 0, rfl⟩
    | ok noOps =>
      obtain ⟨bundles, n, long, h⟩ := ih
      refine ⟨Int64.ofNat s.cycles + bundles, Int64.ofNat noOps + n,
        Int64.ofNat s.longCount + long, ?_⟩
      dsimp only
      rw [h]
      simp [add]

/-- **Schedules that can be listed** count with their totals. -/
theorem ofSchedules_eq (h : ∀ s ∈ l, s.Placed) : ofSchedules l =
    ({ bundles := Int64.ofNat (l.map Schedule.cycles).sum
       noOps := Int64.ofNat (l.map Schedule.idleRows).sum
       longInstructions := Int64.ofNat (l.map Schedule.longCount).sum }, none) := by
  induction l with
  | nil => rfl
  | cons s l ih =>
    rw [ofSchedules, (h s List.mem_cons_self).noOps_eq,
      ih fun s' hs' => h s' (List.mem_cons_of_mem _ hs')]
    simp [add, Int64.ofNat_add]

/-- **Counting breaks off** at the first schedule that cannot be listed, after its bundles. -/
theorem ofSchedules_break (hbefore : ∀ s ∈ before, s.Placed) (hs : ¬ s.Placed) :
    ∃ text, s.noOps = .error text ∧ ofSchedules (before ++ s :: after) =
      ((ofSchedules before).1 + { bundles := Int64.ofNat s.cycles }, some text) := by
  obtain ⟨text, htext⟩ := Schedule.exists_noOps_eq_error hs
  refine ⟨text, htext, ?_⟩
  induction before with
  | nil => simp only [List.nil_append, ofSchedules, htext, ← zero_def, zero_add]
  | cons s' before ih =>
    simp only [List.cons_append, ofSchedules, (hbefore s' List.mem_cons_self).noOps_eq,
      ih fun s hs => hbefore s (List.mem_cons_of_mem _ hs), ← add_def, add_assoc]

/-- Nothing is said if and only if every schedule can be listed. -/
theorem ofSchedules_snd_eq_none_iff : (ofSchedules l).2 = none ↔ ∀ s ∈ l, s.Placed := by
  refine ⟨fun h => ?_, fun h => by rw [ofSchedules_eq h]⟩
  induction l with
  | nil => simp
  | cons s l ih =>
    by_cases hs : s.Placed
    · rw [ofSchedules, hs.noOps_eq] at h
      exact List.forall_mem_cons.2 ⟨hs, ih h⟩
    · obtain ⟨text, htext⟩ := Schedule.exists_noOps_eq_error hs
      rw [ofSchedules, htext] at h
      cases h

end Summary

/-! ### Dossiers -/

namespace Dossier

variable {d : Dossier}

/-- Was the compensation chosen? -/
def chose (s : Strategy) (d : Dossier) : Bool := d.decision.any fun r => r.strategy = s

/-- The bundles of every schedule can be listed. -/
def Placed (d : Dossier) : Prop := ∀ s ∈ d.schedules.filterMap id, s.Placed

instance : Decidable d.Placed :=
  inferInstanceAs (Decidable (∀ s ∈ d.schedules.filterMap id, s.Placed))

/-- A number over the schedules of all blocks that have one. -/
def total (count : Schedule → Nat) (d : Dossier) : Nat := ((d.schedules.filterMap id).map count).sum

/-- The no-ops of all schedules. -/
def noOps (d : Dossier) : Except String Nat :=
  ((d.schedules.filterMap id).mapM Schedule.noOps).map List.sum

/-- What a finished function counts as besides its schedules. -/
def ownCount (d : Dossier) : Summary where
  functions := 1
  softFailures := if d.softFailure then 1 else 0
  noCompensation := if d.chose .none then 1 else 0
  counter := if d.chose .counter then 1 else 0
  opposite := if d.chose .opposite then 1 else 0

/-- What a dossier adds to the counters, one after the other. -/
def counts (d : Dossier) : List Summary :=
  [{ functions := 1 }] ++ (if d.softFailure then [{ softFailures := 1 }] else []) ++
    (d.decision.map fun r => Summary.ofStrategy r.strategy).toList ++
    Schedule.counts (d.schedules.filterMap id)

theorem Placed.noOps_eq (h : d.Placed) : d.noOps = .ok (d.total Schedule.idleRows) := by
  rw [noOps, Outcome.mapM_eq_ok_map fun s hs => (h s hs).noOps_eq]
  rfl

theorem sum_ofStrategy (d : Dossier) :
    ((d.decision.map fun r => Summary.ofStrategy r.strategy).toList).sum =
      { noCompensation := if d.chose .none then 1 else 0
        counter := if d.chose .counter then 1 else 0
        opposite := if d.chose .opposite then 1 else 0 } := by
  unfold chose
  cases d.decision with
  | none => rfl
  | some r => cases h : r.strategy <;> simp [h, Summary.ofStrategy]

/-- A finished function counts by itself and with its schedules. -/
theorem ofDossier_eq (d : Dossier) : Summary.ofDossier d =
    (d.ownCount + (Summary.ofSchedules (d.schedules.filterMap id)).1,
      (Summary.ofSchedules (d.schedules.filterMap id)).2) := rfl

/-- **The counts of a dossier add up to its summary.** -/
theorem sum_counts (d : Dossier) : d.counts.sum = (Summary.ofDossier d).1 := by
  have hsoft : (if d.softFailure then [({ softFailures := 1 } : Summary)] else []).sum =
      { softFailures := if d.softFailure then 1 else 0 } := by
    cases d.softFailure <;> rfl
  rw [counts, List.sum_append, List.sum_append, List.sum_append, List.sum_singleton, hsoft,
    sum_ofStrategy, Summary.sum_scheduleCounts, ofDossier_eq]
  simp [Summary.add_def, Summary.add, ownCount]

/-- **If its schedules can be listed** it counts with their totals, and nothing is said. -/
theorem Placed.ofDossier_eq (h : d.Placed) : Summary.ofDossier d =
    ({ d.ownCount with
       bundles := Int64.ofNat (d.total Schedule.cycles)
       noOps := Int64.ofNat (d.total Schedule.idleRows)
       longInstructions := Int64.ofNat (d.total Schedule.longCount) }, none) := by
  rw [Dossier.ofDossier_eq, Summary.ofSchedules_eq h]
  simp [Summary.add_def, Summary.add, ownCount, total]

/-- Counting a dossier breaks off if and only if a schedule cannot be listed. -/
theorem ofDossier_snd_eq_none_iff : (Summary.ofDossier d).2 = none ↔ d.Placed :=
  Summary.ofSchedules_snd_eq_none_iff

end Dossier

/-! ### Runs -/

namespace PipelineRun

variable {run : PipelineRun}

/-- The dossier of a run that has finished. -/
def kept? (run : PipelineRun) : Option Dossier :=
  if run.halt.isNone then some run.dossier else none

/-- The failure of counting a run that has finished. -/
def brokeOff? (run : PipelineRun) : Option Failure :=
  run.kept?.bind fun d => (Summary.ofDossier d).2.map fun text =>
    (Halt.brokeOff text).failure d.name

/-- The failure that a run leaves: its own, or that of counting it. -/
def noted? (run : PipelineRun) : Option Failure := run.failure?.or run.brokeOff?

/-- What a run adds to the counters. -/
def counted (run : PipelineRun) : Summary :=
  (run.kept?.elim 0 fun d => (Summary.ofDossier d).1) +
    if run.noted?.isSome then .ofFailure else 0

/-- Counting breaks off for the finished runs that leave a schedule that cannot be listed. -/
theorem brokeOff?_isSome : run.brokeOff?.isSome = run.kept?.any fun d => ¬ d.Placed := by
  rw [brokeOff?]
  cases run.kept? with
  | none => rfl
  | some d =>
    by_cases h : d.Placed
    · simp [Dossier.ofDossier_snd_eq_none_iff.2 h, h]
    · obtain ⟨text, htext⟩ :=
        Option.ne_none_iff_exists'.1 (mt Dossier.ofDossier_snd_eq_none_iff.1 h)
      simp [htext, h]

theorem brokeOff?_eq_none (h : ∀ d, run.kept? = some d → d.Placed) : run.brokeOff? = none := by
  rw [← Option.not_isSome_iff_eq_none, brokeOff?_isSome]
  cases hkept : run.kept? with
  | none => simp
  | some d => simp [h d hkept]

/-- **A run is kept or fails**, and it leaves two things if counting it breaks off. -/
theorem kept?_add_noted? (run : PipelineRun) :
    run.kept?.toList.length + run.noted?.toList.length =
      1 + run.kept?.toList.countP fun d => ¬ d.Placed := by
  have hbroke := run.brokeOff?_isSome
  rw [noted?, failure?]
  rw [kept?] at hbroke ⊢
  cases hhalt : run.halt with
  | some h => simp
  | none =>
    rw [hhalt] at hbroke
    cases hb : run.brokeOff? with
    | none => simpa [hb] using hbroke.symm
    | some e =>
      have hd : ¬ run.dossier.Placed := by simpa [hb] using hbroke.symm
      simp [hd]

end PipelineRun

namespace ModuleRun

/-- Writes a dossier at a position, if there is one. -/
def keep (dossiers : List (Option Dossier)) (i : Nat) : Option Dossier → List (Option Dossier)
  | none => dossiers
  | some d => dossiers.set i (some d)

/-- **What is recorded of a run** is what it leaves. -/
theorem record_eq (r : ModuleRun) (i : Nat) (run : PipelineRun) :
    r.record i run =
      { r with
        dossiers := keep r.dossiers i run.kept?
        summary := r.summary + run.counted
        failure := Failure.append r.failure run.noted? } := by
  unfold record PipelineRun.counted PipelineRun.noted? PipelineRun.brokeOff? PipelineRun.kept?
    PipelineRun.failure?
  cases run.halt with
  | some h => simp [fail, keep, ← Summary.add_def]
  | none =>
    cases hcount : Summary.ofDossier run.dossier with
    | mk counted halt =>
      cases halt with
      | none => simp [hcount, keep, ← Summary.add_def]
      | some text => simp [hcount, fail, keep, ← Summary.add_def, add_assoc]

end ModuleRun

/-! ### What the passes leave -/

namespace Pass

variable {d : Dossier}

/-- The pass leaves no schedule that cannot be listed if there was none before. -/
def KeepsPlaced (p : Pass) : Prop := ∀ d : Dossier, d.Placed → (p.run d).1.Placed

/-- A block has the schedule that was found for it. -/
theorem schedule_eq_of_scheduleOf {g : Graph} {b : BlockId} {s : Schedule}
    (h : (scheduleOf d g b).1 = some s) :
    (d.issueProblem g b (d.instrsOf b)).schedule = .ok s := by
  unfold scheduleOf at h
  split at h
  · next s' hs' =>
    cases h
    rw [scheduleBlock, Outcome.bind_eq_ok] at hs'
    obtain ⟨found, hfound, hchecked⟩ := hs'
    -- a check that fails leaves no schedule
    have hsame : found = s := by
      dsimp only at hchecked
      split at hchecked
      · split at hchecked <;> cases hchecked
        rfl
      · cases hchecked
        rfl
    rw [hfound, hsame]
  · cases h

/-- **The schedules of the last pass can be listed.** -/
theorem keepsPlaced_schedule : schedule.KeepsPlaced := by
  intro d hd
  refine onGraph_induction hd fun g => ?_
  dsimp only
  split
  · exact hd
  · intro s hs
    rw [List.filterMap_map, List.filterMap_map] at hs
    obtain ⟨b, -, hb⟩ := List.mem_filterMap.1 hs
    exact IssueProblem.placed_schedule (schedule_eq_of_scheduleOf hb)

/-- **No pass of the whole analysis** leaves a schedule that cannot be listed: only the last
one writes schedules. -/
theorem keepsPlaced_of_mem {p : Pass} (hp : p ∈ Pipeline.standard) : p.KeepsPlaced := by
  intro d hd
  have key : ∀ d' : Dossier, d'.schedules = d.schedules → d'.Placed := fun d' h => by
    rw [Dossier.Placed, h]
    exact hd
  simp only [Pipeline.standard, List.mem_cons, List.not_mem_nil, or_false] at hp
  rcases hp with rfl | rfl | rfl | rfl | rfl | rfl | rfl
  · unfold loops
    dsimp only
    split
    · exact hd
    · exact adding_induction hd fun bounds => key _ rfl
  · refine onGraph_induction hd fun g => adding_induction hd fun m => ?_
    dsimp only
    split
    · exact key _ rfl
    · rw [verified_fst]
      exact key _ rfl
  · refine onGraph_induction hd fun g => adding_induction hd fun m => ?_
    rw [verified_fst]
    exact key _ rfl
  · exact onGraph_induction hd fun g => adding_induction hd fun p => adding_induction hd fun deps =>
      key _ rfl
  · refine onGraph_induction hd fun g => ?_
    dsimp only
    split
    · exact hd
    · split
      · exact hd
      · exact key _ rfl
  · refine onGraph_induction hd fun g => ?_
    dsimp only
    split
    · exact hd
    · exact adding_induction hd fun r => key _ rfl
  · exact keepsPlaced_schedule d hd

end Pass

namespace Pipeline

variable {ps : Pipeline}

/-- **What a pipeline leaves** can be listed if what its passes leave can. -/
theorem placed_run (h : ∀ p ∈ ps, p.KeepsPlaced) (f : FunctionDescription) (config : Config) :
    (ps.run f config).dossier.Placed :=
  runFrom_induction h (by simp [Dossier.Placed])

end Pipeline
end ConstantTime
