/-
# What reaches the reporter

"Single-Path Constant-Time Transformation Engine", §10.2.

The passes of a function may return several diagnostics together, and a module run puts
the failures of its functions together.  The reporter files one diagnostic for each part
of what it is given (`Reporter.filed_report`).  But a pipeline labels what a pass has
returned with the name of the pass, and a failure under a label is one part, whatever it
holds: of its diagnostics the first is filed (`Diagnostic.ofPart_context`).

What a failure has to tell are the failures put together in it, at the top and under
labels (`Failure.told`).  Nothing that a module run has to tell is lost if and only if none
of its functions has failed with more than one diagnostic (`ModuleRun.report_keeps_all_iff`).
-/

import ConstantTime.Diagnostic.Reporter
import ConstantTime.Proofs.Run.Accounting
import Mathlib.Algebra.Order.BigOperators.Group.List
import Mathlib.Algebra.Order.Group.Nat
import Mathlib.Data.List.Perm.Subperm

namespace ConstantTime

/-! ### What a failure has to tell -/

namespace Failure

variable {e : Failure}

/-- The failures put together in a failure, also under labels, each with its labels. -/
def told : Failure → List Failure
  | .plain s => [.plain s]
  | .finding f => [.finding f]
  | .caused f cause => [.caused f cause]
  | .context label inner => inner.told.map (.context label)
  | .both a b => a.told ++ b.told

theorem told_ne_nil (e : Failure) : e.told ≠ [] := by
  induction e with
  | context label inner ih => simpa [told] using ih
  | both a b iha _ => simp [told, iha]
  | _ => simp [told]

theorem length_told_pos (e : Failure) : 0 < e.told.length :=
  List.length_pos_iff.2 e.told_ne_nil

/-- A failure that tells one thing tells itself. -/
theorem told_eq_self (h : e.told.length ≤ 1) : e.told = [e] := by
  induction e with
  | context label inner ih =>
    rw [told, List.length_map] at h
    rw [told, ih h]
    rfl
  | both a b _ _ =>
    rw [told, List.length_append] at h
    have := a.length_told_pos
    have := b.length_told_pos
    omega
  | _ => rfl

/-- The first finding inside is that of the first failure told that has one. -/
theorem finding?_eq (e : Failure) : e.finding? = e.told.findSome? finding? := by
  induction e with
  | context label inner ih =>
    rw [finding?, ih, told, List.findSome?_map]
    rfl
  | both a b iha ihb => rw [finding?, iha, ihb, told, List.findSome?_append]
  | plain s => rfl
  | finding f => rfl
  | caused f cause => rfl

/-- Failures put together tell what each of them tells. -/
theorem told_combine {l : List Failure} (h : combine l = some e) :
    e.told = l.flatMap told := by
  have key : ∀ (l : List Failure) (acc : Option Failure),
      (l.foldl (fun acc e => append acc (some e)) acc).toList.flatMap told =
        acc.toList.flatMap told ++ l.flatMap told := by
    intro l
    induction l with
    | nil => simp
    | cons x xs ih =>
      intro acc
      rw [List.foldl_cons, ih]
      cases acc <;> simp [append, told]
  have := key l none
  rw [← combine, h] at this
  simpa using this

end Failure

namespace Diagnostic

@[simp] theorem finding?_failure (d : Diagnostic) :
    d.failure.finding? = some (d.finding, d.cause) := by
  cases d with
  | mk finding cause => cases cause <;> rfl

@[simp] theorem told_failure (d : Diagnostic) : d.failure.told = [d.failure] := by
  cases d with
  | mk finding cause => cases cause <;> rfl

/-- **What is filed for a part** is the first diagnostic that it tells. -/
theorem ofPart_context {e : Failure} {lang : Language} {d : Diagnostic} {ds : List Diagnostic}
    {label : String} (h : e.told = (d :: ds).map failure) : ofPart (.context label e) lang = d := by
  rw [ofPart, Failure.finding?, Failure.finding?_eq, h]
  simp

theorem ofPart_context_failure (label : String) (d : Diagnostic) (lang : Language) :
    ofPart (.context label d.failure) lang = d :=
  ofPart_context (show d.failure.told = [d].map failure from d.told_failure)

end Diagnostic

/-! ### The reporter -/

namespace Reporter

/-- All that has been filed, in the order in which it is written out. -/
def filed (r : Reporter) : List Diagnostic := r.warnings ++ r.errors

theorem filed_add (r : Reporter) (d : Diagnostic) : (r.add d).filed.Perm (r.filed ++ [d]) := by
  rw [add, filed, filed]
  split
  · simp
  · rw [List.append_assoc, List.append_assoc]
    exact List.perm_append_comm.append_left r.warnings

/-- **A report files one diagnostic for each part.** -/
theorem filed_report (r : Reporter) (lang : Language) (e : Option Failure) :
    (r.report lang e).filed.Perm
      (r.filed ++ (Failure.partsOf e).map (Diagnostic.ofPart · lang)) := by
  rw [report]
  induction Failure.partsOf e generalizing r with
  | nil => simp
  | cons p ps ih =>
    rw [List.foldl_cons, List.map_cons]
    refine (ih _).trans (((filed_add r _).append_right _).trans ?_)
    simp

end Reporter

/-! ### The runs of functions -/

namespace PipelineRun

/-- The diagnostics that a run has to tell: those of the failure that it leaves. -/
def diagnostics (lang : Language) (run : PipelineRun) : List Diagnostic :=
  run.noted?.toList.flatMap fun e => e.told.map (Diagnostic.ofPart · lang)

/-- The diagnostic that is filed for a run. -/
def filed? (lang : Language) (run : PipelineRun) : Option Diagnostic :=
  run.noted?.map (Diagnostic.ofPart · lang)

variable {lang : Language} {run : PipelineRun}

theorem length_filed?_le : (run.filed? lang).toList.length ≤ (run.diagnostics lang).length := by
  rw [filed?, diagnostics]
  cases run.noted? with
  | none => simp
  | some e => simpa using Nat.succ_le_of_lt e.length_told_pos

theorem diagnostics_eq (h : (run.diagnostics lang).length ≤ 1) :
    run.diagnostics lang = (run.filed? lang).toList := by
  rw [diagnostics] at h ⊢
  rw [filed?]
  cases he : run.noted? with
  | none => rfl
  | some e =>
    have := Failure.told_eq_self (e := e) (by simpa [he] using h)
    simp [this]

end PipelineRun

namespace Pipeline

variable {ps : Pipeline} {f : FunctionDescription} {config : Config}

/-- The passes before the last one that is started have finished, and that one returns a
failure. -/
def Returns (ps : Pipeline) (f : FunctionDescription) (config : Config) (p : Pass)
    (e : Failure) : Prop :=
  ∃ before after d d', ps = before ++ p :: after ∧
    before.run f config = { dossier := d, started := before.length } ∧
    p.run d = (d', some (.failed e))

/-- The passes of a pipeline that finishes can be followed by others. -/
theorem runFrom_append {before after : Pipeline} {r : PipelineRun}
    (h : (before.runFrom r).halt = none) :
    Pipeline.runFrom (before ++ after) r = after.runFrom (before.runFrom r) := by
  induction before generalizing r with
  | nil => rfl
  | cons p before ih =>
    rw [runFrom] at h
    rw [List.cons_append, runFrom, runFrom]
    split at h
    · exact ih h
    · cases h

/-- **What a pass returns** is the failure of the function, under the name of the pass. -/
theorem Returns.noted?_eq {p : Pass} {e : Failure} (h : ps.Returns f config p e) :
    (ps.run f config).noted? = some (.context p.name e) := by
  obtain ⟨before, after, d, d', rfl, hbefore, hp⟩ := h
  rw [run] at hbefore
  rw [run, runFrom_append (by rw [hbefore]), hbefore, runFrom, hp]
  rfl

/-- Diagnostics that a pass returns together are to be told; the first of them is filed. -/
theorem Returns.diagnostics_eq {p : Pass} {e : Failure} {d : Diagnostic} {ds : List Diagnostic}
    (lang : Language) (h : ps.Returns f config p e)
    (he : Failure.combine ((d :: ds).map Diagnostic.failure) = some e) :
    (ps.run f config).diagnostics lang = d :: ds ∧ (ps.run f config).filed? lang = some d := by
  have htold : e.told = (d :: ds).map Diagnostic.failure := by
    rw [Failure.told_combine he, List.flatMap_map, List.map_eq_flatMap]
    simp only [Diagnostic.told_failure]
  rw [PipelineRun.diagnostics, PipelineRun.filed?, h.noted?_eq]
  refine ⟨?_, congrArg some (Diagnostic.ofPart_context htold)⟩
  simp [Failure.told, htold, Diagnostic.ofPart_context_failure, Function.comp_def]

end Pipeline

/-! ### The run of a module -/

namespace ModuleRun

variable {ps : Pipeline} {config : Config} {m : ModuleDescription} {order : List Nat}

/-- The parts of the failure of a module run are the failures of its functions. -/
theorem partsOf_inOrder : Failure.partsOf (inOrder ps config m order).failure =
    (order.filterMap (taskRun ps config m)).filterMap PipelineRun.noted? := by
  rw [(completed_inOrder ps config m order).failure]
  induction order with
  | nil => rfl
  | cons i order ih =>
    rw [List.flatMap_cons, ih, taskFailure, taskRun]
    cases hf : (m.entries[i]?).join with
    | none => simp [taskRun, hf, Failure.partsOf]
    | some f =>
      cases he : (ps.run f config).noted? with
      | none => simp [taskRun, hf, he, Failure.partsOf]
      | some e =>
        have hone := PipelineRun.parts_of_noted (fun _ => Pipeline.parts_of_failure) he
        simp [taskRun, hf, he, Failure.partsOf, hone]

/-- **What of a module run reaches the reporter.**  Let the functions of a module be analysed
in any order, and let the failure of the run be reported.

* If a pass returns `d :: ds` together, these are the diagnostics of its function, and `d` is
  filed for it.
* Besides what was filed before, there is one diagnostic for each function that leaves a failure.
* Nothing is lost if and only if no function has more than one diagnostic. -/
theorem report_keeps_all_iff (lang : Language) (ps : Pipeline) (config : Config)
    (m : ModuleDescription) (order : List Nat) (r : Reporter) :
    let runs := order.filterMap (taskRun ps config m)
    let after := r.report lang (inOrder ps config m order).failure
    (∀ f p e d ds, ps.Returns f config p e →
      Failure.combine ((d :: ds).map Diagnostic.failure) = some e →
        (ps.run f config).diagnostics lang = d :: ds ∧ (ps.run f config).filed? lang = some d) ∧
    after.filed.Perm (r.filed ++ runs.filterMap (PipelineRun.filed? lang)) ∧
    ((r.filed ++ runs.flatMap (PipelineRun.diagnostics lang)).Subperm after.filed ↔
      ∀ run ∈ runs, (run.diagnostics lang).length ≤ 1) := by
  intro runs after
  have hfiled : after.filed.Perm (r.filed ++ runs.filterMap (PipelineRun.filed? lang)) := by
    refine (r.filed_report lang _).trans ?_
    rw [partsOf_inOrder, List.map_filterMap]
    rfl
  refine ⟨fun f p e d ds h he => h.diagnostics_eq lang he, hfiled, ?_, ?_⟩
  · intro hkept
    by_contra hmore
    push Not at hmore
    -- a function with two diagnostics would make more of them than are filed
    have hlt : (runs.map fun run => (run.filed? lang).toList.length).sum <
        (runs.map fun run => (run.diagnostics lang).length).sum := by
      obtain ⟨run, hrun, htwo⟩ := hmore
      refine List.sum_lt_sum _ _ (fun run _ => PipelineRun.length_filed?_le) ⟨run, hrun, ?_⟩
      exact lt_of_le_of_lt Option.length_toList_le htwo
    have hle := hkept.length_le
    rw [hfiled.length_eq, List.filterMap_eq_flatMap_toList] at hle
    simp only [List.length_append, List.length_flatMap] at hle
    omega
  · intro hone
    have hall : runs.flatMap (PipelineRun.diagnostics lang) =
        runs.filterMap (PipelineRun.filed? lang) := by
      rw [List.filterMap_eq_flatMap_toList]
      exact List.flatMap_congr fun run hrun => PipelineRun.diagnostics_eq (hone run hrun)
    rw [hall]
    exact hfiled.symm.subperm

end ModuleRun

/-- Two blocks with an instruction whose result takes too long for any schedule. -/
def FunctionDescription.neverReady : FunctionDescription where
  name := "f"
  blocks := some [some { name := "a", succs := ["b"], instrs := [some { latency := 2 ^ 63 - 1 }] },
    some { name := "b", instrs := [some { latency := 2 ^ 63 - 1 }] }]

/-- What is to be told about a block of `neverReady`. -/
def Diagnostic.neverReady (block : String) : Diagnostic where
  finding := (Cause.schedulingFailed .unschedulable).finding.inFunction "f" |>.atBlock block
  cause := some (.finding (Cause.unscheduled 1 1 (-2 ^ 63 + 1)).finding)

open ModuleRun in
/-- The blocks of `neverReady` have no schedules, but only of the first is it reported. -/
theorem ModuleRun.report_keeps_all_iff_neverReady :
    let m : ModuleDescription := { name := "m", functions := some [some .neverReady] }
    let run := Pipeline.standard.run .neverReady {}
    let after := ({} : Reporter).report .english (inOrder .standard {} m [0]).failure
    m.validate = .ok () ∧ run.diagnostics .english = [.neverReady "a", .neverReady "b"] ∧
      after.filed = [.neverReady "a"] ∧ ¬ (run.diagnostics .english).Subperm after.filed := by
  intro m run after
  let before : Pipeline := Pipeline.standard.dropLast
  have hreturns : Pipeline.standard.Returns .neverReady {} Pass.schedule
      (.both (Diagnostic.neverReady "a").failure (Diagnostic.neverReady "b").failure) :=
    ⟨before, [], (before.run .neverReady {}).dossier,
      (Pass.schedule.run (before.run .neverReady {}).dossier).1, rfl, by decide +kernel,
      by decide +kernel⟩
  obtain ⟨htold, hfiled, hlost⟩ :=
    report_keeps_all_iff .english Pipeline.standard {} m [0] ({} : Reporter)
  obtain ⟨htwo, hone⟩ := htold _ _ _ (.neverReady "a") [.neverReady "b"] hreturns rfl
  have hruns : [0].filterMap (taskRun .standard {} m) = [run] := rfl
  rw [hruns] at hfiled hlost
  have hafter : after.filed = [.neverReady "a"] := by
    refine List.perm_singleton.1 (hfiled.trans ?_)
    simp [Reporter.filed, run, hone]
  refine ⟨by decide +kernel, htwo, hafter, fun hkept => ?_⟩
  have := hlost.1 (by simpa [Reporter.filed] using hkept) run (by simp)
  rw [htwo] at this
  simp at this

end ConstantTime
