/-
# Tasks at work

Every function of a module is a task of its own.  A task that has finished leaves its dossier
at the position of the function and then adds to one counter after the other; a task that has
not, or whose counting breaks off, counts itself as failed and leaves a failure (`updates`).
Between the updates of one task those of other tasks may be made, in any order (`Step`).

No update is lost or made twice: what the tasks share and what they have still to add to it make
the same total before and after every step, whatever is added up (`Step.total_eq`), and what a
task has left at its position stays there (`Step.inPlace`).

Tasks that complete one after the other, in whatever order, are one way to take the steps
(`steps_inOrder`).
-/

import ConstantTime.Proofs.Run.Interleaving
import Mathlib.Logic.Relation

namespace ConstantTime

namespace ModuleRun

/-- One change of what the tasks share, made at once. -/
inductive Update where
  /-- A dossier at the position of the task. -/
  | keep (d : Dossier)
  /-- Something on top of a counter. -/
  | count (s : Summary)
  /-- A failure after the others. -/
  | fail (e : Failure)

/-- What an update of the task at a position changes. -/
def apply (i : Nat) (r : ModuleRun) : Update → ModuleRun
  | .keep d => { r with dossiers := r.dossiers.set i (some d) }
  | .count s => { r with summary := r.summary + s }
  | .fail e => { r with failure := Failure.append r.failure (some e) }

/-- The updates that a task makes when its run is over, in this order. -/
def updates (run : PipelineRun) : List Update :=
  (run.kept?.elim [] fun d => .keep d :: d.counts.map .count) ++
    run.noted?.elim [] fun e => [.count .ofFailure, .fail e]

theorem foldl_apply_count {i : Nat} (cs : List Summary) (r : ModuleRun) :
    (cs.map Update.count).foldl (apply i) r = { r with summary := r.summary + cs.sum } := by
  induction cs generalizing r with
  | nil => simp
  | cons c cs ih =>
    rw [List.map_cons, List.foldl_cons, ih, apply, List.sum_cons, add_assoc]

/-- **Made one after the other** the updates are what the run is recorded with. -/
theorem foldl_updates (i : Nat) (r : ModuleRun) (run : PipelineRun) :
    (updates run).foldl (apply i) r = r.record i run := by
  have hkept : (run.kept?.elim [] fun d => .keep d :: d.counts.map .count).foldl (apply i) r =
      { r with
        dossiers := keep r.dossiers i run.kept?
        summary := r.summary + run.kept?.elim 0 fun d => (Summary.ofDossier d).1 } := by
    cases run.kept? with
    | none => simp [keep]
    | some d => simp [foldl_apply_count, Dossier.sum_counts, apply, keep]
  rw [updates, List.foldl_append, hkept, record_eq, PipelineRun.counted]
  cases run.noted? with
  | none => simp
  | some e => simp [apply, add_assoc]

/-! ### Tasks at work -/

/-- A module while its tasks are at work: what they share, and what each has still to do. -/
structure AtWork where
  run : ModuleRun
  todo : List (List Update)

namespace AtWork

/-- Some task makes its next update. -/
inductive Step (s : AtWork) : AtWork → Prop
  | update {i : Nat} {u : Update} {us : List Update} (h : s.todo[i]? = some (u :: us)) :
    Step s ⟨apply i s.run u, s.todo.set i us⟩

/-- Any number of updates. -/
abbrev Steps : AtWork → AtWork → Prop := Relation.ReflTransGen Step

/-- No task has anything left to do. -/
def IsDone (s : AtWork) : Prop := ∀ us ∈ s.todo, us = []

/-- Nothing is shared yet, and every task has to make all of its updates. -/
def start (m : ModuleDescription) (runs : List PipelineRun) : AtWork :=
  ⟨ModuleRun.start m, runs.map updates⟩

/-- What the tasks of a module may leave when all of them are done. -/
def Ends (m : ModuleDescription) (runs : List PipelineRun) (r : ModuleRun) : Prop :=
  ∃ s, (start m runs).Steps s ∧ s.IsDone ∧ s.run = r

/-- What is shared and what is still to be added, taken together. -/
def total {A : Type} [AddCommMonoid A] (shared : ModuleRun → A) (added : Update → A) (s : AtWork) :
    A := shared s.run + (s.todo.map fun us => (us.map added).sum).sum

variable {s s' : AtWork} {m : ModuleDescription} {runs : List PipelineRun}

section Total

variable {A : Type} [AddCommMonoid A] {shared : ModuleRun → A} {added : Update → A}
  (hadds : ∀ i r u, shared (apply i r u) = shared r + added u)
include hadds

/-- **A step loses nothing and adds nothing twice.** -/
theorem Step.total_eq (h : Step s s') : s'.total shared added = s.total shared added := by
  cases h with
  | @update i u us hi =>
    obtain ⟨hlt, hget⟩ := List.getElem?_eq_some_iff.1 hi
    obtain ⟨before, after, hs, -, hset⟩ := @List.exists_of_set _ i us _ hlt
    rw [hget] at hs
    simp only [total, hadds, hset]
    rw [hs]
    simp only [List.map_append, List.map_cons, List.sum_append, List.sum_cons]
    ac_rfl

theorem Steps.total_eq (h : Steps s s') : s'.total shared added = s.total shared added := by
  induction h with
  | refl => rfl
  | tail _ hstep ih => exact (hstep.total_eq hadds).trans ih

/-- When all tasks are done, what is shared is what they had to add. -/
theorem Steps.shared_eq (hstart : shared (ModuleRun.start m) = 0) (h : Steps (start m runs) s)
    (hdone : s.IsDone) :
    shared s.run = (runs.map fun run => ((updates run).map added).sum).sum := by
  have hnone : (s.todo.map fun us => (us.map added).sum).sum = 0 :=
    List.sum_eq_zero fun a ha => by
      obtain ⟨us, hus, rfl⟩ := List.mem_map.1 ha
      rw [hdone us hus]
      rfl
  have htotal := h.total_eq hadds
  rw [total, total, hnone, add_zero, start, hstart, zero_add, List.map_map] at htotal
  exact htotal

end Total

/-! ### Dossiers in place -/

/-- What is at the position of a task after one of its updates. -/
def lands (d : Option Dossier) : Update → Option Dossier
  | .keep d' => some d'
  | .count _ => d
  | .fail _ => d

/-- Every task has a place, where its updates still to be made leave what it keeps. -/
structure InPlace (runs : List PipelineRun) (s : AtWork) : Prop where
  length : s.run.dossiers.length = runs.length
  length_todo : s.todo.length = runs.length
  remain : ∀ (i : Nat) (d : Option Dossier) (us : List Update) (run : PipelineRun),
    s.run.dossiers[i]? = some d → s.todo[i]? = some us → runs[i]? = some run →
      us.foldl lands d = run.kept?

theorem foldl_lands_updates (run : PipelineRun) : (updates run).foldl lands none = run.kept? := by
  have hcounts : ∀ (cs : List Summary) (d : Option Dossier),
      (cs.map Update.count).foldl lands d = d := by
    intro cs d
    induction cs with
    | nil => rfl
    | cons c cs ih => exact ih
  rw [updates, List.foldl_append]
  cases run.kept? with
  | none => cases run.noted? <;> rfl
  | some d =>
    rw [Option.elim_some, List.foldl_cons, hcounts]
    cases run.noted? <;> rfl

theorem getElem?_dossiers_apply (i j : Nat) (r : ModuleRun) (u : Update) :
    (apply i r u).dossiers[j]? =
      if i = j then (r.dossiers[j]?).map (lands · u) else r.dossiers[j]? := by
  cases u with
  | keep d =>
    rw [apply, List.getElem?_set]
    split
    · next h =>
      subst h
      by_cases hi : i < r.dossiers.length <;> simp [hi, lands]
    · rfl
  | count s => simp [apply, lands]
  | fail e => simp [apply, lands]

theorem inPlace_start (hm : m.entries.length = runs.length) : InPlace runs (start m runs) := by
  refine ⟨by simp [start, ModuleRun.start, hm], by simp [start], fun i d us run hd hus hrun => ?_⟩
  rw [start, List.getElem?_map, hrun] at hus
  cases hus
  have hd : (m.entries.map fun _ => none)[i]? = some d := hd
  rw [List.getElem?_map] at hd
  obtain ⟨-, -, rfl⟩ := Option.map_eq_some_iff.1 hd
  exact foldl_lands_updates run

/-- **What has landed stays.** -/
theorem Step.inPlace (h : Step s s') (hs : InPlace runs s) : InPlace runs s' := by
  cases h with
  | @update i u us hi =>
    refine ⟨?_, by simp [hs.length_todo], fun j d us' run hd hus' hrun => ?_⟩
    · rw [← hs.length]
      cases u <;> simp [apply]
    rw [getElem?_dossiers_apply] at hd
    rw [List.getElem?_set] at hus'
    split at hus'
    · next h =>
      subst h
      rw [if_pos rfl] at hd
      obtain ⟨d, hbefore, rfl⟩ := Option.map_eq_some_iff.1 hd
      obtain rfl : us = us' := by
        split at hus'
        · exact Option.some.inj hus'
        · cases hus'
      exact hs.remain i d (u :: us) run hbefore hi hrun
    · next h =>
      rw [if_neg h] at hd
      exact hs.remain j d us' run hd hus' hrun

theorem Steps.inPlace (h : Steps s s') (hs : InPlace runs s) : InPlace runs s' := by
  induction h with
  | refl => exact hs
  | tail _ hstep ih => exact hstep.inPlace ih

/-- When all tasks are done, the dossiers of the finished functions are in place. -/
theorem InPlace.dossiers_eq (hs : InPlace runs s) (hdone : s.IsDone) :
    s.run.dossiers = runs.map PipelineRun.kept? := by
  refine List.ext_getElem (by simp [hs.length]) fun i hi hi' => ?_
  have hrun : i < runs.length := hs.length ▸ hi
  have htodo : i < s.todo.length := hs.length_todo ▸ hrun
  have := hs.remain i _ _ _ (List.getElem?_eq_getElem hi) (List.getElem?_eq_getElem htodo)
    (List.getElem?_eq_getElem hrun)
  rw [hdone _ (List.getElem_mem htodo)] at this
  rw [List.getElem_map]
  exact this

/-! ### One task after the other -/

/-- A task can make all its updates in a row. -/
theorem steps_task {i : Nat} {r : ModuleRun} {todo : List (List Update)} {us : List Update}
    (h : todo[i]? = some us) : Steps ⟨r, todo⟩ ⟨us.foldl (apply i) r, todo.set i []⟩ := by
  induction us generalizing r todo with
  | nil =>
    obtain ⟨hi, hget⟩ := List.getElem?_eq_some_iff.1 h
    rw [← hget, List.set_getElem_self, hget]
    exact .refl
  | cons u us ih =>
    have hi : i < todo.length := (List.getElem?_eq_some_iff.1 h).1
    have hrest : Steps ⟨apply i r u, todo.set i us⟩ _ := ih (List.getElem?_set_self hi)
    rw [List.set_set] at hrest
    exact .head (.update h) hrest

/-- What is left to do when the tasks at some positions have completed. -/
def without (todo : List (List Update)) (order : List Nat) : List (List Update) :=
  todo.mapIdx fun i us => if i ∈ order then [] else us

/-- **Tasks that complete one after the other** take steps, and have nothing left to do. -/
theorem steps_inOrder {ps : Pipeline} {config : Config} {fs : List FunctionDescription}
    (hfs : m.entries = fs.map some) {order : List Nat} (hnodup : order.Nodup)
    (hlt : ∀ i ∈ order, i < fs.length) :
    Steps (start m (fs.map (ps.run · config))) ⟨inOrder ps config m order,
      without ((fs.map (ps.run · config)).map updates) order⟩ := by
  induction order using List.reverseRecOn with
  | nil =>
    have hnone : ∀ todo, without todo [] = todo := fun todo =>
      List.ext_getElem (by simp [without]) fun _ _ _ => by simp [without]
    rw [hnone]
    exact .refl
  | append_singleton order i ih =>
    obtain ⟨hnodup, -, hdisjoint⟩ := List.nodup_append.1 hnodup
    have hi : i < fs.length := hlt i (by simp)
    have hnew : i ∉ order := fun hmem => hdisjoint i hmem i (List.mem_singleton.2 rfl) rfl
    refine (ih hnodup fun j hj => hlt j (List.mem_append_left _ hj)).trans ?_
    have hwaiting : (without ((fs.map (ps.run · config)).map updates) order)[i]? =
        some (updates (ps.run fs[i] config)) := by simp [without, hi, hnew]
    have htask := steps_task (r := inOrder ps config m order) hwaiting
    have hcomplete : (inOrder ps config m order).record i (ps.run fs[i] config) =
        inOrder ps config m (order ++ [i]) := by
      rw [inOrder_append_singleton, complete, (completed_inOrder ps config m order).module, hfs]
      simp [hi]
    have htodo : (without ((fs.map (ps.run · config)).map updates) order).set i [] =
        without ((fs.map (ps.run · config)).map updates) (order ++ [i]) := by
      refine List.ext_getElem (by simp [without]) fun j hj hj' => ?_
      simp only [without, List.getElem_set, List.getElem_mapIdx, List.mem_append,
        List.mem_singleton]
      by_cases hij : i = j
      · simp [hij]
      · simp [hij, Ne.symm hij]
    rwa [foldl_updates, hcomplete, htodo] at htask

end AtWork

end ModuleRun
end ConstantTime
