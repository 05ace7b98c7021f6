/-
# Which dependences a schedule keeps

"Single-Path Constant-Time Transformation Engine", §8.

An instruction has to be issued after an earlier one that may be enabled with it
if it reads or overwrites what the other writes or if both touch memory, and not
before one whose operand it overwrites (`Traits.InOrder`).

The constraint graph links an instruction only to the *last* one that wrote an
operand, and leaves it to the links of that one to hold the writers before.
Those links exist if the last writer depends on the writers before, that is, if
two instructions that a third depends on depend on each other
(`Oracle.GapFree`).  Then all dependences are kept, over chains of last writers.
Across a gap they are not: if `i` depends on `q` and on `r` but `r` does not
depend on `q`, and `i` reads what both write, then `i` waits for `r` alone, and
with the higher priority it is issued before `q`.

So an oracle is safe, for all instructions and all slots, if and only if it has
no gap.  Predicates have gaps: `p` and `!p` are
never enabled together, while what is executed always depends on both.
-/

import ConstantTime.Predicate.Basic
import ConstantTime.Proofs.Schedule.Issue

namespace ConstantTime

namespace Traits

variable (t : Traits)

/-- `i` reads an operand that `q` writes. -/
def ReadsResult (i q : Nat) : Prop :=
  ∃ op, t.isConstant op = false ∧ t.readsOp i op = true ∧ t.writesOp q op = true

/-- `i` writes an operand that `q` writes. -/
def Overwrites (i q : Nat) : Prop :=
  ∃ op, t.isConstant op = false ∧ t.writesOp i op = true ∧ t.writesOp q op = true

/-- `i` writes an operand that `q` reads. -/
def OverwritesRead (i q : Nat) : Prop :=
  ∃ op, t.isConstant op = false ∧ t.writesOp i op = true ∧ t.readsOp q op = true

/-- The cycle `b` of `i` is late enough for `q`, issued in the cycle `a`. -/
structure InOrder (q i a b : Nat) : Prop where
  result : t.ReadsResult i q → a < b ∨ (t.isCall i = true ∧ a ≤ b)
  overwrite : t.Overwrites i q → a < b
  memory : t.isMemory i = true → t.isMemory q = true → a < b
  read : t.OverwritesRead i q → a ≤ b

end Traits

/-- Of `n` instructions, two that a third depends on depend on each other. -/
def Oracle.GapFree (oracle : Oracle) (n : Nat) : Prop :=
  ∀ q r i, q < r → r < i → i < n → oracle i q = true → oracle i r = true → oracle r q = true

/-- Every instruction is issued in one cycle, and those that may be enabled
together keep their dependences. -/
structure IssueProblem.KeepsDependences (p : IssueProblem) (s : Schedule) : Prop where
  once : ∀ i < p.size, ∃! k, s.IssuesIn i k
  inOrder : ∀ q i, q < i → i < p.size → p.oracle i q = true →
    ∀ a b, s.IssuesIn q a → s.IssuesIn i b → p.traits.InOrder q i a b

namespace IssueProblem

variable {p : IssueProblem} {s : Schedule}

/-! ### Without gaps -/

/-- The schedule keeps every constraint that was found. -/
def KeepsConstraints (p : IssueProblem) (s : Schedule) : Prop :=
  ∀ i q c, i < p.size → (q, c) ∈ ConstraintGraph.constraintsOn p.traits p.oracle i →
    ∀ a b, s.IssuesIn q a → s.IssuesIn i b → a + c.distance.toInt ≤ b

variable {f : Nat → Bool} {op : Operand} {i q a b : Nat}

/-- **A chain of last matches.**  If each instruction that matches is issued
after the last one it depends on, it is issued after all that it depends on. -/
theorem lt_of_lastDependent (hgap : p.oracle.GapFree p.size)
    (hall : ∀ i < p.size, ∃ k, s.IssuesIn i k)
    (hlast : ∀ i w, i < p.size → f i = true →
      ConstraintGraph.lastDependent p.oracle i f = some w →
        ∀ a b, s.IssuesIn w a → s.IssuesIn i b → a < b)
    (hqi : q < i) (hi : i < p.size) (hfi : f i = true) (hfq : f q = true)
    (ho : p.oracle i q = true) (ha : s.IssuesIn q a) (hb : s.IssuesIn i b) : a < b := by
  induction i using Nat.strong_induction_on generalizing b with
  | _ i ih =>
    obtain ⟨w, hw, hqw, hwi, hfw, how⟩ := ConstraintGraph.exists_lastDependent hqi hfq ho
    rcases Nat.eq_or_lt_of_le hqw with rfl | hqw
    · exact hlast i q hi hfi hw a b ha hb
    · obtain ⟨k, hk⟩ := hall w (by omega)
      have hwb := hlast i w hi hfi hw k b hk hb
      have haw := ih w hwi hqw (by omega) hfw (hgap q w i hqw hwi hi ho how) hk
      omega

theorem lt_of_writes (hgap : p.oracle.GapFree p.size) (hall : ∀ i < p.size, ∃ k, s.IssuesIn i k)
    (hs : p.KeepsConstraints s) (hop : p.traits.isConstant op = false) (hqi : q < i)
    (hi : i < p.size) (hwi : p.traits.writesOp i op = true) (hwq : p.traits.writesOp q op = true)
    (ho : p.oracle i q = true) (ha : s.IssuesIn q a) (hb : s.IssuesIn i b) : a < b := by
  refine lt_of_lastDependent (f := fun j => p.traits.writesOp j op) hgap hall ?_ hqi hi hwi hwq ho
    ha hb
  intro i w hi hfi hw a b ha hb
  have hone : (1 : Int64).toInt = 1 := rfl
  have := hs i w _ hi (ConstraintGraph.mem_constraintsOn_writer hop hfi hw) a b ha hb
  simp only [hone] at this
  omega

theorem lt_of_memory (hgap : p.oracle.GapFree p.size) (hall : ∀ i < p.size, ∃ k, s.IssuesIn i k)
    (hs : p.KeepsConstraints s) (hqi : q < i) (hi : i < p.size)
    (hmi : p.traits.isMemory i = true) (hmq : p.traits.isMemory q = true)
    (ho : p.oracle i q = true) (ha : s.IssuesIn q a) (hb : s.IssuesIn i b) : a < b := by
  refine lt_of_lastDependent (f := p.traits.isMemory) hgap hall ?_ hqi hi hmi hmq ho ha hb
  intro i w hi hfi hw a b ha hb
  have hone : (1 : Int64).toInt = 1 := rfl
  have := hs i w _ hi (ConstraintGraph.mem_constraintsOn_memory hfi hw) a b ha hb
  simp only [hone] at this
  omega

/-- A reader is issued after the last writer, and so after those before. -/
theorem lt_of_reads (hgap : p.oracle.GapFree p.size) (hall : ∀ i < p.size, ∃ k, s.IssuesIn i k)
    (hs : p.KeepsConstraints s)
    (hlat : ∀ i < p.size, 0 ≤ (p.traits.latency i).toInt ∧ (p.traits.latency i).toInt + 1 < 2 ^ 63)
    (hop : p.traits.isConstant op = false) (hqi : q < i) (hi : i < p.size)
    (hri : p.traits.readsOp i op = true) (hwq : p.traits.writesOp q op = true)
    (ho : p.oracle i q = true) (ha : s.IssuesIn q a) (hb : s.IssuesIn i b) :
    a < b ∨ (p.traits.isCall i = true ∧ a ≤ b) := by
  obtain ⟨w, hw, hqw, hwi, hfw, how⟩ :=
    ConstraintGraph.exists_lastDependent (f := fun j => p.traits.writesOp j op) hqi hwq ho
  obtain ⟨hl₀, hl⟩ := hlat w (by omega)
  have hwb : ∀ k, s.IssuesIn w k → k < b ∨ (p.traits.isCall i = true ∧ k ≤ b) := by
    intro k hk
    have hle := hs i w _ hi (ConstraintGraph.mem_constraintsOn_result hop hri hw) k b hk hb
    have hone : (1 : Int64).toInt = 1 := rfl
    split at hle <;> simp only at hle
    · next hcall => exact .inr ⟨hcall, by omega⟩
    · rw [toInt_add_of_lt hl₀ (by decide) (by omega)] at hle
      exact .inl (by omega)
  rcases Nat.eq_or_lt_of_le hqw with rfl | hqw
  · exact hwb a ha
  · obtain ⟨k, hk⟩ := hall w (by omega)
    have haw := lt_of_writes hgap hall hs hop hqw (by omega) hfw hwq
      (hgap q w i hqw hwi hi ho how) ha hk
    rcases hwb k hk with h | ⟨-, h⟩
    · exact .inl (by omega)
    · exact .inl (by omega)

/-- A writer is not issued before the readers since the last writer, nor before
the last writer, which is not issued before the readers that it depends on. -/
theorem le_of_overwritesRead (hgap : p.oracle.GapFree p.size)
    (hall : ∀ i < p.size, ∃ k, s.IssuesIn i k) (hs : p.KeepsConstraints s)
    (hop : p.traits.isConstant op = false) (hqi : q < i) (hi : i < p.size)
    (hwi : p.traits.writesOp i op = true) (hrq : p.traits.readsOp q op = true)
    (ho : p.oracle i q = true) (ha : s.IssuesIn q a) (hb : s.IssuesIn i b) : a ≤ b := by
  induction i using Nat.strong_induction_on generalizing b with
  | _ i ih =>
    set writer := ConstraintGraph.lastDependent p.oracle i fun j => p.traits.writesOp j op with hw
    by_cases hsince : q ∈ ConstraintGraph.since writer i
    · have hc := ConstraintGraph.mem_constraintsOn_reader hop hwi hsince hrq ho
      have hle := hs i q _ hi hc a b ha hb
      have hone : (1 : Int64).toInt = 1 := rfl
      have hzero : (0 : Int64).toInt = 0 := rfl
      split at hle <;> simp only [hone, hzero] at hle <;> omega
    · -- A reader that is not since the last writer is that writer or before it.
      rw [ConstraintGraph.mem_since] at hsince
      cases hcase : writer with
      | none => simp [hcase, hqi] at hsince
      | some w =>
        have hqw : q ≤ w := by simpa [hcase, hqi] using hsince
        rw [hw] at hcase
        obtain ⟨hwi', ⟨hfw, how⟩, -⟩ := ConstraintGraph.lastDependent_eq_some.1 hcase
        obtain ⟨k, hk⟩ := hall w (by omega)
        have hkb := lt_of_writes hgap hall hs hop hwi' hi hwi hfw how hk hb
        rcases Nat.eq_or_lt_of_le hqw with rfl | hqw
        · have := lt_of_writes hgap hall hs hop hwi' hi hwi hfw how ha hb
          omega
        · have := ih w hwi' hqw (by omega) hfw (hgap q w i hqw hwi' hi ho how) hk
          omega

/-- **Without a gap all dependences are kept.** -/
theorem keepsDependences_of_gapFree (hgap : p.oracle.GapFree p.size)
    (hfits : p.traits.Fits p.size) : ∃ s, p.schedule = .ok s ∧ p.KeepsDependences s := by
  obtain ⟨wait, hw⟩ := exists_waits hfits
  obtain ⟨w, last, hsched, -, hsound, hsize⟩ :=
    schedule_induction (P := fun _ _ => True) hw trivial fun _ _ _ _ _ => trivial
  have hall : ∀ i < p.size, ∃ k, w.schedule.IssuesIn i k := by
    intro i hi
    obtain ⟨k, hk⟩ := hsound.timely.issued_of_size_le hsize hi
    exact ⟨k, (hsound.tracks.shows i k).2 hk⟩
  have hs : p.KeepsConstraints w.schedule := by
    intro i q c hi hc a b ha hb
    obtain ⟨d, hd, hcd⟩ := ConstraintGraph.exists_pred_of_mem hi hc
    have := hsound.distance_le hw hd ha hb
    have := Int64.le_iff_toInt_le.1 hcd
    omega
  have hlat : ∀ i < p.size,
      0 ≤ (p.traits.latency i).toInt ∧ (p.traits.latency i).toInt + 1 < 2 ^ 63 := by
    intro i hi
    have hword := hw.word
    obtain ⟨hl₀, hl⟩ := hw.latency i hi
    have := Nat.mul_le_mul_right (wait + 1) (show 1 ≤ p.size by omega)
    exact ⟨hl₀, by omega⟩
  refine ⟨w.schedule, hsched, fun i hi => ?_, fun q i hqi hi ho a b ha hb => ?_⟩
  · obtain ⟨k, hk⟩ := hall i hi
    refine ⟨k, hk, fun k' hk' => ?_⟩
    have hk₁ := (hsound.tracks.shows i k).1 hk
    have hk₂ := (hsound.tracks.shows i k').1 hk'
    exact Option.some.inj (hk₂.symm.trans hk₁)
  · constructor
    · rintro ⟨op, hop, hri, hwq⟩
      exact lt_of_reads hgap hall hs hlat hop hqi hi hri hwq ho ha hb
    · rintro ⟨op, hop, hwi, hwq⟩
      exact lt_of_writes hgap hall hs hop hqi hi hwi hwq ho ha hb
    · intro hmi hmq
      exact lt_of_memory hgap hall hs hqi hi hmi hmq ho ha hb
    · rintro ⟨op, hop, hwi, hrq⟩
      exact le_of_overwritesRead hgap hall hs hop hqi hi hwi hrq ho ha hb

/-! ### Across a gap -/

/-- An instruction that is better than all others is the best. -/
theorem best_eq_of_isBetter {g : ConstraintGraph} {l : List Nat} (hi : i ∈ l)
    (h : ∀ j ∈ l, j ≠ i → p.isBetter g i j = true ∧ p.isBetter g j i = false) :
    p.best g l = some i := by
  -- The candidate so far is the best one as soon as that has been seen.
  have key : ∀ (rest : List Nat) (b : Nat), (∀ j ∈ rest, j ∈ l) → b ∈ l → i = b ∨ i ∈ rest →
      rest.foldl (fun b j => if p.isBetter g j b then j else b) b = i := by
    intro rest
    induction rest with
    | nil =>
      intro b _ _ hb
      rcases hb with hb | hb
      · exact hb.symm
      · simp at hb
    | cons j rest ih =>
      intro b hrest hb hi
      rw [List.foldl_cons]
      have hj := hrest j List.mem_cons_self
      have hrest' : ∀ x ∈ rest, x ∈ l := fun x hx => hrest x (List.mem_cons_of_mem _ hx)
      by_cases hbi : b = i
      · subst hbi
        by_cases hjb : j = b
        · subst hjb
          exact ih _ hrest' (by split <;> exact hb) (.inl (by split <;> rfl))
        · rw [(h j hj hjb).2, if_neg Bool.false_ne_true]
          exact ih b hrest' hb (.inl rfl)
      · by_cases hji : j = i
        · subst hji
          rw [(h b hb hbi).1, if_pos rfl]
          exact ih j hrest' hj (.inl rfl)
        · refine ih _ hrest' (by split <;> assumption) (.inr ?_)
          rcases hi with hi | hi
          · exact absurd hi.symm hbi
          · rcases List.mem_cons.1 hi with hi | hi
            · exact absurd hi.symm hji
            · exact hi
  cases l with
  | nil => simp at hi
  | cons j rest =>
    rw [best, Option.some.injEq]
    exact key rest j (fun x hx => List.mem_cons_of_mem _ hx) List.mem_cons_self
      (List.mem_cons.1 hi)

/-- `q` and `r` write an operand that `i` reads, and `i` alone takes time. -/
def acrossGap (q r i : Nat) : Traits where
  reads j := if j = i then ["r"] else []
  writes j := if j = q ∨ j = r then ["r"] else []
  latency j := if j = i then 1 else 0

/-- Those instructions and others that do nothing, in single issue. -/
def gapProblem (n : Nat) (oracle : Oracle) (q r i : Nat) : IssueProblem where
  size := n
  traits := acrossGap q r i
  oracle := oracle

section Gap

variable {n r j : Nat} {oracle : Oracle}

theorem readsOp_acrossGap {op : Operand} :
    (acrossGap q r i).readsOp j op = true ↔ j = i ∧ op = "r" := by
  simp only [Traits.readsOp, acrossGap]
  split <;> simp [*]

theorem writesOp_acrossGap {op : Operand} :
    (acrossGap q r i).writesOp j op = true ↔ (j = q ∨ j = r) ∧ op = "r" := by
  simp only [Traits.writesOp, acrossGap]
  split <;> simp [*]

theorem lastDependent_acrossGap (hqr : q < r) (hri : r < i) (ho : oracle i r = true) :
    ConstraintGraph.lastDependent oracle i (fun j => (acrossGap q r i).writesOp j "r") =
      some r := by
  rw [ConstraintGraph.lastDependent_eq_some]
  refine ⟨hri, ⟨writesOp_acrossGap.2 ⟨.inr rfl, rfl⟩, ho⟩, fun x hx _ => ?_⟩
  rw [Bool.and_eq_false_iff, ← Bool.not_eq_true, writesOp_acrossGap]
  exact .inl (by omega)

/-- Across the gap there is one constraint: `i` waits for `r`. -/
theorem constraintsOn_acrossGap (hqr : q < r) (hri : r < i) (ho : oracle i r = true)
    (hgap : oracle r q = false) (j : Nat) :
    ConstraintGraph.constraintsOn (acrossGap q r i) oracle j =
      if j = i then [(r, ⟨1, true⟩)] else [] := by
  have hbranch : ConstraintGraph.branchOrder (acrossGap q r i) j = [] := by
    have hnone : ConstraintGraph.lastBranch (acrossGap q r i) j = none := by
      simp [ConstraintGraph.lastBranch, acrossGap]
    simp [ConstraintGraph.branchOrder, hnone]
  have hmemory : ConstraintGraph.memoryOrder (acrossGap q r i) oracle j = [] := by
    simp [ConstraintGraph.memoryOrder, acrossGap]
  have hgather : ConstraintGraph.branchGather (acrossGap q r i) j = [] := by
    simp [ConstraintGraph.branchGather, acrossGap]
  have hresult : ConstraintGraph.resultOrder (acrossGap q r i) oracle j =
      if j = i then [(r, ⟨1, true⟩)] else [] := by
    by_cases hj : j = i
    · subst hj
      have hreads : (acrossGap q r j).variableReads j = ["r"] := by
        simp [Traits.variableReads, acrossGap]
      have hlat : (acrossGap q r j).latency r = 0 := by
        simp [acrossGap, Nat.ne_of_lt hri]
      have hcall : (acrossGap q r j).isCall j = false := rfl
      simp [ConstraintGraph.resultOrder, hreads, lastDependent_acrossGap hqr hri ho, hlat, hcall]
    · have hreads : (acrossGap q r i).variableReads j = [] := by
        simp [Traits.variableReads, acrossGap, hj]
      simp [ConstraintGraph.resultOrder, hreads, hj]
  have hover : ConstraintGraph.overwriteOrder (acrossGap q r i) oracle j = [] := by
    rw [List.eq_nil_iff_forall_not_mem]
    rintro ⟨x, c⟩ hx
    simp only [ConstraintGraph.overwriteOrder, List.mem_flatMap, List.mem_append, Option.mem_toList,
      Option.map_eq_some_iff, List.mem_map, List.mem_filter, Prod.mk.injEq, Bool.and_eq_true] at hx
    obtain ⟨op, hop, ⟨w, hw, rfl, -⟩ | ⟨w, ⟨hw, hr, -⟩, rfl, -⟩⟩ := hx
    · obtain ⟨hwj, ⟨hww, how⟩, -⟩ := ConstraintGraph.lastDependent_eq_some.1 hw
      have h₁ := (writesOp_acrossGap.1 (Traits.mem_variableWrites.1 hop).2).1
      have h₂ := (writesOp_acrossGap.1 hww).1
      have hj : j = r ∧ w = q := by omega
      rw [hj.1, hj.2, hgap] at how
      exact Bool.noConfusion how
    · have h₁ := (writesOp_acrossGap.1 (Traits.mem_variableWrites.1 hop).2).1
      have h₂ := (readsOp_acrossGap.1 hr).1
      have h₃ := (ConstraintGraph.mem_since.1 hw).1
      omega
  rw [ConstraintGraph.constraintsOn, hbranch, hmemory, hgather, hresult, hover]
  simp

variable (hqr : q < r) (hri : r < i) (hi : i < n) (ho : oracle i r = true)
  (hgap : oracle r q = false)

include hqr hri hi ho hgap

theorem predsOf_gapProblem (j : Nat) :
    (gapProblem n oracle q r i).constraints.predsOf j =
      if j = i then (∅ : OrderedMap Nat Constraint).insert r ⟨1, true⟩ else ∅ := by
  by_cases hj : j < n
  · have hpreds : (gapProblem n oracle q r i).constraints.predsOf j =
        (ConstraintGraph.constraintsOn (acrossGap q r i) oracle j).foldl ConstraintGraph.addTo ∅ :=
      ConstraintGraph.predsOf_ofTraits hj
    rw [hpreds, constraintsOn_acrossGap hqr hri ho hgap]
    split <;> rfl
  · rw [if_neg (by omega)]
    have hlen : (gapProblem n oracle q r i).constraints.preds.length = n :=
      ConstraintGraph.size_ofTraits
    simp [ConstraintGraph.predsOf, hlen, hj]

theorem mem_succsOf_gapProblem (x j : Nat) :
    j ∈ (gapProblem n oracle q r i).constraints.succsOf x ↔ j = i ∧ x = r := by
  have hsize : (gapProblem n oracle q r i).constraints.size = n := ConstraintGraph.size_ofTraits
  rw [ConstraintGraph.succsOf, List.mem_filter, hsize, List.mem_range,
    predsOf_gapProblem hqr hri hi ho hgap]
  split
  · next hj => simp [OrderedMap.contains, hj, hi]
  · next hj => simp [OrderedMap.contains, hj]

omit hqr hri hi ho hgap in
theorem effectiveLatency_gapProblem :
    (gapProblem n oracle q r i).traits.effectiveLatency j = if j = i then 1 else 0 := by
  by_cases hj : j = i
  · subst hj
    simp [Traits.effectiveLatency, Traits.variableReads, gapProblem, acrossGap]
  · simp [Traits.effectiveLatency, gapProblem, acrossGap, hj]

/-- Nothing is held back and only `i` waits. -/
theorem mem_ready_gapProblem (issued : Issued) (cycle j : Nat) :
    j ∈ (gapProblem n oracle q r i).ready (gapProblem n oracle q r i).constraints issued cycle ↔
      j < n ∧ issued.get? j = none ∧ (j = i → isMet issued cycle r ⟨1, true⟩ = true) := by
  have hheld : ∀ w k x, holdsBack (gapProblem n oracle q r i).traits w k x cycle = false := by
    intro w k x
    simp [holdsBack, Traits.poisoned, gapProblem, acrossGap]
  rw [mem_ready, isReady_iff, predsOf_gapProblem hqr hri hi ho hgap]
  refine and_congr Iff.rfl (and_congr Iff.rfl ?_)
  split
  · next hj => simp [hj, hheld]
  · next hj => simp [hj, hheld]

/-- The writer that is waited for goes first. -/
theorem best_first :
    (gapProblem n oracle q r i).best (gapProblem n oracle q r i).constraints
      ((gapProblem n oracle q r i).ready (gapProblem n oracle q r i).constraints ∅ 0) = some r := by
  have hready := mem_ready_gapProblem hqr hri hi ho hgap ∅ 0
  refine best_eq_of_isBetter ((hready r).2 ⟨by omega, rfl, by omega⟩) fun j hj hjr => ?_
  have hji : j ≠ i := by
    rintro rfl
    exact absurd (((hready j).1 hj).2.2 rfl) (by simp [isMet])
  have hsucc := mem_succsOf_gapProblem hqr hri hi ho hgap
  have hr : 0 < ((gapProblem n oracle q r i).constraints.succsOf r).length :=
    List.length_pos_of_mem ((hsucc r i).2 ⟨rfl, rfl⟩)
  have hj₀ : (gapProblem n oracle q r i).constraints.succsOf j = [] := by
    rw [List.eq_nil_iff_forall_not_mem]
    exact fun x hx => hjr ((hsucc j x).1 hx).2
  have hr₀ := Nat.ne_of_gt hr
  have hri' : r ≠ i := by omega
  simp [isBetter, effectiveLatency_gapProblem, hji, hri', hj₀, hr, hr₀, Ne.symm hr₀]

/-- Then the reader, since it takes longest. -/
theorem best_second :
    (gapProblem n oracle q r i).best (gapProblem n oracle q r i).constraints
      ((gapProblem n oracle q r i).ready (gapProblem n oracle q r i).constraints
        ((∅ : Issued).insert r 0) 1) = some i := by
  have hready := mem_ready_gapProblem hqr hri hi ho hgap ((∅ : Issued).insert r 0) 1
  have hri' : i ≠ r := by omega
  have hmet : isMet ((∅ : Issued).insert r 0) 1 r ⟨1, true⟩ = true := by
    simp only [isMet, OrderedMap.get?_insert, if_true]
    rfl
  refine best_eq_of_isBetter ((hready i).2 ⟨hi, by simp [hri'], fun _ => hmet⟩) fun j _ hji => ?_
  simp [isBetter, effectiveLatency_gapProblem, hji]

omit hqr hri hi ho hgap in
/-- What the run across a gap has issued before each cycle. -/
structure Overtaken (q r i cycle : Nat) (issued : Issued) : Prop where
  start : cycle = 0 → issued = ∅
  first : cycle = 1 → issued = (∅ : Issued).insert r 0
  second : 2 ≤ cycle → issued.get? i = some 1 ∧ ∀ k, issued.get? q = some k → 2 ≤ k

theorem Overtaken.issueCycle {cycle : Nat} {w : Progress} (h : Overtaken q r i cycle w.issued) :
    Overtaken q r i (cycle + 1) ((gapProblem n oracle q r i).issueCycle
      (gapProblem n oracle q r i).constraints w cycle).issued := by
  set p := gapProblem n oracle q r i
  have hsingle : ∀ a, p.best p.constraints (p.ready p.constraints w.issued cycle) = some a →
      (p.issueCycle p.constraints w cycle).issued = w.issued.insert a cycle := by
    intro a ha
    have hnone : p.partner p.constraints (w.issued.insert a cycle) cycle a = none := rfl
    simp only [IssueProblem.issueCycle, ha, hnone]
  refine ⟨by omega, fun hc => ?_, fun hc => ?_⟩
  · obtain rfl : cycle = 0 := by omega
    have hnow := h.start rfl
    rw [hsingle r (by rw [hnow]; exact best_first hqr hri hi ho hgap), hnow]
  · obtain rfl | hc : cycle = 1 ∨ 2 ≤ cycle := by omega
    · have hnow := h.first rfl
      have hqi : q ≠ i := by omega
      have hqr' : q ≠ r := by omega
      rw [hsingle i (by rw [hnow]; exact best_second hqr hri hi ho hgap), hnow]
      simp [hqi, hqr']
    · obtain ⟨hkeep, hnew⟩ := get?_issueCycle p p.constraints w cycle
      obtain ⟨hi₁, hq₂⟩ := h.second hc
      refine ⟨hkeep i 1 hi₁, fun k hk => ?_⟩
      rcases hnew q k hk with hk | rfl
      · exact hq₂ k hk
      · exact hc

/-- **The reader is issued before the first writer.** -/
theorem exists_reader_before_writer (hn : n * 3 + 1 < 2 ^ 63) :
    (acrossGap q r i).Fits n ∧ ∃ s k, (gapProblem n oracle q r i).schedule = .ok s ∧
      s.IssuesIn i 1 ∧ s.IssuesIn q k ∧ 1 < k := by
  have hfits : (acrossGap q r i).Fits n := by
    refine ⟨1, fun j _ => ?_, hn⟩
    by_cases hj : j = i <;> simp only [acrossGap, hj, if_true, if_false] <;> decide
  refine ⟨hfits, ?_⟩
  obtain ⟨wait, hw⟩ := exists_waits (p := gapProblem n oracle q r i) hfits
  obtain ⟨w, last, hsched, hrun, hsound, hsize⟩ := schedule_induction
    (P := fun cycle w => Overtaken q r i cycle w.issued) hw ⟨fun _ => rfl, by omega, by omega⟩
    fun cycle w h _ _ => h.issueCycle hqr hri hi ho hgap
  have hall : ∀ j < n, ∃ k, w.issued.get? j = some k := fun j hj =>
    hsound.timely.issued_of_size_le hsize hj
  obtain ⟨k, hk⟩ := hall q (by omega)
  obtain ⟨k', hk'⟩ := hall i hi
  have hlast : 2 ≤ last := by
    by_contra hlast
    obtain h | h : last = 0 ∨ last = 1 := by omega
    · simp [hrun.start h] at hk
    · have hir : i ≠ r := by omega
      simp [hrun.first h, hir] at hk'
  obtain ⟨hi₁, hq₂⟩ := hrun.second hlast
  exact ⟨w.schedule, k, hsched, (hsound.tracks.shows i 1).2 hi₁, (hsound.tracks.shows q k).2 hk,
    hq₂ k hk⟩

end Gap

/-- **Dependences are kept exactly where the oracle has no gap.**  For every
oracle on `n` instructions, the schedules of all instructions and slots exist
and keep the dependences if and only if two instructions that a third depends
on always depend on each other. -/
theorem keepsDependences_iff_gapFree (n : Nat) (oracle : Oracle) (hn : n * 3 + 1 < 2 ^ 63) :
    (∀ (t : Traits) (slots : Option Slots), t.Fits n →
        ∃ s, (IssueProblem.mk n t slots oracle).schedule = .ok s ∧
          (IssueProblem.mk n t slots oracle).KeepsDependences s) ↔
      oracle.GapFree n := by
  constructor
  · intro h q r i hqr hri hi hiq hir
    by_contra hgap
    rw [Bool.not_eq_true] at hgap
    obtain ⟨hfits, s, k, hs, hi₁, hqk, hk⟩ := exists_reader_before_writer hqr hri hi hir hgap hn
    obtain ⟨s', hs', hkeeps⟩ := h (acrossGap q r i) none hfits
    obtain rfl : s' = s := by
      have := hs'.symm.trans hs
      simpa using this
    have hreads : (acrossGap q r i).ReadsResult i q :=
      ⟨"r", rfl, readsOp_acrossGap.2 ⟨rfl, rfl⟩, writesOp_acrossGap.2 ⟨.inl rfl, rfl⟩⟩
    have hcall : (acrossGap q r i).isCall i = false := rfl
    rcases (hkeeps.inOrder q i (by omega) hi hiq k 1 hqk hi₁).result hreads with h | ⟨h, -⟩
    · omega
    · simp [hcall] at h
  · intro hgap t slots hfits
    exact keepsDependences_of_gapFree (p := ⟨n, t, slots, oracle⟩) hgap hfits

/-- The first of three instructions is executed under a predicate, the second
under its opposite, and the third always. -/
def oppositePredicates : Oracle := fun a b =>
  let predicate : Nat → Predicate := fun
    | 0 => .on 0 false
    | 1 => .on 0 true
    | _ => .always
  Predicate.dependent (fun _ _ => true) (predicate a) (predicate b)

/-- **Opposite predicates lose a dependence** on three instructions, though
their oracle is symmetric. -/
theorem keepsDependences_iff_gapFree_opposite :
    (3 * 3 + 1 < 2 ^ 63 ∧ (∀ a < 3, ∀ b < 3, oppositePredicates a b = oppositePredicates b a) ∧
      ¬ oppositePredicates.GapFree 3) ∧
      ¬ ∀ (t : Traits) (slots : Option Slots), t.Fits 3 →
        ∃ s, (IssueProblem.mk 3 t slots oppositePredicates).schedule = .ok s ∧
          (IssueProblem.mk 3 t slots oppositePredicates).KeepsDependences s := by
  have hgap : ¬ oppositePredicates.GapFree 3 := by
    intro h
    have := h 0 1 2 (by decide) (by decide) (by decide) rfl rfl
    simp [oppositePredicates, Predicate.dependent] at this
  refine ⟨⟨by decide, by decide, hgap⟩, fun h => hgap ?_⟩
  exact (keepsDependences_iff_gapFree 3 oppositePredicates (by decide)).1 h

end IssueProblem
end ConstantTime
