/-
# The run of list scheduling

A cycle issues nothing, or one ready instruction, or two in turn that may share a
bundle (`issueCycle_slots`).  Along a run three things hold of what has been issued
(`Sound`): every constraint on an issued instruction is met, the schedule shows
each instruction in the bundle of its cycle, and the run does not fall behind.
By the last, `m` issued instructions took at most `m * (wait + 1)` cycles, where
`wait` is the longest latency or distance: after that long the first instruction
that is left is ready.  So the run ends before the limit, with everything issued
(`schedule_induction`).

This asks that latencies are not negative and that a word holds the limit
(`Traits.Fits`).
-/

import ConstantTime.Schedule.Greedy
import ConstantTime.Proofs.Schedule.Constraints
import ConstantTime.Proofs.Schedule.Listing
import ConstantTime.Proofs.Word
import Mathlib.Data.Nat.Find

namespace ConstantTime

/-- The latencies of `n` instructions are not negative, and a word holds the
last cycle that they may need. -/
def Traits.Fits (t : Traits) (n : Nat) : Prop :=
  ∃ longest : Nat, (∀ i < n, 0 ≤ (t.latency i).toInt ∧ (t.latency i).toInt ≤ longest) ∧
    n * (longest + 2) + 1 < 2 ^ 63

/-- The instruction is in one of the slots of the cycle. -/
def Schedule.IssuesIn (s : Schedule) (i cycle : Nat) : Prop :=
  if s.dual then s.slot (2 * cycle) = i ∨ s.slot (2 * cycle + 1) = i else s.slot cycle = i

namespace IssueProblem

variable {p : IssueProblem} {g : ConstraintGraph} {issued : Issued} {w : Progress}
  {cycle i q k : Nat} {d : Constraint}

/-! ### Choosing -/

theorem foldl_choice (l : List Nat) (b : Nat) (better : Nat → Nat → Bool) :
    l.foldl (fun b j => if better j b then j else b) b ∈ b :: l := by
  induction l generalizing b with
  | nil => simp
  | cons j l ih =>
    rw [List.foldl_cons]
    have := ih (if better j b then j else b)
    split at this <;> grind

theorem mem_of_best {l : List Nat} (h : p.best g l = some i) : i ∈ l := by
  cases l with
  | nil => simp [best] at h
  | cons j l =>
    rw [best, Option.some.injEq] at h
    exact h ▸ foldl_choice l j _

theorem best_eq_none {l : List Nat} : p.best g l = none ↔ l = [] := by
  cases l <;> simp [best]

/-! ### Readiness -/

theorem mem_ready : i ∈ p.ready g issued cycle ↔
    i < p.size ∧ issued.get? i = none ∧ p.isReady g issued cycle i = true := by
  simp [ready, OrderedMap.contains]

theorem isReady_iff : p.isReady g issued cycle i = true ↔
    (∀ q d, (g.predsOf i).get? q = some d → isMet issued cycle q d = true) ∧
      ∀ w k, issued.get? w = some k → holdsBack p.traits w k i cycle = false := by
  simp only [isReady, Bool.and_eq_true, List.all_eq_true, Prod.forall, OrderedMap.get?_eq_some_iff,
    Bool.not_eq_true']

theorem isMet_iff : isMet issued cycle q d = true ↔
    ∃ k, issued.get? q = some k ∧ Int64.ofNat k + d.distance ≤ Int64.ofNat cycle := by
  rw [isMet]
  split <;> simp [*]

/-- Issuing an instruction undoes no constraint that is met. -/
theorem isMet_insert {a c : Nat} (ha : issued.get? a = none) (h : isMet issued cycle q d = true) :
    isMet (issued.insert a c) cycle q d = true := by
  obtain ⟨k, hk, hle⟩ := isMet_iff.1 h
  refine isMet_iff.2 ⟨k, ?_, hle⟩
  rw [OrderedMap.get?_insert, if_neg ?_, hk]
  rintro rfl
  simp [ha] at hk

/-! ### One cycle -/

/-- The instructions may share a bundle, `y` in its second slot. -/
structure MayPair (p : IssueProblem) (s : Slots) (x y : Nat) : Prop where
  second : s.maySecond y = true
  short : s.isLong x = false ∧ s.isLong y = false
  together : (s.mayBundle x y = true ∨ p.oracle x y = false) ∨
    s.mayBundle y x = true ∨ p.oracle y x = false

/-- A partner is ready, and fits one of the slots. -/
theorem partner_eq_some {a b : Nat} (h : p.partner g issued cycle a = some b) :
    ∃ s, p.slots = some s ∧ s.isLong a = false ∧ p.mayJoin s a b = true ∧
      b ∈ p.ready g issued cycle := by
  rw [partner] at h
  cases hs : p.slots with
  | none => simp [hs] at h
  | some s =>
    simp only [hs] at h
    split at h
    · simp at h
    · next hlong =>
      obtain ⟨hb, hjoin⟩ := List.mem_filter.1 (mem_of_best h)
      exact ⟨s, rfl, by simpa using hlong, hjoin, hb⟩

/-- **What a cycle does**: nothing, if nothing is ready, or it issues one
instruction, or with dual issue two that may share a bundle, the second ready once
the first is issued. -/
theorem issueCycle_slots (p : IssueProblem) (g : ConstraintGraph) (w : Progress) (cycle : Nat) :
    (p.ready g w.issued cycle = [] ∧ p.issueCycle g w cycle = w) ∨
      (∃ a, a ∈ p.ready g w.issued cycle ∧ p.issueCycle g w cycle =
        { issued := w.issued.insert a cycle, schedule := w.schedule.place cycle false a }) ∨
      (∃ s, p.slots = some s ∧ ∃ a b x y, a ∈ p.ready g w.issued cycle ∧
        b ∈ p.ready g (w.issued.insert a cycle) cycle ∧ ((x, y) = (a, b) ∨ (x, y) = (b, a)) ∧
        p.MayPair s x y ∧ p.issueCycle g w cycle =
          { issued := (w.issued.insert a cycle).insert b cycle
            schedule := (w.schedule.place cycle false x).place cycle true y }) := by
  cases ha : p.best g (p.ready g w.issued cycle) with
  | none => exact .inl ⟨best_eq_none.1 ha, by rw [issueCycle, ha]⟩
  | some a =>
    have hmem := mem_of_best ha
    cases hb : p.partner g (w.issued.insert a cycle) cycle a with
    | none => exact .inr (.inl ⟨a, hmem, by simp only [issueCycle, ha, hb]⟩)
    | some b =>
      have hpair : p.issueCycle g w cycle = p.issuePair w cycle a b := by
        simp only [issueCycle, ha, hb]
      obtain ⟨s, hs, hlong, hjoin, hready⟩ := partner_eq_some hb
      simp only [mayJoin, Bool.and_eq_true, Bool.or_eq_true, Bool.not_eq_true'] at hjoin
      obtain ⟨⟨hlong', hsecond⟩, htogether⟩ := hjoin
      refine .inr (.inr ⟨s, hs, ?_⟩)
      rw [hpair]
      by_cases ht : s.maySecond b = true
      · exact ⟨a, b, a, b, hmem, hready, .inl rfl, ⟨ht, ⟨hlong, hlong'⟩, .inl htogether⟩,
          by simp [issuePair, hs, ht]⟩
      · exact ⟨a, b, b, a, hmem, hready, .inr rfl,
          ⟨hsecond.resolve_left ht, ⟨hlong', hlong⟩, .inr htogether⟩,
          by simp [issuePair, hs, ht]⟩

/-- What a cycle does, whatever the slots ask for. -/
theorem issueCycle_cases (p : IssueProblem) (g : ConstraintGraph) (w : Progress) (cycle : Nat) :
    (p.ready g w.issued cycle = [] ∧ p.issueCycle g w cycle = w) ∨
      (∃ a, a ∈ p.ready g w.issued cycle ∧ p.issueCycle g w cycle =
        { issued := w.issued.insert a cycle, schedule := w.schedule.place cycle false a }) ∨
      (p.slots.isSome = true ∧ ∃ a b x y, a ∈ p.ready g w.issued cycle ∧
        b ∈ p.ready g (w.issued.insert a cycle) cycle ∧ ((x, y) = (a, b) ∨ (x, y) = (b, a)) ∧
        p.issueCycle g w cycle =
          { issued := (w.issued.insert a cycle).insert b cycle
            schedule := (w.schedule.place cycle false x).place cycle true y }) := by
  refine (p.issueCycle_slots g w cycle).imp_right (Or.imp_right ?_)
  rintro ⟨s, hs, a, b, x, y, ha, hb, hxy, -, he⟩
  exact ⟨by rw [hs, Option.isSome_some], a, b, x, y, ha, hb, hxy, he⟩

/-- What issuing a ready instruction keeps, a cycle keeps. -/
theorem issued_issueCycle {P : Issued → Prop} (h : P w.issued)
    (step : ∀ issued i, P issued → i ∈ p.ready g issued cycle → P (issued.insert i cycle)) :
    P (p.issueCycle g w cycle).issued := by
  obtain ⟨-, he⟩ | ⟨a, ha, he⟩ | ⟨-, a, b, x, y, ha, hb, -, he⟩ := issueCycle_cases p g w cycle
  · rw [he]
    exact h
  · rw [he]
    exact step _ a h ha
  · rw [he]
    exact step _ b (step _ a h ha) hb

/-! ### Constraints are kept -/

/-- Every constraint on an issued instruction is met in its cycle. -/
def Respected (g : ConstraintGraph) (issued : Issued) : Prop :=
  ∀ i k, issued.get? i = some k →
    ∀ q d, (g.predsOf i).get? q = some d → isMet issued k q d = true

theorem Respected.insert (h : Respected g issued) (hi : i ∈ p.ready g issued cycle) :
    Respected g (issued.insert i cycle) := by
  obtain ⟨-, hnew, hready⟩ := mem_ready.1 hi
  intro j k hj q d hq
  rw [OrderedMap.get?_insert] at hj
  split at hj
  · next hji =>
    subst hji
    cases hj
    exact isMet_insert hnew ((isReady_iff.1 hready).1 q d hq)
  · exact isMet_insert hnew (h j k hj q d hq)

/-! ### The run does not fall behind -/

/-- Only instructions of the block are issued, and each soon enough. -/
structure Timely (p : IssueProblem) (wait : Nat) (issued : Issued) (cycle : Nat) : Prop where
  early : cycle ≤ issued.size * (wait + 1)
  issued_early : ∀ i k, issued.get? i = some k →
    i < p.size ∧ k + (wait + 1) ≤ issued.size * (wait + 1)

theorem size_insert (hi : issued.get? i = none) (k : Nat) :
    (issued.insert i k).size = issued.size + 1 := by
  have key : ∀ l : List (Nat × Nat), i ∉ l.map Prod.fst →
      (OrderedMap.insertSorted i k l).length = l.length + 1 := by
    intro l
    induction l with
    | nil => simp [OrderedMap.insertSorted]
    | cons e l ih =>
      intro hl
      rw [List.map_cons, List.mem_cons, not_or] at hl
      rw [OrderedMap.insertSorted]
      split
      · simp
      · rw [if_neg hl.1, List.length_cons, List.length_cons, ih hl.2]
  exact key _ (OrderedMap.lookupIn_eq_none_iff.1 hi)

variable {wait : Nat}

theorem Timely.insert (h : p.Timely wait issued cycle) (hi : i ∈ p.ready g issued cycle) :
    p.Timely wait (issued.insert i cycle) cycle := by
  obtain ⟨hlt, hnew, -⟩ := mem_ready.1 hi
  have hsize := size_insert hnew cycle
  have hmul := Nat.succ_mul issued.size (wait + 1)
  have hearly := h.early
  refine ⟨by rw [hsize, hmul]; omega, fun j k hj => ?_⟩
  rw [hsize, hmul]
  rw [OrderedMap.get?_insert] at hj
  split at hj
  · next hji =>
    cases hj
    exact ⟨hji ▸ hlt, by omega⟩
  · obtain ⟨hj₁, hj₂⟩ := h.issued_early j k hj
    exact ⟨hj₁, by omega⟩

theorem length_keys (issued : Issued) : issued.keys.length = issued.size := by
  rw [OrderedMap.keys, List.length_map, OrderedMap.size]

theorem Timely.keys_subset (h : p.Timely wait issued cycle) :
    issued.keys ⊆ List.range p.size := by
  intro i hi
  obtain ⟨k, hk⟩ := Option.isSome_iff_exists.1 (OrderedMap.mem_keys_iff.1 hi)
  exact List.mem_range.2 (h.issued_early i k hk).1

theorem Timely.size_le (h : p.Timely wait issued cycle) : issued.size ≤ p.size := by
  have hle := (OrderedMap.nodup_keys issued).length_le_of_subset h.keys_subset
  rwa [List.length_range, length_keys] at hle

/-- Everything is issued once as many instructions are issued as there are. -/
theorem issued_of_size_le (hkeys : issued.keys ⊆ List.range p.size) (hn : p.size ≤ issued.size)
    (hi : i < p.size) : ∃ k, issued.get? i = some k := by
  by_contra hnone
  have hmiss : i ∉ issued.keys := by
    rw [OrderedMap.mem_keys_iff, Option.isSome_iff_exists]
    exact hnone
  have hsub : i :: issued.keys ⊆ List.range p.size :=
    List.cons_subset.2 ⟨List.mem_range.2 hi, hkeys⟩
  have hle := (List.nodup_cons.2 ⟨hmiss, OrderedMap.nodup_keys issued⟩).length_le_of_subset hsub
  rw [List.length_cons, List.length_range, length_keys] at hle
  omega

theorem Timely.issued_of_size_le (h : p.Timely wait issued cycle) (hn : p.size ≤ issued.size)
    (hi : i < p.size) : ∃ k, issued.get? i = some k :=
  IssueProblem.issued_of_size_le h.keys_subset hn hi

/-- While something is left there is a first instruction that is left. -/
theorem exists_first_left (h : issued.size < p.size) :
    ∃ i < p.size, issued.get? i = none ∧ ∀ j < i, ∃ k, issued.get? j = some k := by
  have hleft : ∃ i, i < p.size ∧ issued.get? i = none := by
    by_contra hall
    have hsub : List.range p.size ⊆ issued.keys := by
      intro i hi
      rw [OrderedMap.mem_keys_iff, Option.isSome_iff_ne_none]
      exact fun hnone => hall ⟨i, List.mem_range.1 hi, hnone⟩
    have hle := List.nodup_range.length_le_of_subset hsub
    rw [List.length_range, length_keys] at hle
    omega
  obtain ⟨hi, hnone⟩ := Nat.find_spec hleft
  refine ⟨Nat.find hleft, hi, hnone, fun j hj => ?_⟩
  have := Nat.find_min hleft hj
  rw [not_and] at this
  exact Option.ne_none_iff_exists'.1 (this (by omega))

/-! ### The longest wait -/

/-- No latency and no distance is longer than the wait, and a word holds the
limit that follows from it. -/
structure Waits (p : IssueProblem) (wait : Nat) : Prop where
  latency : ∀ i < p.size, 0 ≤ (p.traits.latency i).toInt ∧ (p.traits.latency i).toInt ≤ wait
  distance : ∀ i q d, (p.constraints.predsOf i).get? q = some d →
    q < i ∧ 0 ≤ d.distance.toInt ∧ d.distance.toInt ≤ wait
  limit : (p.cycleLimit p.constraints).toInt = p.size * (wait + 1) + 1

theorem foldl_max_le {l : List Int64} {x : Int64} {bound : Int} (hx : x.toInt ≤ bound)
    (hl : ∀ y ∈ l, y.toInt ≤ bound) : (l.foldl max x).toInt ≤ bound := by
  induction l generalizing x with
  | nil => exact hx
  | cons y l ih =>
    refine ih ?_ fun z hz => hl z (List.mem_cons_of_mem _ hz)
    rw [toInt_max]
    exact Int.max_le.2 ⟨hx, hl y List.mem_cons_self⟩

theorem le_foldl_max {l : List Int64} {x y : Int64} (h : y.toInt ≤ x.toInt ∨ y ∈ l) :
    y.toInt ≤ (l.foldl max x).toInt := by
  induction l generalizing x with
  | nil => simpa using h
  | cons z l ih =>
    refine ih ?_
    rw [toInt_max]
    rcases h with h | h
    · exact .inl (by omega)
    · rcases List.mem_cons.1 h with rfl | h
      · exact .inl (by omega)
      · exact .inr h

/-- A distance is not negative, and at most one cycle longer than a latency. -/
theorem distance_bounds {n longest : Nat} {t : Traits} {oracle : Oracle}
    (hl : ∀ i < n, 0 ≤ (t.latency i).toInt ∧ (t.latency i).toInt ≤ longest)
    (hword : longest + 1 < 2 ^ 63)
    (h : ((ConstraintGraph.ofTraits n t oracle).predsOf i).get? q = some d) :
    q < i ∧ 0 ≤ d.distance.toInt ∧ d.distance.toInt ≤ longest + 1 := by
  obtain ⟨hi, c, hc, hd⟩ := ConstraintGraph.mem_of_get?_predsOf h
  obtain ⟨hq, hcases⟩ := ConstraintGraph.constraintsOn_cases hc
  obtain ⟨h₀, h₁⟩ := hl q (by omega)
  have hone : (1 : Int64).toInt = 1 := rfl
  have hsucc : (t.latency q + 1).toInt = (t.latency q).toInt + 1 := by
    rw [toInt_add_of_lt h₀ (by decide) (by omega), hone]
  refine ⟨hq, ?_⟩
  rw [hd]
  rcases hcases with hc | hc | hc | hc <;> rw [hc]
  · exact ⟨by decide, by rw [Int64.toInt_zero]; omega⟩
  · rw [hone]
    omega
  · omega
  · omega

theorem mem_distances {x : Int64} (h : x ∈ p.constraints.preds.flatMap fun m =>
    m.values.map Constraint.distance) :
    ∃ i q d, (p.constraints.predsOf i).get? q = some d ∧ d.distance = x := by
  obtain ⟨m, hm, hx⟩ := List.mem_flatMap.1 h
  obtain ⟨d, hd, rfl⟩ := List.mem_map.1 hx
  obtain ⟨q, hq⟩ := OrderedMap.mem_values_iff.1 hd
  obtain ⟨i, hi, rfl⟩ := List.mem_iff_getElem.1 hm
  refine ⟨i, q, d, ?_, rfl⟩
  rw [ConstraintGraph.predsOf, List.getElem?_eq_getElem hi]
  exact hq

theorem distance_mem_distances
    (h : (p.constraints.predsOf i).get? q = some d) :
    d.distance ∈ p.constraints.preds.flatMap fun m => m.values.map Constraint.distance := by
  rw [ConstraintGraph.predsOf] at h
  cases hi : p.constraints.preds[i]? with
  | none => simp [hi] at h
  | some m =>
    rw [hi, Option.getD_some] at h
    exact List.mem_flatMap.2 ⟨m, List.mem_of_getElem? hi,
      List.mem_map.2 ⟨d, OrderedMap.mem_values_of_get? h, rfl⟩⟩

/-- **Traits that fit have a longest wait.** -/
theorem exists_waits (h : p.traits.Fits p.size) : ∃ wait, p.Waits wait := by
  obtain ⟨longest, hl, hword⟩ := h
  set waits := (List.range p.size).map p.traits.latency ++
    p.constraints.preds.flatMap fun m => m.values.map Constraint.distance with hwaits
  set x := waits.foldl max 0 with hx
  have hdist : ∀ i q d, (p.constraints.predsOf i).get? q = some d →
      q < i ∧ 0 ≤ d.distance.toInt ∧ d.distance.toInt ≤ longest + 1 := by
    intro i q d hq
    have hn : 1 ≤ p.size := by
      have := (ConstraintGraph.mem_of_get?_predsOf hq).1
      omega
    have := Nat.mul_le_mul_right (longest + 2) hn
    exact distance_bounds hl (by omega) hq
  have h₀ : 0 ≤ x.toInt := le_foldl_max (y := 0) (.inl (by decide))
  have hle : x.toInt ≤ longest + 1 := by
    refine foldl_max_le (by rw [Int64.toInt_zero]; omega) fun y hy => ?_
    rcases List.mem_append.1 hy with hy | hy
    · obtain ⟨i, hi, rfl⟩ := List.mem_map.1 hy
      have := (hl i (List.mem_range.1 hi)).2
      omega
    · obtain ⟨i, q, d, hq, rfl⟩ := mem_distances hy
      exact (hdist i q d hq).2.2
  have hxn : (x.toInt.toNat : Int) = x.toInt := Int.toNat_of_nonneg h₀
  refine ⟨x.toInt.toNat, ⟨fun i hi => ⟨(hl i hi).1, ?_⟩, fun i q d hq => ?_, ?_⟩⟩
  · rw [hxn]
    exact le_foldl_max (.inr (List.mem_append_left _
      (List.mem_map.2 ⟨i, List.mem_range.2 hi, rfl⟩)))
  · obtain ⟨hqi, hd₀, -⟩ := hdist i q d hq
    refine ⟨hqi, hd₀, ?_⟩
    rw [hxn]
    exact le_foldl_max (.inr (List.mem_append_right _ (distance_mem_distances hq)))
  · have hlimit : p.cycleLimit p.constraints = Int64.ofNat p.size * (x + 1) + 1 := rfl
    have hone : (1 : Int64).toInt = 1 := rfl
    rw [hlimit, hxn]
    rcases Nat.eq_zero_or_pos p.size with hn | hn
    · have hzero : Int64.ofNat 0 = 0 := rfl
      rw [hn, hzero, Int64.zero_mul, Int64.zero_add, hone]
      omega
    · -- With an instruction there, the wait itself is bounded by the word.
      have hn₁ := Nat.mul_le_mul_right (longest + 2) hn
      have hn₂ := Nat.le_mul_of_pos_right p.size (show 0 < longest + 2 by omega)
      have hsize : (Int64.ofNat p.size).toInt = p.size := Int64.toInt_ofNat_of_lt (by omega)
      have hsucc : (x + 1).toInt = x.toInt + 1 := by
        rw [toInt_add_of_lt h₀ (by decide) (by omega), hone]
      have hprod : (p.size : Int) * (x.toInt + 1) ≤ p.size * (longest + 2) :=
        Int.mul_le_mul_of_nonneg_left (by omega) (by omega)
      have hword' : (p.size : Int) * (longest + 2) + 1 < 2 ^ 63 := by exact_mod_cast hword
      have hpos : 0 ≤ (p.size : Int) * (x.toInt + 1) := Int.mul_nonneg (by omega) (by omega)
      have hmul : (Int64.ofNat p.size * (x + 1)).toInt = p.size * (x.toInt + 1) := by
        rw [toInt_mul_of_lt (by omega) (by omega) (by rw [hsize, hsucc]; omega), hsize, hsucc]
      rw [toInt_add_of_lt (by omega) (by decide) (by omega), hmul, hone]

theorem Waits.word (h : p.Waits wait) : p.size * (wait + 1) + 1 < 2 ^ 63 := by
  have := Int64.toInt_lt (p.cycleLimit p.constraints)
  rw [h.limit] at this
  exact_mod_cast this

/-- Whether a constraint is met is a question about numbers. -/
theorem isMet_iff_le (hk : issued.get? q = some k) (hd : 0 ≤ d.distance.toInt)
    (hword : k + d.distance.toInt < 2 ^ 63) (hcycle : cycle < 2 ^ 63) :
    isMet issued cycle q d = true ↔ k + d.distance.toInt ≤ cycle := by
  have hk' : (Int64.ofNat k).toInt = k := Int64.toInt_ofNat_of_lt (by omega)
  have hc' : (Int64.ofNat cycle).toInt = cycle := Int64.toInt_ofNat_of_lt hcycle
  have hsum := toInt_add_of_lt (a := Int64.ofNat k) (b := d.distance) (by omega) hd (by omega)
  rw [isMet_iff]
  simp only [hk, Option.some.injEq, exists_eq_left', Int64.le_iff_toInt_le, hsum, hk', hc']

/-- After the latency an instruction holds nothing back. -/
theorem holdsBack_eq_false {t : Traits} {a : Nat} (h₀ : 0 ≤ (t.latency a).toInt)
    (hcycle : cycle < 2 ^ 63) (h : k + (t.latency a).toInt < cycle) :
    holdsBack t a k i cycle = false := by
  have hk' : (Int64.ofNat k).toInt = k := Int64.toInt_ofNat_of_lt (by omega)
  have hc' : (Int64.ofNat cycle).toInt = cycle := Int64.toInt_ofNat_of_lt hcycle
  have hsum := toInt_add_of_lt (a := Int64.ofNat k) (b := t.latency a) (by omega) h₀ (by omega)
  have hlate : ¬ Int64.ofNat cycle ≤ Int64.ofNat k + t.latency a := by
    rw [Int64.le_iff_toInt_le, hsum]
    omega
  simp [holdsBack, hlate]

/-- **The first instruction that is left is ready in time.** -/
theorem Timely.ready_ne_nil (h : p.Timely wait issued cycle) (hw : p.Waits wait)
    (hn : issued.size < p.size) (hc : issued.size * (wait + 1) ≤ cycle) :
    p.ready p.constraints issued cycle ≠ [] := by
  obtain ⟨i, hi, hnone, hbefore⟩ := exists_first_left hn
  have hword := hw.word
  have hsize := Nat.mul_le_mul_right (wait + 1) hn
  have hearly := h.early
  rw [Nat.succ_mul] at hsize
  refine List.ne_nil_of_mem (mem_ready.2 ⟨hi, hnone, isReady_iff.2 ⟨fun q d hq => ?_, ?_⟩⟩)
  · obtain ⟨hqi, hd₀, hd⟩ := hw.distance i q d hq
    obtain ⟨k, hk⟩ := hbefore q hqi
    have := (h.issued_early q k hk).2
    rw [isMet_iff_le hk hd₀ (by omega) (by omega)]
    omega
  · intro a k hk
    obtain ⟨ha, hle⟩ := h.issued_early a k hk
    obtain ⟨hl₀, hl⟩ := hw.latency a ha
    exact holdsBack_eq_false hl₀ (by omega) (by omega)

theorem Timely.issueCycle (h : p.Timely wait w.issued cycle) (hw : p.Waits wait)
    (hn : w.issued.size < p.size) :
    p.Timely wait (p.issueCycle p.constraints w cycle).issued (cycle + 1) := by
  -- Once something is issued there is time for one more cycle.
  have later : ∀ {issued : Issued}, p.Timely wait issued cycle → w.issued.size < issued.size →
      p.Timely wait issued (cycle + 1) := by
    intro issued hi hlt
    refine ⟨?_, hi.issued_early⟩
    have := Nat.mul_le_mul_right (wait + 1) hlt
    rw [Nat.succ_mul] at this
    have := h.early
    omega
  obtain ⟨hnil, he⟩ | ⟨a, ha, he⟩ | ⟨-, a, b, x, y, ha, hb, -, he⟩ :=
    issueCycle_cases p p.constraints w cycle
  · rw [he]
    refine ⟨?_, h.issued_early⟩
    have := h.early
    by_contra hlate
    exact h.ready_ne_nil hw hn (by omega) hnil
  · rw [he]
    refine later (h.insert ha) ?_
    rw [size_insert (mem_ready.1 ha).2.1]
    omega
  · rw [he]
    refine later ((h.insert ha).insert hb) ?_
    rw [size_insert (mem_ready.1 hb).2.1, size_insert (mem_ready.1 ha).2.1]
    omega

/-! ### The schedule shows what is issued -/

theorem slot_place {s : Schedule} {second : Bool} {pos : Int} :
    (s.place cycle second i).slot pos =
      if pos = (if s.dual then 2 * (cycle : Int) + (if second then 1 else 0) else cycle) then
        (i : Int)
      else s.slot pos := by
  rw [Schedule.slot, Schedule.place, OrderedMap.getD_insert]
  rfl

theorem dual_place {s : Schedule} {second : Bool} : (s.place cycle second i).dual = s.dual := rfl

/-- Placing an instruction in a cycle without instructions. -/
theorem issuesIn_place {s : Schedule} {j : Nat} (hs : ∀ j, ¬ s.IssuesIn j cycle) :
    (s.place cycle false i).IssuesIn j k ↔ (j = i ∧ k = cycle) ∨ s.IssuesIn j k := by
  have hj := hs j
  simp only [Schedule.IssuesIn, slot_place, dual_place] at hj ⊢
  by_cases hk : k = cycle
  · subst hk
    cases hd : s.dual <;> simp only [hd] at hj ⊢ <;> grind
  · cases hd : s.dual <;> grind

/-- Placing a pair in a cycle without instructions. -/
theorem issuesIn_place_pair {s : Schedule} {x y j : Nat} (hd : s.dual = true)
    (hs : ∀ j, ¬ s.IssuesIn j cycle) :
    ((s.place cycle false x).place cycle true y).IssuesIn j k ↔
      ((j = x ∨ j = y) ∧ k = cycle) ∨ s.IssuesIn j k := by
  have hj := hs j
  simp only [Schedule.IssuesIn, slot_place, dual_place, hd, if_true] at hj ⊢
  by_cases hk : k = cycle
  · subst hk
    grind
  · grind

/-- The schedule shows just what is issued, all of it in bundles of past cycles. -/
structure Tracks (p : IssueProblem) (w : Progress) (cycle : Nat) : Prop where
  dual : w.schedule.dual = p.slots.isSome
  placed : w.schedule.Placed
  shows : ∀ i k, w.schedule.IssuesIn i k ↔ w.issued.get? i = some k
  past : ∀ i k, w.issued.get? i = some k → k < cycle

theorem get?_insert_eq_some {a b c : Nat} (ha : issued.get? a = none) :
    (issued.insert a c).get? b = some k ↔ (b = a ∧ k = c) ∨ issued.get? b = some k := by
  rw [OrderedMap.get?_insert]
  split
  · next hb =>
    subst hb
    simp [ha, eq_comm]
  · next hb => simp [hb]

/-- A cycle keeps what is issued and adds to it in the cycle itself. -/
theorem get?_issueCycle (p : IssueProblem) (g : ConstraintGraph) (w : Progress) (cycle : Nat) :
    (∀ i k, w.issued.get? i = some k → (p.issueCycle g w cycle).issued.get? i = some k) ∧
      ∀ i k, (p.issueCycle g w cycle).issued.get? i = some k →
        w.issued.get? i = some k ∨ k = cycle := by
  refine issued_issueCycle (P := fun issued =>
    (∀ i k, w.issued.get? i = some k → issued.get? i = some k) ∧
      ∀ i k, issued.get? i = some k → w.issued.get? i = some k ∨ k = cycle)
    ⟨fun _ _ h => h, fun _ _ h => .inl h⟩ fun issued a ⟨hkept, hnew⟩ ha => ?_
  simp only [get?_insert_eq_some (mem_ready.1 ha).2.1]
  exact ⟨fun i k h => .inr (hkept i k h), fun i k h => h.elim (fun h => .inr h.2) (hnew i k)⟩

theorem Tracks.issueCycle (h : p.Tracks w cycle) :
    p.Tracks (p.issueCycle g w cycle) (cycle + 1) := by
  have hfree : ∀ j, ¬ w.schedule.IssuesIn j cycle := by
    intro j hj
    have := h.past j cycle ((h.shows j cycle).1 hj)
    omega
  obtain ⟨-, he⟩ | ⟨a, ha, he⟩ | ⟨hs, a, b, x, y, ha, hb, hxy, he⟩ := issueCycle_cases p g w cycle
  · rw [he]
    exact ⟨h.dual, h.placed, h.shows, fun i k hk => Nat.lt_succ_of_lt (h.past i k hk)⟩
  · have hget := fun i k => get?_insert_eq_some (b := i) (k := k) (c := cycle) (mem_ready.1 ha).2.1
    rw [he]
    refine ⟨h.dual, h.placed.place _ _ _, fun i k => ?_, fun i k hk => ?_⟩
    · rw [issuesIn_place hfree, hget, h.shows]
    · rcases (hget i k).1 hk with ⟨-, rfl⟩ | hk
      · omega
      · exact Nat.lt_succ_of_lt (h.past i k hk)
  · have hget : ∀ i k, ((w.issued.insert a cycle).insert b cycle).get? i = some k ↔
        ((i = x ∨ i = y) ∧ k = cycle) ∨ w.issued.get? i = some k := by
      intro i k
      rw [get?_insert_eq_some (mem_ready.1 hb).2.1, get?_insert_eq_some (mem_ready.1 ha).2.1]
      rcases hxy with hxy | hxy <;> cases hxy <;> tauto
    rw [he]
    refine ⟨h.dual, (h.placed.place _ _ _).place _ _ _, fun i k => ?_, fun i k hk => ?_⟩
    · rw [issuesIn_place_pair (h.dual.trans hs) hfree, hget, h.shows]
    · rcases (hget i k).1 hk with ⟨-, rfl⟩ | hk
      · omega
      · exact Nat.lt_succ_of_lt (h.past i k hk)

/-! ### The whole run -/

/-- What holds before each cycle. -/
structure Sound (p : IssueProblem) (wait cycle : Nat) (w : Progress) : Prop where
  timely : p.Timely wait w.issued cycle
  respected : Respected p.constraints w.issued
  tracks : p.Tracks w cycle

/-- The schedule before the first cycle. -/
def blank (p : IssueProblem) : Schedule :=
  { dual := p.slots.isSome, long := (List.range p.size).map p.isLong }

theorem sound_blank (p : IssueProblem) (wait : Nat) : p.Sound wait 0 { schedule := p.blank } := by
  have hslot : ∀ pos, p.blank.slot pos = noInstr := fun pos => rfl
  refine ⟨⟨by omega, by simp⟩, by simp [Respected], rfl, Schedule.placed_empty _ _, fun i k => ?_,
    by simp⟩
  simp only [Schedule.IssuesIn, hslot, noInstr, OrderedMap.get?_empty, reduceCtorEq, iff_false]
  split <;> simp

theorem Sound.issueCycle (h : p.Sound wait cycle w) (hw : p.Waits wait)
    (hn : w.issued.size < p.size) :
    p.Sound wait (cycle + 1) (p.issueCycle p.constraints w cycle) := by
  exact ⟨h.timely.issueCycle hw hn, issued_issueCycle h.respected fun _ _ h hi => h.insert hi,
    h.tracks.issueCycle⟩

/-- **The rule for runs.**  What each cycle keeps holds at the end, and the end
comes if the run stays below the limit as long as something is left. -/
theorem issueFrom_induction {P : Nat → Progress → Prop} (limit : Nat)
    (step : ∀ cycle w, P cycle w → w.issued.size < p.size →
      P (cycle + 1) (p.issueCycle g w cycle))
    (below : ∀ cycle w, P cycle w → w.issued.size < p.size → cycle < limit) :
    ∀ cycles cycle w, limit ≤ cycles + cycle → P cycle w →
      ∃ w' last, p.issueFrom g cycles cycle w = .ok w' ∧ P last w' ∧ p.size ≤ w'.issued.size := by
  intro cycles
  induction cycles with
  | zero =>
    intro cycle w hlimit h
    by_cases hn : p.size ≤ w.issued.size
    · exact ⟨w, cycle, by rw [issueFrom, if_pos hn], h, hn⟩
    · have := below cycle w h (by omega)
      omega
  | succ cycles ih =>
    intro cycle w hlimit h
    by_cases hn : p.size ≤ w.issued.size
    · exact ⟨w, cycle, by rw [issueFrom, if_pos hn], h, hn⟩
    · rw [issueFrom, if_neg hn]
      exact ih (cycle + 1) _ (by omega) (step cycle w h (by omega))

/-- **What every cycle keeps holds of a schedule**, however it came about that the
limit sufficed. -/
theorem schedule_sound_within {P : Nat → Progress → Prop} {s : Schedule}
    (start : P 0 { schedule := p.blank })
    (step : ∀ cycle w, P cycle w → P (cycle + 1) (p.issueCycle p.constraints w cycle))
    (h : p.schedule = .ok s) :
    ∃ w last, w.schedule = s ∧ P last w ∧ p.size ≤ w.issued.size ∧
      last ≤ ((p.cycleLimit p.constraints).toInt + 1).toNat := by
  have run : ∀ cycles cycle w w', P cycle w →
      p.issueFrom p.constraints cycles cycle w = .ok w' →
        ∃ last, P last w' ∧ p.size ≤ w'.issued.size ∧ last ≤ cycle + cycles := by
    intro cycles
    induction cycles with
    | zero =>
      intro cycle w w' hw hrun
      rw [issueFrom] at hrun
      split at hrun
      · next hn =>
        cases hrun
        exact ⟨cycle, hw, hn, by omega⟩
      · cases hrun
    | succ cycles ih =>
      intro cycle w w' hw hrun
      rw [issueFrom] at hrun
      split at hrun
      · next hn =>
        cases hrun
        exact ⟨cycle, hw, hn, by omega⟩
      · obtain ⟨last, hP, hn, hle⟩ := ih (cycle + 1) _ w' (step cycle w hw) hrun
        exact ⟨last, hP, hn, by omega⟩
  simp only [schedule] at h
  split at h
  · next w hrun =>
    cases h
    obtain ⟨last, hP, hn, hle⟩ := run _ _ _ _ start hrun
    exact ⟨w, last, rfl, hP, hn, by omega⟩
  · cases h

theorem schedule_sound {P : Nat → Progress → Prop} {s : Schedule}
    (start : P 0 { schedule := p.blank })
    (step : ∀ cycle w, P cycle w → P (cycle + 1) (p.issueCycle p.constraints w cycle))
    (h : p.schedule = .ok s) :
    ∃ w last, w.schedule = s ∧ P last w ∧ p.size ≤ w.issued.size := by
  obtain ⟨w, last, hw, hP, hn, -⟩ := schedule_sound_within start step h
  exact ⟨w, last, hw, hP, hn⟩

/-- **The bundles of a schedule can be listed.** -/
theorem placed_schedule {s : Schedule} (h : p.schedule = .ok s) : s.Placed := by
  obtain ⟨w, last, rfl, htracks, -⟩ := schedule_sound (P := fun cycle w => p.Tracks w cycle)
    (p.sound_blank 0).tracks (fun _ _ h => h.issueCycle) h
  exact htracks.placed

/-- **Scheduling succeeds**, in a state that every cycle keeps. -/
theorem schedule_induction {P : Nat → Progress → Prop} (hw : p.Waits wait)
    (start : P 0 { schedule := p.blank })
    (step : ∀ cycle w, P cycle w → p.Sound wait cycle w → w.issued.size < p.size →
      P (cycle + 1) (p.issueCycle p.constraints w cycle)) :
    ∃ w last, p.schedule = .ok w.schedule ∧ P last w ∧ p.Sound wait last w ∧
      p.size ≤ w.issued.size := by
  have hlimit : ((p.cycleLimit p.constraints).toInt + 1).toNat = p.size * (wait + 1) + 2 := by
    have := hw.limit
    have hcast : ((p.size * (wait + 1) : Nat) : Int) = p.size * (wait + 1) := by push_cast; rfl
    omega
  obtain ⟨w, last, hrun, ⟨hP, hsound⟩, hall⟩ := issueFrom_induction (g := p.constraints)
    (P := fun cycle w => P cycle w ∧ p.Sound wait cycle w) (p.size * (wait + 1))
    (fun cycle w h hn => ⟨step cycle w h.1 h.2 hn, h.2.issueCycle hw hn⟩)
    (fun cycle w h hn => by
      have := Nat.mul_le_mul_right (wait + 1) hn
      rw [Nat.succ_mul] at this
      have := h.2.timely.early
      omega)
    (p.size * (wait + 1) + 2) 0 { schedule := p.blank } (by omega) ⟨start, p.sound_blank wait⟩
  refine ⟨w, last, ?_, hP, hsound, hall⟩
  have hrun' : p.issueFrom p.constraints ((p.cycleLimit p.constraints).toInt + 1).toNat 0
      { schedule := p.blank } = .ok w := by rw [hlimit, hrun]
  simp only [schedule]
  simp only [blank] at hrun'
  rw [hrun']

/-- **Every constraint separates the cycles** of the two instructions. -/
theorem Sound.distance_le (h : p.Sound wait cycle w) (hw : p.Waits wait) {a b : Nat}
    (hd : (p.constraints.predsOf i).get? q = some d) (hq : w.schedule.IssuesIn q a)
    (hi : w.schedule.IssuesIn i b) : a + d.distance.toInt ≤ b := by
  have hqa := (h.tracks.shows q a).1 hq
  have hib := (h.tracks.shows i b).1 hi
  have hmet := h.respected i b hib q d hd
  have hword := hw.word
  obtain ⟨-, hd₀, hdw⟩ := hw.distance i q d hd
  have ha := (h.timely.issued_early q a hqa).2
  have hb := (h.timely.issued_early i b hib).2
  have hmul := Nat.mul_le_mul_right (wait + 1) h.timely.size_le
  exact (isMet_iff_le hqa hd₀ (by omega) (by omega)).1 hmet

end IssueProblem
end ConstantTime
