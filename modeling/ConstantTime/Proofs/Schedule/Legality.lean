/-
# Schedules are legal

"Single-Path Constant-Time Transformation Engine", §8 and §12.6.

Scheduling never gives up when a word holds the waits, and its result is legal
(`IssueProblem.IsLegal`): the positions that are taken hold the instructions of the
block, each at one position, and with dual issue two instructions share a bundle only
if the slots or the oracle allow it in one of the two orders.

A position belongs to the cycle in which its instruction is issued, and a second slot
is taken only in a cycle that issues a pair (`Arranged`).  So an instruction could be at
two positions only within one bundle, and there it is issued with another.
-/

import ConstantTime.Proofs.Schedule.Issue
import Mathlib.Data.List.Nodup

namespace ConstantTime

/-! ### Positions -/

namespace Schedule

/-- The cycle that a position belongs to. -/
def cycleAt (s : Schedule) (pos : Int) : Int := if s.dual then pos / 2 else pos

variable {s : Schedule} {i cycle : Nat} {pos x : Int}

theorem get?_place {second : Bool} : (s.place cycle second i).positions.get? pos =
    if pos = (if s.dual then 2 * (cycle : Int) + (if second then 1 else 0) else cycle) then
      some (i : Int)
    else s.positions.get? pos :=
  OrderedMap.get?_insert

theorem slot_eq_iff : s.slot pos = i ↔ s.positions.get? pos = some (i : Int) := by
  rw [slot, OrderedMap.getD_eq]
  cases h : s.positions.get? pos with
  | none =>
    show noInstr = (i : Int) ↔ none = some (i : Int)
    simp only [noInstr, reduceCtorEq]
  | some y => simp

/-- What is issued in a cycle is at a position of the cycle. -/
theorem IssuesIn.exists_position (h : s.IssuesIn i cycle) :
    ∃ pos, s.positions.get? pos = some (i : Int) := by
  simp only [IssuesIn, slot_eq_iff] at h
  split at h
  · exact h.elim (fun h => ⟨_, h⟩) fun h => ⟨_, h⟩
  · exact ⟨_, h⟩

/-- An instruction at one position only is issued once. -/
theorem timesIssued_eq_one
    (honce : ∀ pos pos' x, s.positions.get? pos = some x → s.positions.get? pos' = some x →
      pos = pos') (h : s.positions.get? pos = some (i : Int)) : s.timesIssued i = 1 := by
  have hkeys : (s.positions.entries.map Prod.fst).Nodup := OrderedMap.nodup_keys s.positions
  have hvalues : s.positions.values.Nodup := by
    refine List.Nodup.map_on (fun e he e' he' heq => ?_) hkeys.of_map
    obtain ⟨pos, x⟩ := e
    obtain ⟨pos', x'⟩ := e'
    obtain rfl : x = x' := heq
    rw [honce pos pos' x (OrderedMap.get?_eq_some_iff.2 he) (OrderedMap.get?_eq_some_iff.2 he')]
  have hcount := List.count_eq_one_of_mem hvalues (OrderedMap.mem_values_of_get? h)
  rw [timesIssued, ← hcount, List.count]
  exact List.countP_congr fun x _ => by simp

theorem verify_eq_none (h : s.faults = []) : s.verify = none := by
  rw [verify, h, List.map_nil, List.mergeSort_nil, List.map_nil]
  rfl

end Schedule

namespace IssueProblem

open Schedule

variable {p : IssueProblem} {s : Schedule} {g : ConstraintGraph} {w : Progress}
  {cycle i : Nat} {pos x : Int}

/-- **A legal schedule.** -/
structure IsLegal (p : IssueProblem) (s : Schedule) : Prop where
  /-- No instruction is at two positions. -/
  once : ∀ pos pos' x, s.positions.get? pos = some x → s.positions.get? pos' = some x → pos = pos'
  /-- The instructions of the block are issued, and nothing else. -/
  all : ∀ x, (∃ pos, s.positions.get? pos = some x) ↔ 0 ≤ x ∧ x < p.size
  verified : s.verify = none
  /-- What is in a second slot may be there. -/
  second : ∀ slots, p.slots = some slots → ∀ (k : Int) (y : Nat),
    s.positions.get? (2 * k + 1) = some (y : Int) → slots.maySecond y = true
  /-- What shares a bundle may do so. -/
  pairs : ∀ slots, p.slots = some slots → ∀ (k : Int) (x y : Nat),
    s.positions.get? (2 * k) = some (x : Int) → s.positions.get? (2 * k + 1) = some (y : Int) →
      p.MayPair slots x y

/-! ### Where a run puts its instructions -/

/-- What is at a position was issued in its cycle, as `P` tells. -/
def Placed (s : Schedule) (P : Nat → Nat → Prop) : Prop :=
  ∀ pos x, s.positions.get? pos = some x → ∃ i k : Nat, x = i ∧ P i k ∧ s.cycleAt pos = k

theorem Placed.place {P Q : Nat → Nat → Prop} {second : Bool} (h : Placed s P)
    (hPQ : ∀ i k, P i k → Q i k) (hi : Q i cycle) :
    Placed (s.place cycle second i) Q := by
  intro pos x hx
  rw [get?_place] at hx
  by_cases hpos : pos = (if s.dual then 2 * (cycle : Int) + (if second then 1 else 0) else cycle)
  · rw [if_pos hpos, Option.some.injEq] at hx
    refine ⟨i, cycle, hx.symm, hi, ?_⟩
    show (if s.dual then pos / 2 else pos) = (cycle : Int)
    cases hd : s.dual with
    | false => simpa [hd] using hpos
    | true =>
      simp only [hd, if_true] at hpos ⊢
      split at hpos <;> omega
  · rw [if_neg hpos] at hx
    obtain ⟨j, k, rfl, hj, hk⟩ := h pos x hx
    exact ⟨j, k, rfl, hPQ j k hj, hk⟩

/-- What holds of the positions before each cycle. -/
structure Arranged (p : IssueProblem) (cycle : Nat) (w : Progress) : Prop where
  tracks : p.Tracks w cycle
  placed : Placed w.schedule fun i k => w.issued.get? i = some k
  /-- A second slot is taken beside a first one. -/
  paired : ∀ slots, p.slots = some slots → ∀ (k : Int) (y : Nat),
    w.schedule.positions.get? (2 * k + 1) = some (y : Int) →
      ∃ x : Nat, w.schedule.positions.get? (2 * k) = some (x : Int) ∧ x ≠ y ∧ p.MayPair slots x y

/-- The second slots that are taken are those of past cycles. -/
theorem Arranged.lt_cycle (h : p.Arranged cycle w) (hd : w.schedule.dual = true) {k y : Int}
    (hy : w.schedule.positions.get? (2 * k + 1) = some y) : k < cycle := by
  obtain ⟨i, j, -, hi, hj⟩ := h.placed _ y hy
  have hpast := h.tracks.past i j hi
  rw [cycleAt, if_pos hd] at hj
  omega

theorem arranged_blank (p : IssueProblem) : p.Arranged 0 { schedule := p.blank } := by
  have hnone : ∀ pos, p.blank.positions.get? pos = none := fun pos => rfl
  refine ⟨(p.sound_blank 0).tracks, fun pos x hx => ?_, fun slots _ k y hy => ?_⟩
  · rw [hnone] at hx
    cases hx
  · rw [hnone] at hy
    cases hy

theorem Arranged.issueCycle (h : p.Arranged cycle w) :
    p.Arranged (cycle + 1) (p.issueCycle g w cycle) := by
  have htracks : p.Tracks (p.issueCycle g w cycle) (cycle + 1) := h.tracks.issueCycle
  obtain ⟨-, he⟩ | ⟨a, ha, he⟩ | ⟨slots, hs, a, b, x, y, ha, hb, hxy, hpair, he⟩ :=
    issueCycle_slots p g w cycle
  · rw [he] at htracks ⊢
    exact ⟨htracks, h.placed, h.paired⟩
  · have hnew := (mem_ready.1 ha).2.1
    rw [he] at htracks ⊢
    refine ⟨htracks, h.placed.place (fun i k hi => ?_) ?_, fun slots hs k y hy => ?_⟩
    · exact (get?_insert_eq_some hnew).2 (.inr hi)
    · exact (get?_insert_eq_some hnew).2 (.inl ⟨rfl, rfl⟩)
    · -- the first slot of this cycle is no second one
      have hd : w.schedule.dual = true := by rw [h.tracks.dual, hs, Option.isSome_some]
      simp only [get?_place, hd, if_true, Bool.false_eq_true, if_false] at hy ⊢
      rw [if_neg (by omega)] at hy
      have := h.lt_cycle hd hy
      rw [if_neg (by omega)]
      exact h.paired slots hs k y hy
  · have hd : w.schedule.dual = true := by rw [h.tracks.dual, hs, Option.isSome_some]
    have hget : ∀ i k, ((w.issued.insert a cycle).insert b cycle).get? i = some k ↔
        ((i = x ∨ i = y) ∧ k = cycle) ∨ w.issued.get? i = some k := by
      intro i k
      rw [get?_insert_eq_some (mem_ready.1 hb).2.1, get?_insert_eq_some (mem_ready.1 ha).2.1]
      rcases hxy with hxy | hxy <;> cases hxy <;> tauto
    have hne : x ≠ y := by
      have hba : b ≠ a := by
        rintro rfl
        have := (mem_ready.1 hb).2.1
        simp at this
      rcases hxy with hxy | hxy <;> cases hxy
      · exact hba.symm
      · exact hba
    rw [he] at htracks ⊢
    refine ⟨htracks, ?_, fun slots' hs' k z hz => ?_⟩
    · refine (h.placed.place (Q := fun i k => ((w.issued.insert a cycle).insert b cycle).get? i =
        some k) (fun i k hi => ?_) ?_).place (fun _ _ hi => hi) ?_
      · exact (hget i k).2 (.inr hi)
      · exact (hget x cycle).2 (.inl ⟨.inl rfl, rfl⟩)
      · exact (hget y cycle).2 (.inl ⟨.inr rfl, rfl⟩)
    · cases hs.symm.trans hs'
      simp only [get?_place, dual_place, hd, if_true, Bool.false_eq_true, if_false] at hz ⊢
      by_cases hk : k = cycle
      · subst hk
        rw [if_pos rfl] at hz
        obtain rfl : y = z := by exact_mod_cast Option.some.inj hz
        exact ⟨x, by rw [if_neg (by omega), if_pos (by omega)], hne, hpair⟩
      · rw [if_neg (by omega), if_neg (by omega)] at hz
        obtain ⟨x', hx', hrest⟩ := h.paired slots hs k z hz
        exact ⟨x', by rw [if_neg (by omega), if_neg (by omega), hx'], hrest⟩

/-! ### The end of a run -/

/-- No instruction is at two positions. -/
theorem Arranged.once (h : p.Arranged cycle w) {pos pos' x : Int}
    (hx : w.schedule.positions.get? pos = some x)
    (hx' : w.schedule.positions.get? pos' = some x) : pos = pos' := by
  obtain ⟨i, k, rfl, hi, hk⟩ := h.placed pos x hx
  obtain ⟨j, k', hij, hj, hk'⟩ := h.placed pos' _ hx'
  obtain rfl : i = j := by exact_mod_cast hij
  obtain rfl : k = k' := Option.some.inj (hi.symm.trans hj)
  cases hs : p.slots with
  | none =>
    have hd : w.schedule.dual = false := by rw [h.tracks.dual, hs, Option.isSome_none]
    simp only [cycleAt, hd, Bool.false_eq_true, if_false] at hk hk'
    omega
  | some slots =>
    have hd : w.schedule.dual = true := by rw [h.tracks.dual, hs, Option.isSome_some]
    simp only [cycleAt, hd, if_true] at hk hk'
    -- in one bundle the second slot has another instruction than the first
    have hnot : ∀ {a b : Int}, w.schedule.positions.get? a = some (i : Int) →
        w.schedule.positions.get? b = some (i : Int) → a = 2 * k → b = 2 * k + 1 → False := by
      rintro a b ha hb rfl rfl
      obtain ⟨x, hx, hne, -⟩ := h.paired slots hs k i hb
      rw [ha] at hx
      exact hne (by exact_mod_cast (Option.some.inj hx).symm)
    by_contra hne
    obtain ⟨ha, hb⟩ | ⟨ha, hb⟩ : (pos = 2 * k ∧ pos' = 2 * k + 1) ∨
        (pos' = 2 * k ∧ pos = 2 * k + 1) := by omega
    · exact hnot hx hx' ha hb
    · exact hnot hx' hx ha hb

theorem isLong_blank (hi : i < p.size) (hs : s.long = p.blank.long) :
    s.isLong i = p.isLong i := by
  simp [Schedule.isLong, hs, blank, hi]

theorem size_blank (hs : s.long = p.blank.long) : s.size = p.size := by
  rw [Schedule.size, hs]
  simp [blank]

/-- The traits of the instructions stay with the schedule. -/
theorem long_issueCycle : (p.issueCycle g w cycle).schedule.long = w.schedule.long := by
  obtain ⟨-, he⟩ | ⟨a, -, he⟩ | ⟨-, a, b, x, y, -, -, -, he⟩ := issueCycle_cases p g w cycle <;>
    rw [he] <;> rfl

/-- A long instruction is in the first slot, and alone. -/
theorem Arranged.long_alone (h : p.Arranged cycle w) {slots : Slots} (hs : p.slots = some slots)
    (hlong : slots.isLong i = true) (hx : w.schedule.positions.get? pos = some (i : Int)) :
    pos % 2 = 0 ∧ w.schedule.positions.get? (pos + 1) = none := by
  have heven : pos % 2 = 0 := by
    by_contra hodd
    have hpos : pos = 2 * (pos / 2) + 1 := by omega
    rw [hpos] at hx
    obtain ⟨x, -, -, hpair⟩ := h.paired slots hs (pos / 2) i hx
    rw [hpair.short.2] at hlong
    cases hlong
  refine ⟨heven, ?_⟩
  cases hnext : w.schedule.positions.get? (pos + 1) with
  | none => rfl
  | some y =>
    obtain ⟨j, -, rfl, -, -⟩ := h.placed _ y hnext
    have hpos : pos = 2 * (pos / 2) := by omega
    rw [hpos] at hnext hx
    obtain ⟨x, hx', -, hpair⟩ := h.paired slots hs (pos / 2) j hnext
    obtain rfl : i = x := by exact_mod_cast Option.some.inj (hx.symm.trans hx')
    rw [hpair.short.1] at hlong
    cases hlong

theorem Arranged.faultsAt_eq_nil (h : p.Arranged cycle w)
    (hlong : w.schedule.long = p.blank.long) (hi : i < p.size)
    (hx : w.schedule.positions.get? pos = some (i : Int)) : w.schedule.faultsAt pos i = [] := by
  have hsize := size_blank hlong
  have hno : ¬ ((decide ((i : Int) < 0) || decide ((w.schedule.size : Int) ≤ i)) = true) := by
    simp only [hsize, Bool.or_eq_true, decide_eq_true_eq]
    omega
  rw [faultsAt, if_neg hno]
  split
  · rfl
  · next hdual =>
    rw [Bool.or_eq_true, not_or, Bool.not_eq_true', Bool.not_eq_true', Bool.not_eq_false,
      Bool.not_eq_false, isLong_blank hi hlong] at hdual
    obtain ⟨slots, hs⟩ := Option.isSome_iff_exists.1 (h.tracks.dual ▸ hdual.1)
    obtain ⟨heven, hnone⟩ := h.long_alone hs (by simpa [IssueProblem.isLong, hs] using hdual.2) hx
    rw [if_neg (by omega), hnone]
    rfl

/-- Nothing is wrong with a run that has issued everything. -/
theorem Arranged.faults_eq_nil (h : p.Arranged cycle w) (hlong : w.schedule.long = p.blank.long)
    (hin : ∀ i k, w.issued.get? i = some k → i < p.size)
    (hall : ∀ i < p.size, ∃ k, w.issued.get? i = some k) : w.schedule.faults = [] := by
  rw [faults, List.append_eq_nil_iff, List.flatMap_eq_nil_iff, List.filterMap_eq_nil_iff]
  constructor
  · rintro ⟨pos, x⟩ he
    have hx := OrderedMap.get?_eq_some_iff.2 he
    obtain ⟨i, k, rfl, hi, -⟩ := h.placed pos x hx
    exact h.faultsAt_eq_nil hlong (hin i k hi) hx
  · intro i hi
    obtain ⟨k, hk⟩ := hall i (size_blank hlong ▸ List.mem_range.1 hi)
    obtain ⟨pos, hpos⟩ := ((h.tracks.shows i k).2 hk).exists_position
    rw [if_pos (timesIssued_eq_one (fun _ _ _ => h.once) hpos)]

/-- A run that has issued everything ends in a legal schedule. -/
theorem Arranged.isLegal (h : p.Arranged cycle w) (hlong : w.schedule.long = p.blank.long)
    (hin : ∀ i k, w.issued.get? i = some k → i < p.size)
    (hall : ∀ i < p.size, ∃ k, w.issued.get? i = some k) : p.IsLegal w.schedule := by
  refine ⟨fun _ _ _ => h.once, fun x => ⟨?_, ?_⟩, verify_eq_none (h.faults_eq_nil hlong hin hall),
    fun slots hs k y hy => ?_, fun slots hs k x y hx hy => ?_⟩
  · rintro ⟨pos, hpos⟩
    obtain ⟨i, k, rfl, hi, -⟩ := h.placed pos x hpos
    have := hin i k hi
    omega
  · rintro ⟨h₀, hlt⟩
    obtain ⟨k, hk⟩ := hall x.toNat (by omega)
    have hx : ((x.toNat : Nat) : Int) = x := Int.toNat_of_nonneg h₀
    exact hx ▸ ((h.tracks.shows x.toNat k).2 hk).exists_position
  · obtain ⟨x, -, -, hpair⟩ := h.paired slots hs k y hy
    exact hpair.second
  · obtain ⟨x', hx', -, hpair⟩ := h.paired slots hs k y hy
    obtain rfl : x = x' := by exact_mod_cast Option.some.inj (hx.symm.trans hx')
    exact hpair

/-- **Scheduling succeeds with a legal schedule**, if no latency is negative and a word
holds the waits. -/
theorem exists_schedule_isLegal (hfits : p.traits.Fits p.size) :
    ∃ s, p.schedule = .ok s ∧ p.IsLegal s := by
  obtain ⟨wait, hw⟩ := exists_waits hfits
  obtain ⟨w, last, hsched, ⟨harranged, hlong⟩, hsound, hsize⟩ := schedule_induction
    (P := fun cycle w => p.Arranged cycle w ∧ w.schedule.long = p.blank.long) hw
    ⟨p.arranged_blank, rfl⟩
    fun _ _ h _ _ => ⟨h.1.issueCycle, long_issueCycle.trans h.2⟩
  exact ⟨w.schedule, hsched, harranged.isLegal hlong
    (fun i k hi => (hsound.timely.issued_early i k hi).1)
    fun i hi => hsound.timely.issued_of_size_le hsize hi⟩

/-- A slow instruction that alone may take the second slot, one that is never enabled
with it, seen from one side, a long one, and a reader of the result. -/
def slowSecond : IssueProblem where
  size := 4
  traits :=
    { reads := fun i => if i = 3 then ["a"] else []
      writes := fun i => if i = 0 then ["a"] else []
      latency := fun i => if i = 0 then 2 else 0 }
  slots := some
    { maySecond := (· = 0)
      isLong := (· = 2)
      mayBundle := fun _ _ => false }
  oracle := fun a b => !(a = 0 && b = 1)

/-- The slow instruction comes first and makes room for its partner. -/
theorem exists_schedule_isLegal_slowSecond :
    slowSecond.traits.Fits 4 ∧ (∃ s, slowSecond.schedule = .ok s ∧ slowSecond.IsLegal s) ∧
      slowSecond.schedule.toOption.map (fun s => s.positions.entries) =
        some [(0, 1), (1, 0), (2, 2), (6, 3)] := by
  have hfits : slowSecond.traits.Fits slowSecond.size := ⟨2, by decide +kernel, by decide⟩
  exact ⟨hfits, exists_schedule_isLegal hfits, by decide +kernel⟩

end IssueProblem
end ConstantTime
