/-
# Distances and windows

"Single-Path Constant-Time Transformation Engine", §12.6.

While an instruction that poisons executes, no other may touch what it writes: issued
in the cycle `c` with latency `L`, it keeps the others out of the cycles `c + 1` to
`c + L`, and calls out of all but the last (`Traits.InWindow`).  A schedule keeps the
waits if it keeps these windows and the distances of all constraints
(`IssueProblem.KeepsWaits`).

Readiness is asked twice in a cycle, and the second time the first instruction counts
as issued.  It holds back nothing in its own cycle, so once an instruction is issued
nothing that is issued later holds it back (`Unheld.insert`).

Both questions are sums of words.  A schedule keeps just those waits whose last cycle
is in the range of a word: beyond it the sum is negative, and the wait is over at once.
-/

import ConstantTime.Proofs.Schedule.Dependence

namespace ConstantTime

namespace Traits

variable (t : Traits)

/-- `i` reads or writes an operand that `w` writes. -/
def Touches (i w : Nat) : Prop := t.ReadsResult i w ∨ t.Overwrites i w

/-- In the cycle `k` the results of `w`, issued in the cycle `c`, are still out of
bounds for `i`. -/
structure InWindow (w i c k : Nat) : Prop where
  after : c < k
  within : (k : Int) ≤ c + (t.latency w).toInt
  /-- A call bears the last cycle. -/
  call : t.isCall i = true → (k : Int) < c + (t.latency w).toInt

end Traits

namespace IssueProblem

/-- Every constraint separates its instructions, and no instruction is issued in a
window of what it touches. -/
structure KeepsWaits (p : IssueProblem) (s : Schedule) : Prop where
  distance : ∀ i q d, (p.constraints.predsOf i).get? q = some d →
    ∀ a b, s.IssuesIn q a → s.IssuesIn i b → a + d.distance.toInt ≤ b
  window : ∀ w i, p.traits.poisons w = true → p.traits.Touches i w →
    ∀ c k, s.IssuesIn w c → s.IssuesIn i k → ¬ p.traits.InWindow w i c k

variable {p : IssueProblem} {g : ConstraintGraph} {t : Traits} {issued : Issued} {w : Progress}
  {s : Schedule} {cycle i q c k a b : Nat} {d : Constraint}

/-! ### Windows along a run -/

/-- No issued instruction holds back another where that is issued. -/
def Unheld (t : Traits) (issued : Issued) : Prop :=
  ∀ w c i k, issued.get? w = some c → issued.get? i = some k → holdsBack t w c i k = false

/-- Nothing is held back in a cycle before, or by what is issued in the same. -/
theorem holdsBack_of_le (h : k ≤ c) : holdsBack t q c i k = false := by
  have hnot : ¬ c < k := by omega
  simp [holdsBack, hnot]

theorem Unheld.insert (h : Unheld p.traits issued)
    (hpast : ∀ j k, issued.get? j = some k → k ≤ cycle) (hi : i ∈ p.ready g issued cycle) :
    Unheld p.traits (issued.insert i cycle) := by
  obtain ⟨-, hnew, hready⟩ := mem_ready.1 hi
  intro w c j k hw hj
  rw [get?_insert_eq_some hnew] at hw hj
  obtain ⟨rfl, rfl⟩ | hw := hw
  · obtain ⟨-, rfl⟩ | hj := hj
    · exact holdsBack_of_le (Nat.le_refl _)
    · exact holdsBack_of_le (hpast j k hj)
  · obtain ⟨rfl, rfl⟩ | hj := hj
    · exact (isReady_iff.1 hready).2 w c hw
    · exact h w c j k hw hj

/-- What holds before each cycle, also if the waits outgrow a word. -/
structure Guarded (p : IssueProblem) (cycle : Nat) (w : Progress) : Prop where
  tracks : p.Tracks w cycle
  respected : Respected p.constraints w.issued
  unheld : Unheld p.traits w.issued

theorem guarded_blank (p : IssueProblem) : p.Guarded 0 { schedule := p.blank } :=
  ⟨(p.sound_blank 0).tracks, (p.sound_blank 0).respected, by simp [Unheld]⟩

theorem Guarded.issueCycle (h : p.Guarded cycle w) :
    p.Guarded (cycle + 1) (p.issueCycle p.constraints w cycle) := by
  -- what is issued in this cycle before another one is no later
  have hunheld := issued_issueCycle (p := p) (g := p.constraints) (P := fun issued =>
    (∀ j k, issued.get? j = some k → k ≤ cycle) ∧ Unheld p.traits issued)
    ⟨fun j k hj => Nat.le_of_lt (h.tracks.past j k hj), h.unheld⟩
    fun issued a ⟨hpast, hunheld⟩ ha => by
      refine ⟨fun j k hj => ?_, hunheld.insert hpast ha⟩
      obtain ⟨-, rfl⟩ | hj := (get?_insert_eq_some (mem_ready.1 ha).2.1).1 hj
      · exact Nat.le_refl _
      · exact hpast j k hj
  exact ⟨h.tracks.issueCycle, issued_issueCycle h.respected fun _ _ h hi => h.insert hi, hunheld.2⟩

/-! ### Words -/

/-- The distance of a constraint that is met is kept, if its sum is a word. -/
theorem add_distance_le_iff (ha : a < 2 ^ 63) (hb : b < 2 ^ 63) (hq : issued.get? q = some a)
    (hmet : isMet issued b q d = true) :
    a + d.distance.toInt ≤ b ↔ a + d.distance.toInt < 2 ^ 63 := by
  refine ⟨fun hle => by omega, fun hlt => ?_⟩
  obtain ⟨a', ha', hle⟩ := isMet_iff.1 hmet
  obtain rfl : a = a' := Option.some.inj (hq.symm.trans ha')
  have ha' : (Int64.ofNat a).toInt = a := Int64.toInt_ofNat_of_lt ha
  have hb' : (Int64.ofNat b).toInt = b := Int64.toInt_ofNat_of_lt hb
  -- a negative distance takes nothing below a word
  have hlow := Int64.le_toInt d.distance
  have hsum : (Int64.ofNat a + d.distance).toInt = a + d.distance.toInt := by
    rw [Int64.toInt_add, ha']
    exact Int.bmod_eq_of_le (by omega) (by omega)
  rw [Int64.le_iff_toInt_le, hsum, hb'] at hle
  exact hle

/-- What is not held back is outside the window, if the end of the window is a word. -/
theorem not_inWindow_iff (hpoisons : t.poisons q = true) (htouch : t.Touches i q)
    (hk : k < 2 ^ 63) (hfree : holdsBack t q c i k = false) :
    ¬ t.InWindow q i c k ↔ k ≤ c ∨ c + (t.latency q).toInt < 2 ^ 63 := by
  constructor
  · intro hout
    by_contra hlate
    rw [not_or, Nat.not_le, Int.not_lt] at hlate
    exact hout ⟨hlate.1, by omega, fun _ => by omega⟩
  · rintro (hle | hword) ⟨hafter, hwithin, hcall⟩
    · omega
    · have hc' : (Int64.ofNat c).toInt = c := Int64.toInt_ofNat_of_lt (by omega)
      have hk' : (Int64.ofNat k).toInt = k := Int64.toInt_ofNat_of_lt hk
      have hlast : (Int64.ofNat c + t.latency q).toInt = c + (t.latency q).toInt := by
        rw [toInt_add_of_lt (by omega) (by omega) (by omega), hc']
      have hbefore := toInt_sub_one (a := Int64.ofNat c + t.latency q) (by omega)
      have hnow : Int64.ofNat k ≤ Int64.ofNat c + t.latency q := by
        rw [Int64.le_iff_toInt_le]
        omega
      have hnow' : t.isCall i = true → Int64.ofNat k ≤ Int64.ofNat c + t.latency q - 1 := by
        intro h
        have := hcall h
        rw [Int64.le_iff_toInt_le]
        omega
      have hlatency : t.latency q ≠ 0 := by
        intro h
        rw [h, Int64.toInt_zero] at hwithin
        omega
      have hpoisoned : t.poisoned q = t.variableWrites q := by
        simp [Traits.poisoned, hpoisons, hlatency]
      have hany : ((t.poisoned q).any fun op => t.readsOp i op || t.writesOp i op) = true := by
        rw [hpoisoned, List.any_eq_true]
        obtain ⟨op, hop, hi, hq⟩ | ⟨op, hop, hi, hq⟩ := htouch
        · exact ⟨op, by simpa [Traits.variableWrites, hop, Traits.writesOp] using hq, by simp [hi]⟩
        · exact ⟨op, by simpa [Traits.variableWrites, hop, Traits.writesOp] using hq, by simp [hi]⟩
      have hheld : holdsBack t q c i k = true := by
        simp only [holdsBack, hafter, hnow, hany, decide_true, Bool.true_and, Bool.and_true]
        cases h : t.isCall i with
        | false => rfl
        | true => simp [hnow' h]
      rw [hheld] at hfree
      cases hfree

/-! ### Schedules -/

/-- **Which waits a schedule keeps.**  Whatever the latencies, a schedule keeps a
distance if and only if its sum is a word, and a window that is not over if and only if
its end is one.  Traits that fit have a schedule, and it keeps them all. -/
theorem waits_of_schedule (p : IssueProblem) :
    (∀ s, p.schedule = .ok s →
      (∀ i q d, (p.constraints.predsOf i).get? q = some d →
        ∀ a b, s.IssuesIn q a → s.IssuesIn i b →
          (a + d.distance.toInt ≤ b ↔ a + d.distance.toInt < 2 ^ 63)) ∧
      ∀ w i, p.traits.poisons w = true → p.traits.Touches i w →
        ∀ c k, s.IssuesIn w c → s.IssuesIn i k →
          (¬ p.traits.InWindow w i c k ↔ k ≤ c ∨ c + (p.traits.latency w).toInt < 2 ^ 63)) ∧
    (p.traits.Fits p.size → ∃ s, p.schedule = .ok s ∧ p.KeepsWaits s) := by
  refine ⟨fun s hs => ?_, fun hfits => ?_⟩
  · obtain ⟨w, last, rfl, h, -, hlast⟩ :=
      schedule_sound_within p.guarded_blank (fun _ _ h => h.issueCycle) hs
    have hlimit := Int64.toInt_lt (p.cycleLimit p.constraints)
    have hword : ∀ i k, w.issued.get? i = some k → k < 2 ^ 63 := by
      intro i k hk
      have := h.tracks.past i k hk
      omega
    refine ⟨fun i q d hd a b ha hb => ?_, fun q i hpoisons htouch c k hc hk => ?_⟩
    · rw [h.tracks.shows] at ha hb
      exact add_distance_le_iff (hword q a ha) (hword i b hb) ha (h.respected i b hb q d hd)
    · rw [h.tracks.shows] at hc hk
      exact not_inWindow_iff hpoisons htouch (hword i k hk) (h.unheld q c i k hc hk)
  · obtain ⟨wait, hw⟩ := exists_waits hfits
    obtain ⟨w, last, hsched, h, hsound, -⟩ := schedule_induction hw p.guarded_blank
      fun _ _ h _ _ => h.issueCycle
    have hword := hw.word
    have hmul := Nat.mul_le_mul_right (wait + 1) hsound.timely.size_le
    refine ⟨w.schedule, hsched, fun i q d hd a b => hsound.distance_le hw hd,
      fun q i hpoisons htouch c k hc hk => ?_⟩
    rw [h.tracks.shows] at hc hk
    obtain ⟨hq, hcle⟩ := hsound.timely.issued_early q c hc
    obtain ⟨-, hkle⟩ := hsound.timely.issued_early i k hk
    have hlatency := (hw.latency q hq).2
    exact (not_inWindow_iff hpoisons htouch (by omega) (h.unheld q c i k hc hk)).2
      (.inr (by omega))

/-- A write, a slow instruction that reads it and poisons its own result, and a call
that reads that. -/
def slowResult (latency : Int64) : IssueProblem where
  size := 3
  traits :=
    { reads := fun i => if i = 1 then ["a"] else if i = 2 then ["b"] else []
      writes := fun i => if i = 0 then ["a"] else if i = 1 then ["b"] else []
      poisons := (· = 1)
      latency := fun i => if i = 0 then 1 else if i = 1 then latency else 0
      isCall := (· = 2) }

theorem exists_schedule_of_any {f : Schedule → Bool} (h : p.schedule.toOption.any f = true) :
    ∃ s, p.schedule = .ok s ∧ f s = true := by
  cases hs : p.schedule with
  | error e => simp [hs, Except.toOption] at h
  | ok s => exact ⟨s, rfl, by simpa [hs, Except.toOption] using h⟩

/-- With a latency of 3 the call waits.  With one of 2^63 - 2 the wait is no word, and
the call is issued in the next cycle. -/
theorem waits_of_schedule_slowResult :
    (∃ s, (slowResult 3).schedule = .ok s ∧ (slowResult 3).KeepsWaits s ∧ s.IssuesIn 2 5) ∧
      ∃ s d, (slowResult 9223372036854775806).schedule = .ok s ∧
        ((slowResult 9223372036854775806).constraints.predsOf 2).get? 1 = some d ∧
        s.IssuesIn 1 2 ∧ s.IssuesIn 2 3 ∧ ¬ 2 + d.distance.toInt ≤ 3 ∧
        (slowResult 9223372036854775806).traits.InWindow 1 2 2 3 := by
  constructor
  · have hfits : (slowResult 3).traits.Fits (slowResult 3).size :=
      ⟨3, by decide +kernel, by decide⟩
    obtain ⟨s, hs, hkeeps⟩ := (waits_of_schedule (slowResult 3)).2 hfits
    have hslots : ((slowResult 3).schedule.toOption.any fun s =>
        !s.dual && s.slot 5 = 2) = true := by decide +kernel
    obtain ⟨s', hs', hslots⟩ := exists_schedule_of_any hslots
    obtain rfl : s = s' := Except.ok.inj (hs.symm.trans hs')
    exact ⟨s, hs, hkeeps, by simp_all [Schedule.IssuesIn]⟩
  · set p := slowResult 9223372036854775806 with hp
    have hslots : (p.schedule.toOption.any fun s =>
        !s.dual && s.slot 2 = 1 && s.slot 3 = 2) = true := by decide +kernel
    have hd : (p.constraints.predsOf 2).get? 1 = some ⟨9223372036854775806, true⟩ := by
      decide +kernel
    have htouch : p.traits.Touches 2 1 := .inl ⟨"b", rfl, by decide +kernel, by decide +kernel⟩
    obtain ⟨s, hs, hslots⟩ := exists_schedule_of_any hslots
    have hissues : s.IssuesIn 1 2 ∧ s.IssuesIn 2 3 := by simp_all [Schedule.IssuesIn]
    obtain ⟨hdistance, hwindow⟩ := (waits_of_schedule p).1 s hs
    refine ⟨s, _, hs, hd, hissues.1, hissues.2, ?_, ?_⟩
    · exact mt (hdistance 2 1 _ hd 2 3 hissues.1 hissues.2).1 (by decide)
    · by_contra hout
      exact absurd ((hwindow 1 2 rfl htouch 2 3 hissues.1 hissues.2).1 hout) (by decide +kernel)

end IssueProblem
end ConstantTime
