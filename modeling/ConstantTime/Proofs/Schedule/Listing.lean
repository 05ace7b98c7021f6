/-
# When a schedule can be listed

The bundles of a schedule can be listed if it has nothing at a position below zero
(`Schedule.bundles_eq_ok_iff`), and so can all that goes through the bundles: the order, the
no-ops and the text.  Instructions are placed in cycles, so placing one keeps that
(`Schedule.Placed.place`).
-/

import ConstantTime.Schedule.Basic

namespace ConstantTime
namespace Schedule

variable {s : Schedule}

/-- Every position is in a bundle. -/
def Placed (s : Schedule) : Prop := ∀ pos ∈ s.positions.keys, 0 ≤ pos

instance : Decidable s.Placed := inferInstanceAs (Decidable (∀ pos ∈ s.positions.keys, 0 ≤ pos))

/-- The number of rows that need a no-op. -/
def idleRows (s : Schedule) : Nat := s.rows.countP fun b => b.1 = noInstr

theorem misplaced?_eq_none_iff : s.misplaced? = none ↔ s.Placed := by
  simp [misplaced?, Placed]

theorem Placed.bundles_eq (h : s.Placed) : s.bundles = .ok s.rows := by
  rw [bundles, misplaced?_eq_none_iff.2 h]

/-- **The bundles can be listed** if and only if every position is in one. -/
theorem bundles_eq_ok_iff {bs : List (Int × Int)} :
    s.bundles = .ok bs ↔ s.Placed ∧ s.rows = bs := by
  constructor
  · intro h
    rw [bundles] at h
    split at h
    · cases h
    · next hnone => exact ⟨misplaced?_eq_none_iff.1 hnone, Except.ok.inj h⟩
  · rintro ⟨h, rfl⟩
    exact h.bundles_eq

/-- The no-ops can be counted if the bundles can be listed. -/
theorem Placed.noOps_eq (h : s.Placed) : s.noOps = .ok s.idleRows := by
  rw [noOps, h.bundles_eq]
  rfl

/-- **Counting breaks off** where the bundles cannot be listed. -/
theorem exists_noOps_eq_error (h : ¬ s.Placed) : ∃ text, s.noOps = .error text := by
  cases hb : s.bundles with
  | ok bs => exact absurd (bundles_eq_ok_iff.1 hb).1 h
  | error text => exact ⟨text, by rw [noOps, hb]; rfl⟩

/-- With the empty bundles for delayed instructions they can be listed as well. -/
theorem Placed.exists_withDelaySlots (h : s.Placed) (delayed : Int → Bool) :
    ∃ bs, s.withDelaySlots delayed = .ok bs := by
  rw [withDelaySlots, h.bundles_eq]
  exact ⟨_, rfl⟩

/-- A schedule without instructions. -/
theorem placed_empty (dual : Bool) (long : List Bool) :
    Placed { dual := dual, long := long } := by
  intro pos hpos
  cases hpos

/-- **Placing an instruction** in a cycle. -/
theorem Placed.place (h : s.Placed) (cycle : Nat) (second : Bool) (i : Nat) :
    (s.place cycle second i).Placed := by
  intro pos hpos
  rcases OrderedMap.mem_keys_insertSorted.1 hpos with rfl | hpos
  · split
    · split <;> omega
    · omega
  · exact h pos hpos

end Schedule
end ConstantTime
