/-
# What a constraint graph records

The constraints on an instruction are gathered in a map from the earlier
instruction, where several constraints on the same pair merge into the longest.
So every constraint that was found is kept at its distance or a longer one
(`exists_pred_of_mem`), and every distance that is kept was found
(`mem_of_get?_predsOf`).

Looking back for an instruction finds the last one that matches
(`exists_lastDependent`), and constrains an instruction to come after it
(`mem_constraintsOn_writer` and its siblings).
-/

import ConstantTime.Schedule.Constraint
import ConstantTime.Proofs.Ordered

namespace ConstantTime

namespace Traits

variable {t : Traits} {i : Nat} {op : Operand}

theorem mem_variableReads :
    op ∈ t.variableReads i ↔ t.isConstant op = false ∧ t.readsOp i op = true := by
  simp [variableReads, readsOp, and_comm]

theorem mem_variableWrites :
    op ∈ t.variableWrites i ↔ t.isConstant op = false ∧ t.writesOp i op = true := by
  simp [variableWrites, writesOp, and_comm]

end Traits

namespace ConstraintGraph

variable {t : Traits} {oracle : Oracle} {i q : Nat}

/-! ### Looking back -/

/-- What is found by looking back from `i` matches, and nothing in between does. -/
theorem find?_back {f : Nat → Bool} :
    (List.range i).reverse.find? f = some q ↔
      q < i ∧ f q = true ∧ ∀ r, q < r → r < i → f r = false := by
  induction i with
  | zero => simp
  | succ i ih =>
    rw [List.range_succ, List.reverse_append, List.reverse_singleton, List.singleton_append,
      List.find?_cons]
    cases hi : f i with
    | true =>
      simp only [Option.some.injEq]
      constructor
      · rintro rfl
        exact ⟨by omega, hi, fun r h₁ h₂ => by omega⟩
      · rintro ⟨hq, -, hlast⟩
        by_contra hne
        have := hlast i (by omega) (by omega)
        simp [hi] at this
    | false =>
      simp only [ih]
      constructor
      · rintro ⟨hq, hf, hlast⟩
        refine ⟨by omega, hf, fun r h₁ h₂ => ?_⟩
        rcases Nat.lt_succ_iff_lt_or_eq.1 h₂ with h | rfl
        · exact hlast r h₁ h
        · exact hi
      · rintro ⟨hq, hf, hlast⟩
        refine ⟨?_, hf, fun r h₁ h₂ => hlast r h₁ (by omega)⟩
        rcases Nat.lt_succ_iff_lt_or_eq.1 hq with h | rfl
        · exact h
        · simp [hi] at hf

theorem lastDependent_eq_some {f : Nat → Bool} :
    lastDependent oracle i f = some q ↔
      q < i ∧ (f q = true ∧ oracle i q = true) ∧
        ∀ r, q < r → r < i → (f r && oracle i r) = false := by
  rw [lastDependent, find?_back, Bool.and_eq_true]

/-- **A match is found, and none after it is missed.** -/
theorem exists_lastDependent {f : Nat → Bool} (hq : q < i) (hf : f q = true)
    (ho : oracle i q = true) :
    ∃ w, lastDependent oracle i f = some w ∧ q ≤ w ∧ w < i ∧ f w = true ∧ oracle i w = true := by
  cases h : lastDependent oracle i f with
  | none =>
    have := List.find?_eq_none.1 h q (by simpa using hq)
    simp [hf, ho] at this
  | some w =>
    obtain ⟨hw, ⟨hfw, how⟩, hlast⟩ := lastDependent_eq_some.1 h
    refine ⟨w, rfl, ?_, hw, hfw, how⟩
    by_contra hlt
    have := hlast q (by omega) hq
    simp [hf, ho] at this

/-! ### Gathering -/

theorem le_merge_left (a b : Constraint) : a.distance ≤ (a.merge b).distance := by
  rw [Constraint.merge]
  split <;> grind

theorem le_merge_right (a b : Constraint) : b.distance ≤ (a.merge b).distance := by
  rw [Constraint.merge]
  split <;> grind

theorem merge_distance (a b : Constraint) :
    (a.merge b).distance = a.distance ∨ (a.merge b).distance = b.distance := by
  rw [Constraint.merge]
  split <;> simp

variable {m : OrderedMap Nat Constraint} {e : Nat × Constraint} {l : List (Nat × Constraint)}
  {c d : Constraint}

theorem get?_addTo_of_ne (h : q ≠ e.1) : (addTo m e).get? q = m.get? q := by
  rw [addTo, OrderedMap.get?_insert, if_neg h]

/-- A constraint that is there stays at its distance or a longer one. -/
theorem exists_addTo (h : m.get? q = some c) :
    ∃ d, (addTo m e).get? q = some d ∧ c.distance ≤ d.distance := by
  by_cases hq : q = e.1
  · subst hq
    rw [addTo, OrderedMap.get?_insert, if_pos rfl, h]
    exact ⟨_, rfl, le_merge_right _ _⟩
  · exact ⟨c, by rw [get?_addTo_of_ne hq, h], by grind⟩

theorem exists_addTo_self : ∃ d, (addTo m e).get? e.1 = some d ∧ e.2.distance ≤ d.distance := by
  rw [addTo, OrderedMap.get?_insert, if_pos rfl]
  split
  · exact ⟨_, rfl, le_merge_left _ _⟩
  · exact ⟨_, rfl, by grind⟩

/-- The step of gathering, read backwards. -/
theorem addTo_cases (h : (addTo m e).get? q = some d) :
    (q = e.1 ∧ d.distance = e.2.distance) ∨ ∃ c, m.get? q = some c ∧ d.distance = c.distance := by
  by_cases hq : q = e.1
  · subst hq
    rw [addTo, OrderedMap.get?_insert, if_pos rfl, Option.some.injEq] at h
    subst h
    split
    · next old hold =>
      rcases merge_distance e.2 old with hd | hd
      · exact .inl ⟨rfl, hd⟩
      · exact .inr ⟨old, hold, hd⟩
    · exact .inl ⟨rfl, rfl⟩
  · rw [get?_addTo_of_ne hq] at h
    exact .inr ⟨d, h, rfl⟩

theorem exists_foldl_addTo (h : (∃ b, m.get? q = some b ∧ c.distance ≤ b.distance) ∨ (q, c) ∈ l) :
    ∃ d, (l.foldl addTo m).get? q = some d ∧ c.distance ≤ d.distance := by
  induction l generalizing m with
  | nil => simpa using h
  | cons e l ih =>
    refine ih ?_
    rcases h with ⟨b, hb, hcb⟩ | h
    · obtain ⟨d, hd, hbd⟩ := exists_addTo (e := e) hb
      exact .inl ⟨d, hd, by grind⟩
    · rcases List.mem_cons.1 h with rfl | h
      · exact .inl exists_addTo_self
      · exact .inr h

theorem foldl_addTo_cases (h : (l.foldl addTo m).get? q = some d) :
    (∃ c, (q, c) ∈ l ∧ d.distance = c.distance) ∨
      ∃ c, m.get? q = some c ∧ d.distance = c.distance := by
  induction l generalizing m with
  | nil => exact .inr ⟨d, h, rfl⟩
  | cons e l ih =>
    rcases ih h with ⟨c, hc, hd⟩ | ⟨b, hb, hdb⟩
    · exact .inl ⟨c, List.mem_cons_of_mem _ hc, hd⟩
    · rcases addTo_cases hb with ⟨rfl, hbe⟩ | ⟨c, hc, hbc⟩
      · exact .inl ⟨e.2, List.mem_cons_self, hdb.trans hbe⟩
      · exact .inr ⟨c, hc, hdb.trans hbc⟩

/-! ### The graph of a block -/

variable {n : Nat}

@[simp] theorem size_ofTraits : (ofTraits n t oracle).size = n := by
  simp [ofTraits, size]

theorem predsOf_ofTraits (h : i < n) :
    (ofTraits n t oracle).predsOf i = (constraintsOn t oracle i).foldl addTo ∅ := by
  simp [ofTraits, predsOf, h]

/-- **What is found is kept**, at its distance or a longer one. -/
theorem exists_pred_of_mem (hi : i < n) (h : (q, c) ∈ constraintsOn t oracle i) :
    ∃ d, ((ofTraits n t oracle).predsOf i).get? q = some d ∧ c.distance ≤ d.distance := by
  rw [predsOf_ofTraits hi]
  exact exists_foldl_addTo (.inr h)

/-- **What is kept was found.** -/
theorem mem_of_get?_predsOf (h : ((ofTraits n t oracle).predsOf i).get? q = some d) :
    i < n ∧ ∃ c, (q, c) ∈ constraintsOn t oracle i ∧ d.distance = c.distance := by
  by_cases hi : i < n
  · rw [predsOf_ofTraits hi] at h
    rcases foldl_addTo_cases h with hc | ⟨c, hc, -⟩
    · exact ⟨hi, hc⟩
    · simp at hc
  · simp [ofTraits, predsOf, hi] at h

theorem mem_since {after : Option Nat} : q ∈ since after i ↔ q < i ∧ after.all (· < q) = true := by
  rw [since, List.mem_filter, List.mem_range]

/-! ### The constraints on an instruction -/

section

variable {op : Operand} {w b : Nat}

theorem mem_constraintsOn_branch (hb : lastBranch t i = some b) :
    (b, ⟨1, false⟩) ∈ constraintsOn t oracle i := by
  simp only [constraintsOn, branchOrder, List.mem_append]
  exact .inl (.inl (.inl (.inl (by simp [hb]))))

theorem mem_constraintsOn_memory (hi : t.isMemory i = true)
    (hw : lastDependent oracle i t.isMemory = some w) :
    (w, ⟨1, false⟩) ∈ constraintsOn t oracle i := by
  simp only [constraintsOn, memoryOrder, List.mem_append]
  exact .inl (.inl (.inl (.inr (by simp [hi, hw]))))

theorem mem_constraintsOn_result (hop : t.isConstant op = false) (hi : t.readsOp i op = true)
    (hw : lastDependent oracle i (fun p => t.writesOp p op) = some w) :
    (w, ⟨if t.isCall i then t.latency w else t.latency w + 1, true⟩) ∈
      constraintsOn t oracle i := by
  simp only [constraintsOn, resultOrder, List.mem_append, List.mem_filterMap]
  exact .inl (.inl (.inr ⟨op, Traits.mem_variableReads.2 ⟨hop, hi⟩, by simp [hw]⟩))

theorem mem_constraintsOn_writer (hop : t.isConstant op = false) (hi : t.writesOp i op = true)
    (hw : lastDependent oracle i (fun p => t.writesOp p op) = some w) :
    (w, ⟨1, false⟩) ∈ constraintsOn t oracle i := by
  simp only [constraintsOn, overwriteOrder, List.mem_append, List.mem_flatMap]
  exact .inl (.inr ⟨op, Traits.mem_variableWrites.2 ⟨hop, hi⟩, .inl (by simp [hw])⟩)

theorem mem_constraintsOn_reader (hop : t.isConstant op = false) (hi : t.writesOp i op = true)
    (hq : q ∈ since (lastDependent oracle i fun p => t.writesOp p op) i)
    (hr : t.readsOp q op = true) (ho : oracle i q = true) :
    (q, ⟨if t.isCall q then 1 else 0, false⟩) ∈ constraintsOn t oracle i := by
  simp only [constraintsOn, overwriteOrder, List.mem_append, List.mem_flatMap]
  refine .inl (.inr ⟨op, Traits.mem_variableWrites.2 ⟨hop, hi⟩, .inr ?_⟩)
  exact List.mem_map.2 ⟨q, List.mem_filter.2 ⟨hq, by simp [hr, ho]⟩, rfl⟩

theorem mem_constraintsOn_gather (hi : t.isBranch i = true) (hq : q ∈ since (lastBranch t i) i) :
    (q, ⟨0, false⟩) ∈ constraintsOn t oracle i := by
  simp only [constraintsOn, branchGather, List.mem_append]
  refine .inr ?_
  rw [if_pos hi]
  exact List.mem_map.2 ⟨q, hq, rfl⟩

end

/-- **Constraints lead back**, over no more than the latency and one cycle. -/
theorem constraintsOn_cases (h : (q, c) ∈ constraintsOn t oracle i) :
    q < i ∧ (c.distance = 0 ∨ c.distance = 1 ∨ c.distance = t.latency q ∨
      c.distance = t.latency q + 1) := by
  simp only [constraintsOn, List.mem_append] at h
  rcases h with (((h | h) | h) | h) | h
  · simp only [branchOrder, Option.mem_toList, Option.map_eq_some_iff, Prod.mk.injEq] at h
    obtain ⟨b, hb, rfl, rfl⟩ := h
    exact ⟨(find?_back.1 hb).1, by simp⟩
  · rw [memoryOrder] at h
    split at h
    · simp only [Option.mem_toList, Option.map_eq_some_iff, Prod.mk.injEq] at h
      obtain ⟨b, hb, rfl, rfl⟩ := h
      exact ⟨(lastDependent_eq_some.1 hb).1, by simp⟩
    · simp at h
  · simp only [resultOrder, List.mem_filterMap, Option.map_eq_some_iff, Prod.mk.injEq] at h
    obtain ⟨op, -, b, hb, rfl, rfl⟩ := h
    refine ⟨(lastDependent_eq_some.1 hb).1, ?_⟩
    by_cases hc : t.isCall i <;> simp [hc]
  · simp only [overwriteOrder, List.mem_flatMap, List.mem_append, Option.mem_toList,
      Option.map_eq_some_iff, List.mem_map, List.mem_filter, Prod.mk.injEq] at h
    obtain ⟨op, -, ⟨b, hb, rfl, rfl⟩ | ⟨b, ⟨hb, -⟩, rfl, rfl⟩⟩ := h
    · exact ⟨(lastDependent_eq_some.1 hb).1, by simp⟩
    · refine ⟨(mem_since.1 hb).1, ?_⟩
      by_cases hc : t.isCall b <;> simp [hc]
  · rw [branchGather] at h
    split at h
    · simp only [List.mem_map, Prod.mk.injEq] at h
      obtain ⟨b, hb, rfl, rfl⟩ := h
      exact ⟨(mem_since.1 hb).1, by simp⟩
    · simp at h

end ConstraintGraph
end ConstantTime
