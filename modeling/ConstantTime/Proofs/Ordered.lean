/-
# What an ordered set or map holds

`OrderedSet` and `OrderedMap` keep their members in ascending order, so a list
of members has no repetitions and a look-up is membership among the entries.
The proofs of this library ask no more of them than the lemmas below: what
`ofList` writes, that a map is its look-ups, and that a larger set has more
members.
-/

import ConstantTime.Ordered.Map
import Mathlib.Data.List.Nodup

namespace ConstantTime
namespace OrderedSet

variable {α : Type} [LT α] [LinearKey α]

theorem nodup_toList (s : OrderedSet α) : s.toList.Nodup := by
  refine List.Pairwise.imp ?_ s.sorted
  rintro a b h rfl
  exact LinearKey.irrefl a h

theorem size_le_length {s : OrderedSet α} {l : List α} (h : ∀ a ∈ s, a ∈ l) : s.size ≤ l.length :=
  (nodup_toList s).length_le_of_subset h

theorem size_lt_of_ssubset {s t : OrderedSet α} (h : ∀ a ∈ s, a ∈ t) {b : α} (hb : b ∈ t)
    (hn : b ∉ s) : s.size < t.size := by
  have hnd : (b :: s.toList).Nodup := List.nodup_cons.2 ⟨hn, nodup_toList s⟩
  have hsub : b :: s.toList ⊆ t.toList := by
    intro a ha
    rcases List.mem_cons.1 ha with rfl | ha
    · exact hb
    · exact h a ha
  have := hnd.length_le_of_subset hsub
  simp only [List.length_cons] at this
  exact this

omit [LinearKey α] in
theorem mem_interAll {l : List (OrderedSet α)} [DecidableEq α] {a : α} :
    a ∈ interAll l ↔ l ≠ [] ∧ ∀ s ∈ l, a ∈ s := by
  have key : ∀ (rest : List (OrderedSet α)) (s : OrderedSet α),
      a ∈ rest.foldl inter s ↔ a ∈ s ∧ ∀ t ∈ rest, a ∈ t := by
    intro rest
    induction rest with
    | nil => intro s; simp
    | cons t rest ih => intro s; rw [List.foldl_cons, ih]; simp [and_assoc]
  cases l with
  | nil => simp [interAll]
  | cons s rest => rw [interAll, key]; simp

end OrderedSet

namespace OrderedMap

variable {κ α : Type} [LT κ] [DecidableEq κ]

theorem getD_eq (m : OrderedMap κ α) (k : κ) (d : α) : m.getD k d = (m.get? k).getD d := rfl

theorem contains_iff {m : OrderedMap κ α} {k : κ} :
    m.contains k = true ↔ ∃ v, m.get? k = some v := by
  rw [contains, Option.isSome_iff_exists]

/-- Where a map to sets has a member, it has the key. -/
theorem contains_of_mem_getD [LT α] {m : OrderedMap κ (OrderedSet α)} {k : κ} {a : α}
    (h : a ∈ m.getD k ∅) : m.contains k = true := by
  rw [getD_eq] at h
  cases hk : m.get? k with
  | none =>
    rw [hk] at h
    exact absurd h OrderedSet.not_mem_empty
  | some s => exact contains_iff.2 ⟨s, hk⟩

omit [LT κ] in
theorem mem_of_lookupIn {k : κ} {v : α} {l : List (κ × α)} (h : lookupIn k l = some v) :
    (k, v) ∈ l := by
  induction l with
  | nil => simp [lookupIn] at h
  | cons e rest ih =>
    obtain ⟨k', v'⟩ := e
    by_cases hk : k = k'
    · subst hk
      simp only [lookupIn, if_true, Option.some.injEq] at h
      simp [h]
    · rw [lookupIn, if_neg hk] at h
      exact List.mem_cons_of_mem _ (ih h)

theorem mem_entries_of_get? {m : OrderedMap κ α} {k : κ} {v : α} (h : m.get? k = some v) :
    (k, v) ∈ m.entries := mem_of_lookupIn h

theorem mem_values_of_get? {m : OrderedMap κ α} {k : κ} {v : α} (h : m.get? k = some v) :
    v ∈ m.values := List.mem_map.2 ⟨(k, v), mem_entries_of_get? h, rfl⟩

variable [LinearKey κ]

omit [DecidableEq κ] in
theorem nodup_keys (m : OrderedMap κ α) : m.keys.Nodup := by
  refine List.Pairwise.imp ?_ m.sorted
  rintro a b h rfl
  exact LinearKey.irrefl a h

omit [LT κ] [LinearKey κ] in
theorem lookupIn_eq_some {k : κ} {v : α} {l : List (κ × α)} (hl : (l.map Prod.fst).Nodup)
    (h : (k, v) ∈ l) : lookupIn k l = some v := by
  induction l with
  | nil => simp at h
  | cons e rest ih =>
    obtain ⟨k', v'⟩ := e
    rw [List.map_cons, List.nodup_cons] at hl
    rcases List.mem_cons.1 h with h | h
    · cases h; simp [lookupIn]
    · have hne : k ≠ k' := by
        intro hk
        exact hl.1 (List.mem_map.2 ⟨(k, v), h, hk⟩)
      rw [lookupIn, if_neg hne]
      exact ih hl.2 h

/-- **A look-up is an entry.** -/
theorem get?_eq_some_iff {m : OrderedMap κ α} {k : κ} {v : α} :
    m.get? k = some v ↔ (k, v) ∈ m.entries :=
  ⟨mem_entries_of_get?, lookupIn_eq_some (nodup_keys m)⟩

theorem mem_values_iff {m : OrderedMap κ α} {v : α} : v ∈ m.values ↔ ∃ k, m.get? k = some v := by
  constructor
  · intro h
    obtain ⟨⟨k, w⟩, he, rfl⟩ := List.mem_map.1 h
    exact ⟨k, get?_eq_some_iff.2 he⟩
  · rintro ⟨k, h⟩
    exact mem_values_of_get? h

theorem isEmpty_eq_false_iff {m : OrderedMap κ α} :
    m.isEmpty = false ↔ ∃ k v, m.get? k = some v := by
  rw [isEmpty, List.isEmpty_eq_false_iff]
  constructor
  · intro h
    obtain ⟨⟨k, v⟩, he⟩ := List.exists_mem_of_ne_nil _ h
    exact ⟨k, v, get?_eq_some_iff.2 he⟩
  · rintro ⟨k, v, h⟩
    exact List.ne_nil_of_mem (get?_eq_some_iff.1 h)

/-- **A map is its look-ups.** -/
theorem ext {m m' : OrderedMap κ α} (h : ∀ k, m.get? k = m'.get? k) : m = m' := by
  suffices hl : m.entries = m'.entries by
    cases m; cases m'; cases hl; rfl
  have key : ∀ {l l' : List (κ × α)}, (l.map Prod.fst).Pairwise (· < ·) →
      (l'.map Prod.fst).Pairwise (· < ·) → (∀ e, e ∈ l ↔ e ∈ l') → l = l' := by
    intro l
    induction l with
    | nil =>
      intro l' _ _ h
      cases l' with
      | nil => rfl
      | cons e l' => exact absurd ((h e).2 (by simp)) (by simp)
    | cons a l ih =>
      intro l' hl hl' h
      cases l' with
      | nil => exact absurd ((h a).1 (by simp)) (by simp)
      | cons b l' =>
        rw [List.map_cons, List.pairwise_cons] at hl hl'
        have below : ∀ {x : κ × α} {t : List (κ × α)}, x ∈ t → x.1 ∈ t.map Prod.fst :=
          fun hx => List.mem_map.2 ⟨_, hx, rfl⟩
        have hab : a = b := by
          rcases List.mem_cons.1 ((h a).1 (by simp)) with e | ha
          · exact e
          · rcases List.mem_cons.1 ((h b).2 (by simp)) with e | hb
            · exact e.symm
            · exact absurd (LinearKey.trans (hl.1 _ (below hb)) (hl'.1 _ (below ha)))
                (LinearKey.irrefl _)
        subst hab
        congr 1
        refine ih hl.2 hl'.2 fun x => ⟨fun hx => ?_, fun hx => ?_⟩
        · rcases List.mem_cons.1 ((h x).1 (List.mem_cons_of_mem _ hx)) with rfl | hx'
          · exact absurd (hl.1 _ (below hx)) (LinearKey.irrefl _)
          · exact hx'
        · rcases List.mem_cons.1 ((h x).2 (List.mem_cons_of_mem _ hx)) with rfl | hx'
          · exact absurd (hl'.1 _ (below hx)) (LinearKey.irrefl _)
          · exact hx'
  refine key m.sorted m'.sorted fun e => ?_
  rw [← get?_eq_some_iff, h, get?_eq_some_iff]

variable [DecidableLT κ]

theorem getD_insert {m : OrderedMap κ α} {k x : κ} {v d : α} :
    (m.insert k v).getD x d = if x = k then v else m.getD x d := by
  rw [getD, get?_insert]
  split <;> rfl

theorem contains_insert {m : OrderedMap κ α} {k x : κ} {v : α} :
    (m.insert k v).contains x = true ↔ x = k ∨ m.contains x = true := by
  rw [contains, get?_insert, contains]
  split <;> simp [*]

/-- A property of all entries holds after a write if it holds of the new entry. -/
theorem forall_get?_insert {m : OrderedMap κ α} {k : κ} {v : α} {P : κ → α → Prop}
    (hold : ∀ x a, m.get? x = some a → P x a) (hnew : P k v) :
    ∀ x a, (m.insert k v).get? x = some a → P x a := by
  intro x a hx
  rw [get?_insert] at hx
  split at hx
  · next he =>
    cases hx
    exact he ▸ hnew
  · exact hold x a hx

theorem exists_get?_insert {m : OrderedMap κ α} {k x : κ} {v : α}
    (h : x ≠ k → ∃ a, m.get? x = some a) : ∃ a, (m.insert k v).get? x = some a := by
  rw [get?_insert]
  split
  · exact ⟨v, rfl⟩
  · next hne => exact h hne

/-- Writing what is there already changes nothing. -/
theorem insert_eq_self {m : OrderedMap κ α} {k : κ} {v : α} (h : m.get? k = some v) :
    m.insert k v = m := by
  refine ext fun x => ?_
  rw [get?_insert]
  split
  · next hx => rw [hx, h]
  · rfl

theorem get?_insertAll_of_notMem {m : OrderedMap κ α} {l : List (κ × α)} {k : κ}
    (h : k ∉ l.map Prod.fst) : (m.insertAll l).get? k = m.get? k := by
  induction l generalizing m with
  | nil => rfl
  | cons e rest ih =>
    rw [List.map_cons, List.mem_cons, not_or] at h
    have := ih h.2 (m := m.insert e.1 e.2)
    rw [get?_insert, if_neg h.1] at this
    exact this

theorem get?_insertAll_of_mem {m : OrderedMap κ α} {l : List (κ × α)} {k : κ} {v : α}
    (hl : (l.map Prod.fst).Nodup) (h : (k, v) ∈ l) : (m.insertAll l).get? k = some v := by
  induction l generalizing m with
  | nil => simp at h
  | cons e rest ih =>
    rw [List.map_cons, List.nodup_cons] at hl
    rcases List.mem_cons.1 h with rfl | h
    · have := get?_insertAll_of_notMem hl.1 (m := m.insert k v)
      rw [get?_insert, if_pos rfl] at this
      exact this
    · exact ih hl.2 h

/-- One value written to several keys. -/
theorem get?_insertAll_map {m : OrderedMap κ α} {ks : List κ} {k : κ} {v : α} :
    (m.insertAll (ks.map fun x => (x, v))).get? k = if k ∈ ks then some v else m.get? k := by
  induction ks generalizing m with
  | nil => simp [insertAll]
  | cons x ks ih =>
    have hrest := ih (m := m.insert x v)
    rw [get?_insert] at hrest
    rw [List.map_cons, insertAll, List.foldl_cons, ← insertAll, hrest]
    by_cases hmem : k ∈ ks
    · simp [hmem]
    · simp [hmem]

/-- **What a list of pairs with distinct keys writes.** -/
theorem get?_ofList {l : List (κ × α)} (hl : (l.map Prod.fst).Nodup) {k : κ} {v : α} :
    (ofList l).get? k = some v ↔ (k, v) ∈ l := by
  constructor
  · intro h
    by_cases hk : k ∈ l.map Prod.fst
    · obtain ⟨⟨k', w⟩, hm, rfl⟩ := List.mem_map.1 hk
      have := get?_insertAll_of_mem (m := ∅) hl hm
      rw [ofList, this] at h
      cases h
      exact hm
    · rw [ofList, get?_insertAll_of_notMem hk] at h
      simp at h
  · exact get?_insertAll_of_mem hl

omit [DecidableLT κ] in
theorem get?_filterKeys {m : OrderedMap κ α} {p : κ → Bool} {k : κ} {v : α} :
    (m.filterKeys p).get? k = some v ↔ m.get? k = some v ∧ p k = true := by
  rw [get?_eq_some_iff, get?_eq_some_iff, filterKeys, List.mem_filter]

omit [DecidableLT κ] in
theorem get?_mapValues {β : Type} {m : OrderedMap κ α} {f : κ → α → β} {k : κ} {v : β} :
    (m.mapValues f).get? k = some v ↔ ∃ a, m.get? k = some a ∧ f k a = v := by
  simp only [get?_eq_some_iff, mapValues, List.mem_map, Prod.mk.injEq]
  constructor
  · rintro ⟨⟨x, a⟩, hm, rfl, rfl⟩
    exact ⟨a, hm, rfl⟩
  · rintro ⟨a, hm, rfl⟩
    exact ⟨(k, a), hm, rfl, rfl⟩

/-- One map written over another. -/
theorem get?_insertAll_entries {m m' : OrderedMap κ α} {k : κ} :
    (m.insertAll m'.entries).get? k = (m'.get? k).or (m.get? k) := by
  cases hk : m'.get? k with
  | none =>
    rw [Option.none_or]
    exact get?_insertAll_of_notMem (lookupIn_eq_none_iff.1 hk)
  | some v =>
    rw [Option.some_or]
    exact get?_insertAll_of_mem (nodup_keys m') (get?_eq_some_iff.1 hk)

/-- Some entries of a map with other values. -/
theorem get?_ofList_entries_filterMap {β : Type} {m : OrderedMap κ α} {f : κ → α → Option β}
    {k : κ} {v : β} :
    (ofList (m.entries.filterMap fun e => (f e.1 e.2).map (e.1, ·))).get? k = some v ↔
      ∃ a, m.get? k = some a ∧ f k a = some v := by
  have hkeys : ((m.entries.filterMap fun e => (f e.1 e.2).map (e.1, ·)).map Prod.fst).Nodup := by
    refine (nodup_keys m).sublist ?_
    have : ∀ l : List (κ × α), ((l.filterMap fun e => (f e.1 e.2).map (e.1, ·)).map Prod.fst).Sublist
        (l.map Prod.fst) := by
      intro l
      induction l with
      | nil => exact .slnil
      | cons e l ih =>
        rw [List.filterMap_cons]
        cases f e.1 e.2 with
        | none => exact ih.cons _
        | some b => exact ih.cons_cons _
    exact this m.entries
  rw [get?_ofList hkeys, List.mem_filterMap]
  constructor
  · rintro ⟨⟨x, a⟩, hm, he⟩
    obtain ⟨b, hb, hpair⟩ := Option.map_eq_some_iff.1 he
    cases hpair
    exact ⟨a, get?_eq_some_iff.2 hm, hb⟩
  · rintro ⟨a, hm, hf⟩
    exact ⟨(k, a), get?_eq_some_iff.1 hm, by rw [hf]; rfl⟩

/-- A map tabulated over distinct keys. -/
theorem get?_ofList_filterMap {xs : List κ} (hxs : xs.Nodup) {f : κ → Option α} {k : κ} {v : α} :
    (ofList (xs.filterMap fun k => (f k).map (k, ·))).get? k = some v ↔ k ∈ xs ∧ f k = some v := by
  have hkeys : ((xs.filterMap fun k => (f k).map (k, ·)).map Prod.fst).Nodup := by
    rw [List.map_filterMap]
    refine hxs.filterMap fun a a' b h h' => ?_
    simp only [Option.map_map, Option.mem_def, Option.map_eq_some_iff, Function.comp_apply] at h h'
    obtain ⟨_, -, rfl⟩ := h
    obtain ⟨_, -, rfl⟩ := h'
    rfl
  rw [get?_ofList hkeys, List.mem_filterMap]
  constructor
  · rintro ⟨x, hx, hfx⟩
    obtain ⟨w, hw, he⟩ := Option.map_eq_some_iff.1 hfx
    cases he
    exact ⟨hx, hw⟩
  · rintro ⟨hk, hfk⟩
    exact ⟨k, hk, by rw [hfk]; rfl⟩

end OrderedMap

/-! ### Rounds that change nothing -/

/-- If a list of steps, each writing an entry of its own, changes nothing, no
step does. -/
theorem foldl_eq_self {σ κ ω : Type} {f : σ → κ → σ} (look : σ → κ → ω) {ks : List κ}
    (hnodup : ks.Nodup)
    (frame : ∀ s, ∀ k ∈ ks, ∀ x ∈ ks, x ≠ k → look (f s k) x = look s x)
    (own : ∀ s, ∀ k ∈ ks, look (f s k) k = look s k → f s k = s) {s : σ}
    (h : ∀ k ∈ ks, look (ks.foldl f s) k = look s k) : ∀ k ∈ ks, f s k = s := by
  induction ks generalizing s with
  | nil => simp
  | cons k ks ih =>
    obtain ⟨hk, hks⟩ := List.nodup_cons.1 hnodup
    have keep : ∀ (xs : List κ), (∀ x ∈ xs, x ∈ ks) → ∀ s, look (xs.foldl f s) k = look s k := by
      intro xs
      induction xs with
      | nil => exact fun _ _ => rfl
      | cons x xs ihx =>
        intro hxs s
        have hx := hxs x List.mem_cons_self
        rw [List.foldl_cons, ihx (fun y hy => hxs y (List.mem_cons_of_mem _ hy)),
          frame s x (List.mem_cons_of_mem _ hx) k List.mem_cons_self fun he => hk (he ▸ hx)]
    -- nothing after the first step writes its entry, so the first step wrote what was there
    have hfirst : f s k = s := by
      refine own s k List.mem_cons_self ?_
      rw [← keep ks (fun _ hx => hx) (f s k), ← List.foldl_cons]
      exact h k List.mem_cons_self
    intro x hx
    rcases List.mem_cons.1 hx with rfl | hx
    · exact hfirst
    · refine ih hks (fun s k hk x hx => frame s k (List.mem_cons_of_mem _ hk) x
        (List.mem_cons_of_mem _ hx)) (fun s k hk => own s k (List.mem_cons_of_mem _ hk)) ?_ x hx
      intro y hy
      have := h y (List.mem_cons_of_mem _ hy)
      rwa [List.foldl_cons, hfirst] at this

end ConstantTime
