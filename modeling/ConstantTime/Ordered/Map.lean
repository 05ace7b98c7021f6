/-
# Finite maps in ascending order of their keys

Results are tables from blocks, edges or issue positions to values.  A table
is kept as its entries in strictly ascending order of the keys, so that it has
one form and is printed by walking `entries`.

`get?` reads a key, `insert` sets it (a later write replaces an earlier one)
and `ofList` writes the pairs of a list in turn.
-/

import ConstantTime.Ordered.Set

namespace ConstantTime

/-- A finite map, held as its entries in ascending order of the keys. -/
structure OrderedMap (κ : Type) (α : Type) [LT κ] where
  /-- The entries, ascending by key. -/
  entries : List (κ × α)
  /-- No key is listed twice or out of order. -/
  sorted : (entries.map Prod.fst).Pairwise (· < ·)

namespace OrderedMap

variable {κ α β : Type} [LT κ]

instance [DecidableEq κ] [DecidableEq α] : DecidableEq (OrderedMap κ α) := fun s t =>
  if h : s.entries = t.entries then
    .isTrue (by cases s; cases t; cases h; rfl)
  else
    .isFalse (fun e => h (by rw [e]))

/-- The map without entries. -/
def empty : OrderedMap κ α := ⟨[], by simp⟩

instance : EmptyCollection (OrderedMap κ α) := ⟨empty⟩

instance : Inhabited (OrderedMap κ α) := ⟨empty⟩

/-- The keys, ascending. -/
def keys (m : OrderedMap κ α) : List κ := m.entries.map Prod.fst

/-- The values, ascending by key. -/
def values (m : OrderedMap κ α) : List α := m.entries.map Prod.snd

/-- The number of entries. -/
def size (m : OrderedMap κ α) : Nat := m.entries.length

/-- Has the map no entry? -/
def isEmpty (m : OrderedMap κ α) : Bool := m.entries.isEmpty

/-- The map with a function applied to each value. -/
def mapValues (f : κ → α → β) (m : OrderedMap κ α) : OrderedMap κ β :=
  ⟨m.entries.map (fun e => (e.1, f e.1 e.2)), by
    simpa [List.map_map, Function.comp_def] using m.sorted⟩

/-- The entries whose key satisfies a test. -/
def filterKeys (p : κ → Bool) (m : OrderedMap κ α) : OrderedMap κ α :=
  ⟨m.entries.filter (fun e => p e.1),
    m.sorted.sublist (List.filter_sublist.map Prod.fst)⟩

variable [DecidableEq κ]

/-- The value of a key in a list of entries. -/
def lookupIn (k : κ) : List (κ × α) → Option α
  | [] => none
  | (k', v) :: rest => if k = k' then some v else lookupIn k rest

/-- The value of a key, if the map has one. -/
def get? (m : OrderedMap κ α) (k : κ) : Option α := lookupIn k m.entries

/-- The value of a key, or a given value. -/
def getD (m : OrderedMap κ α) (k : κ) (default : α) : α := (m.get? k).getD default

/-- Does the map have the key? -/
def contains (m : OrderedMap κ α) (k : κ) : Bool := (m.get? k).isSome

/-- The map without one key. -/
def erase (m : OrderedMap κ α) (k : κ) : OrderedMap κ α := m.filterKeys (· ≠ k)

omit [LT κ] in
theorem lookupIn_eq_none_iff {k : κ} {l : List (κ × α)} :
    lookupIn k l = none ↔ k ∉ l.map Prod.fst := by
  induction l with
  | nil => simp [lookupIn]
  | cons e rest ih =>
    obtain ⟨k', v⟩ := e
    by_cases h : k = k' <;> simp [lookupIn, h, ih]

@[simp] theorem get?_empty {k : κ} : (∅ : OrderedMap κ α).get? k = none := rfl

theorem mem_keys_iff {m : OrderedMap κ α} {k : κ} :
    k ∈ m.keys ↔ (m.get? k).isSome = true := by
  rw [keys, get?, Option.isSome_iff_ne_none, ne_eq, lookupIn_eq_none_iff, Classical.not_not]

variable [DecidableLT κ]

/-- Sets a key in an ascending list of entries. -/
def insertSorted (k : κ) (v : α) : List (κ × α) → List (κ × α)
  | [] => [(k, v)]
  | (k', v') :: rest =>
    if k < k' then (k, v) :: (k', v') :: rest
    else if k = k' then (k, v) :: rest
    else (k', v') :: insertSorted k v rest

theorem mem_keys_insertSorted {k x : κ} {v : α} {l : List (κ × α)} :
    x ∈ (insertSorted k v l).map Prod.fst ↔ x = k ∨ x ∈ l.map Prod.fst := by
  induction l with
  | nil => simp [insertSorted]
  | cons e rest ih =>
    obtain ⟨k', v'⟩ := e
    rw [insertSorted]
    split
    · simp
    · split
      · next h => subst h; simp
      · simp only [List.map_cons, List.mem_cons, ih]
        constructor
        · rintro (h | h | h) <;> simp [h]
        · rintro (h | h | h) <;> simp [h]

theorem lookupIn_insertSorted {k x : κ} {v : α} {l : List (κ × α)} :
    lookupIn x (insertSorted k v l) = if x = k then some v else lookupIn x l := by
  induction l with
  | nil => simp [insertSorted, lookupIn]
  | cons e rest ih =>
    obtain ⟨k', v'⟩ := e
    rw [insertSorted]
    split
    · simp [lookupIn]
    · split
      · next h => subst h; by_cases hx : x = k <;> simp [lookupIn, hx]
      · next hne =>
        by_cases hx : x = k'
        · subst hx; simp [lookupIn, Ne.symm hne]
        · simp [lookupIn, hx, ih]

variable [LinearKey κ]

theorem pairwise_insertSorted {k : κ} {v : α} {l : List (κ × α)}
    (h : (l.map Prod.fst).Pairwise (· < ·)) :
    ((insertSorted k v l).map Prod.fst).Pairwise (· < ·) := by
  induction l with
  | nil => simp [insertSorted]
  | cons e rest ih =>
    obtain ⟨k', v'⟩ := e
    have hb := List.pairwise_cons.1 h
    rw [insertSorted]
    split
    · next hlt =>
      refine List.pairwise_cons.2 ⟨fun x hx => ?_, h⟩
      rcases List.mem_cons.1 hx with rfl | hx
      · exact hlt
      · exact LinearKey.trans hlt (hb.1 x hx)
    · next hlt =>
      split
      · next he => subst he; exact h
      · next hne =>
        refine List.pairwise_cons.2 ⟨fun x hx => ?_, ih hb.2⟩
        rcases mem_keys_insertSorted.1 hx with rfl | hx
        · exact LinearKey.connex hlt hne
        · exact hb.1 x hx

/-- The map with a key set to a value. -/
def insert (k : κ) (v : α) (m : OrderedMap κ α) : OrderedMap κ α :=
  ⟨insertSorted k v m.entries, pairwise_insertSorted m.sorted⟩

@[simp] theorem get?_insert {m : OrderedMap κ α} {k x : κ} {v : α} :
    (m.insert k v).get? x = if x = k then some v else m.get? x :=
  lookupIn_insertSorted

/-- Writes the pairs of a list in turn. -/
def insertAll (m : OrderedMap κ α) (l : List (κ × α)) : OrderedMap κ α :=
  l.foldl (fun m e => m.insert e.1 e.2) m

/-- The map of a list of pairs; of two pairs with one key the later counts. -/
def ofList (l : List (κ × α)) : OrderedMap κ α := (∅ : OrderedMap κ α).insertAll l

end OrderedMap

end ConstantTime
