/-
# Finite sets in ascending order

Every analysis of this library computes sets of blocks or of edges, compares
them for equality and prints them in ascending order.  A set is therefore kept
as its strictly ascending list of members: two sets with the same members are
the same value (`OrderedSet.ext`), and `toList` is the printed form.

| operation            | members                       |
|----------------------|-------------------------------|
| `insert a s`         | `a` and those of `s`          |
| `s.erase a`          | those of `s` other than `a`   |
| `s.union t`          | those of either               |
| `s.inter t`          | those of both                 |
| `OrderedSet.ofList l`| those of `l`, once each       |
-/

namespace ConstantTime

/-- The strict order of `α` is linear: what a sorted list needs to have one
form only. -/
class LinearKey (α : Type) [LT α] : Prop where
  irrefl : ∀ a : α, ¬ a < a
  trans : ∀ {a b c : α}, a < b → b < c → a < c
  connex : ∀ {a b : α}, ¬ a < b → a ≠ b → b < a

instance : LinearKey Int where
  irrefl := Int.lt_irrefl
  trans := Int.lt_trans
  connex h hne := by omega

instance : LinearKey Nat where
  irrefl := Nat.lt_irrefl
  trans := Nat.lt_trans
  connex h hne := by omega

/-- A finite set, held as its members in ascending order. -/
structure OrderedSet (α : Type) [LT α] where
  /-- The members, ascending. -/
  toList : List α
  /-- No member is listed twice or out of order. -/
  sorted : toList.Pairwise (· < ·)

namespace OrderedSet

variable {α : Type} [LT α]

instance [DecidableEq α] : DecidableEq (OrderedSet α) := fun s t =>
  if h : s.toList = t.toList then
    .isTrue (by cases s; cases t; cases h; rfl)
  else
    .isFalse (fun e => h (by rw [e]))

/-- The set without members. -/
def empty : OrderedSet α := ⟨[], .nil⟩

instance : EmptyCollection (OrderedSet α) := ⟨empty⟩

instance : Inhabited (OrderedSet α) := ⟨empty⟩

instance : Membership α (OrderedSet α) := ⟨fun s a => a ∈ s.toList⟩

theorem mem_toList {s : OrderedSet α} {a : α} : a ∈ s.toList ↔ a ∈ s := Iff.rfl

@[simp] theorem not_mem_empty {a : α} : a ∉ (∅ : OrderedSet α) := by
  intro h; cases h

instance [DecidableEq α] (a : α) (s : OrderedSet α) : Decidable (a ∈ s) :=
  inferInstanceAs (Decidable (a ∈ s.toList))

/-- The number of members. -/
def size (s : OrderedSet α) : Nat := s.toList.length

/-- Has the set no member? -/
def isEmpty (s : OrderedSet α) : Bool := s.toList.isEmpty

/-- The set of one member. -/
def singleton (a : α) : OrderedSet α := ⟨[a], List.pairwise_singleton _ _⟩

@[simp] theorem mem_singleton {a b : α} : a ∈ singleton b ↔ a = b := by
  rw [← mem_toList, singleton]; simp

/-- The members that satisfy a test. -/
def filter (p : α → Bool) (s : OrderedSet α) : OrderedSet α :=
  ⟨s.toList.filter p, s.sorted.sublist List.filter_sublist⟩

@[simp] theorem mem_filter {p : α → Bool} {s : OrderedSet α} {a : α} :
    a ∈ s.filter p ↔ a ∈ s ∧ p a = true := List.mem_filter

variable [DecidableEq α]

/-- The set without one member. -/
def erase (s : OrderedSet α) (a : α) : OrderedSet α := s.filter (· ≠ a)

@[simp] theorem mem_erase {s : OrderedSet α} {a b : α} :
    b ∈ s.erase a ↔ b ∈ s ∧ b ≠ a := by simp [erase]

/-- The members that two sets share. -/
def inter (s t : OrderedSet α) : OrderedSet α := s.filter (· ∈ t)

@[simp] theorem mem_inter {s t : OrderedSet α} {a : α} :
    a ∈ s.inter t ↔ a ∈ s ∧ a ∈ t := by simp [inter]

/-- Is every member of the first set one of the second? -/
def isSubset (s t : OrderedSet α) : Bool := s.toList.all (· ∈ t)

@[simp] theorem isSubset_iff {s t : OrderedSet α} :
    s.isSubset t = true ↔ ∀ a ∈ s, a ∈ t := by
  simp [isSubset, List.all_eq_true, mem_toList]

/-- The members common to all sets of a list; of no set at all, none. -/
def interAll : List (OrderedSet α) → OrderedSet α
  | [] => ∅
  | s :: rest => rest.foldl inter s

variable [DecidableLT α]

/-- Puts a value in its place in an ascending list, unless it is there. -/
def insertSorted (a : α) : List α → List α
  | [] => [a]
  | b :: rest =>
    if a < b then a :: b :: rest
    else if a = b then b :: rest
    else b :: insertSorted a rest

theorem mem_insertSorted {a x : α} {l : List α} :
    x ∈ insertSorted a l ↔ x = a ∨ x ∈ l := by
  induction l with
  | nil => simp [insertSorted]
  | cons b rest ih =>
    rw [insertSorted]
    split
    · simp
    · split
      · next h => subst h; simp
      · simp only [List.mem_cons, ih]
        constructor
        · rintro (h | h | h) <;> simp [h]
        · rintro (h | h | h) <;> simp [h]

variable [LinearKey α]

theorem pairwise_insertSorted {a : α} {l : List α} (h : l.Pairwise (· < ·)) :
    (insertSorted a l).Pairwise (· < ·) := by
  induction l with
  | nil => simp [insertSorted]
  | cons b rest ih =>
    rw [insertSorted]
    have hb := List.pairwise_cons.1 h
    split
    · next hab =>
      refine List.pairwise_cons.2 ⟨fun x hx => ?_, h⟩
      rcases List.mem_cons.1 hx with rfl | hx
      · exact hab
      · exact LinearKey.trans hab (hb.1 x hx)
    · next hab =>
      split
      · exact h
      · next hne =>
        refine List.pairwise_cons.2 ⟨fun x hx => ?_, ih hb.2⟩
        rcases mem_insertSorted.1 hx with rfl | hx
        · exact LinearKey.connex hab hne
        · exact hb.1 x hx

/-- The set with one more member. -/
def insert (a : α) (s : OrderedSet α) : OrderedSet α :=
  ⟨insertSorted a s.toList, pairwise_insertSorted s.sorted⟩

@[simp] theorem mem_insert {s : OrderedSet α} {a x : α} :
    x ∈ s.insert a ↔ x = a ∨ x ∈ s := mem_insertSorted

/-- The members of a list as a set. -/
def ofList (l : List α) : OrderedSet α := l.foldl (fun s a => s.insert a) ∅

theorem mem_foldl_insert {l : List α} {s : OrderedSet α} {x : α} :
    x ∈ l.foldl (fun s a => s.insert a) s ↔ x ∈ s ∨ x ∈ l := by
  induction l generalizing s with
  | nil => simp
  | cons a rest ih =>
    rw [List.foldl_cons, ih, mem_insert, List.mem_cons]
    constructor
    · rintro ((h | h) | h) <;> simp [h]
    · rintro (h | h | h) <;> simp [h]

@[simp] theorem mem_ofList {l : List α} {x : α} : x ∈ ofList l ↔ x ∈ l := by
  rw [ofList, mem_foldl_insert]; simp

/-- The members of either set. -/
def union (s t : OrderedSet α) : OrderedSet α :=
  t.toList.foldl (fun s a => s.insert a) s

@[simp] theorem mem_union {s t : OrderedSet α} {a : α} :
    a ∈ s.union t ↔ a ∈ s ∨ a ∈ t := mem_foldl_insert

omit [DecidableEq α] [DecidableLT α] in
/-- **A set is its members.**  Two ascending lists with the same members are
equal, so equality of sets is equality of values. -/
theorem ext {s t : OrderedSet α} (h : ∀ a, a ∈ s ↔ a ∈ t) : s = t := by
  suffices hl : s.toList = t.toList by
    cases s; cases t; cases hl; rfl
  have key : ∀ {l m : List α}, l.Pairwise (· < ·) → m.Pairwise (· < ·) →
      (∀ a, a ∈ l ↔ a ∈ m) → l = m := by
    intro l
    induction l with
    | nil =>
      intro m _ _ h
      cases m with
      | nil => rfl
      | cons b m => exact absurd ((h b).2 (by simp)) (by simp)
    | cons a l ih =>
      intro m hl hm h
      cases m with
      | nil => exact absurd ((h a).1 (by simp)) (by simp)
      | cons b m =>
        obtain ⟨hal, hl'⟩ := List.pairwise_cons.1 hl
        obtain ⟨hbm, hm'⟩ := List.pairwise_cons.1 hm
        have hab : a = b := by
          rcases List.mem_cons.1 ((h a).1 (by simp)) with e | ham
          · exact e
          · rcases List.mem_cons.1 ((h b).2 (by simp)) with e | hbl
            · exact e.symm
            · exact absurd (LinearKey.trans (hal b hbl) (hbm a ham)) (LinearKey.irrefl a)
        subst hab
        congr 1
        refine ih hl' hm' fun x => ⟨fun hx => ?_, fun hx => ?_⟩
        · rcases List.mem_cons.1 ((h x).1 (List.mem_cons_of_mem _ hx)) with e | hx'
          · subst e; exact absurd (hal _ hx) (LinearKey.irrefl _)
          · exact hx'
        · rcases List.mem_cons.1 ((h x).2 (List.mem_cons_of_mem _ hx)) with e | hx'
          · subst e; exact absurd (hbm _ hx) (LinearKey.irrefl _)
          · exact hx'
  exact key s.sorted t.sorted h

end OrderedSet

end ConstantTime
