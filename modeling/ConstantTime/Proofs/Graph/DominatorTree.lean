/-
# A tree of dominators under construction

The immediate dominators found so far hang every block they list from one that
stands before it (`Dominators.Rooted`), so the way up from a block is finite and
comes to the entry.  The two fingers of `meet` walk up this tree; `Fingers` is the
walk as a relation, without an allowance of steps.  Where it ends is a common
ancestor of the two blocks it sets out from (`Rooted.anc_fingers`) and the nearest
one (`Rooted.anc_of_fingers`), and the allowance that `meet` has is enough for it to
end (`Rooted.fingers_meet`).

An update hangs a block from the nearest common ancestor of its predecessors in
the tree (`Graph.Ordered.exists_hung`).  What this does to the tree is said by
`anc_insert_iff` for the blocks that stand before and by `anc_insert_or` and
`anc_or_of_insert` for all others.
-/

import ConstantTime.Proofs.Graph.Order
import Mathlib.Logic.Relation

namespace ConstantTime
namespace Dominators

variable {g : Shape} {place : BlockId → Nat} {idom : ImmediateDominators} {a b c d u x : BlockId}

/-- One step up the tree; the entry is its root. -/
def Up (g : Shape) (idom : ImmediateDominators) (b d : BlockId) : Prop :=
  b ≠ g.entry ∧ idom.get? b = some d

/-- `a` is met on the way from `b` up the tree. -/
def Anc (g : Shape) (idom : ImmediateDominators) (a b : BlockId) : Prop :=
  Relation.ReflTransGen (Up g idom) b a

/-- The walk of two fingers up the tree: the one that stands later moves, until
both are at `c`. -/
inductive Fingers (place : BlockId → Nat) (idom : ImmediateDominators) :
    BlockId → BlockId → BlockId → Prop
  | met (a : BlockId) : Fingers place idom a a a
  | first {a b c : BlockId} : place b < place a → Fingers place idom (idom.getD a a) b c →
      Fingers place idom a b c
  | second {a b c : BlockId} : place a < place b → Fingers place idom a (idom.getD b b) c →
      Fingers place idom a b c

theorem anc_of_isAncestor {fuel : Nat} (h : isAncestor idom g.entry fuel a b = true) :
    Anc g idom a b := by
  induction fuel generalizing b with
  | zero => simp [isAncestor] at h
  | succ fuel ih =>
    rw [isAncestor] at h
    split at h
    · next hab => subst hab; exact .refl
    split at h
    · simp at h
    · next hb =>
      cases hd : idom.get? b with
      | none =>
        rw [OrderedMap.getD_eq, hd] at h
        exact ih h
      | some d =>
        rw [OrderedMap.getD_eq, hd] at h
        exact .head ⟨hb, hd⟩ (ih h)

theorem exists_up (hb : idom.contains b = true) (hne : b ≠ g.entry) :
    ∃ d, Up g idom b d ∧ idom.getD b b = d := by
  obtain ⟨d, hd⟩ := OrderedMap.contains_iff.1 hb
  exact ⟨d, ⟨hne, hd⟩, by rw [OrderedMap.getD_eq, hd]; rfl⟩

theorem Up.unique (h : Up g idom b d) (h' : Up g idom b c) : d = c :=
  Option.some.inj (h.2.symm.trans h'.2)

/-- What is above a block is the block itself or above the one it hangs from. -/
theorem Anc.of_up (h : Anc g idom a b) (hne : a ≠ b) (hup : Up g idom b d) : Anc g idom a d := by
  rcases Relation.ReflTransGen.cases_head h with he | ⟨d', hup', hd'⟩
  · exact absurd he.symm hne
  · rwa [hup.unique hup']

/-- A tree under construction: the entry is its root, and every other block
hangs from one that stands before it. -/
structure Rooted (g : Shape) (place : BlockId → Nat) (idom : ImmediateDominators) : Prop where
  entry : idom.contains g.entry = true
  isBlock : ∀ {b d}, idom.get? b = some d → b ∈ g.ids
  above : ∀ {b d}, Up g idom b d → place d < place b ∧ idom.contains d = true

namespace Rooted

variable (h : Rooted g place idom)
include h

theorem mem_ids (hb : idom.contains b = true) : b ∈ g.ids := by
  obtain ⟨d, hd⟩ := OrderedMap.contains_iff.1 hb
  exact h.isBlock hd

theorem anc_contains (hb : idom.contains b = true) (ha : Anc g idom a b) :
    idom.contains a = true ∧ place a ≤ place b := by
  induction ha with
  | refl => exact ⟨hb, Nat.le_refl _⟩
  | tail _ hup ih =>
    have := h.above hup
    exact ⟨this.2, (this.1.le).trans ih.2⟩

theorem place_lt_of_anc (ha : Anc g idom a b) (hne : a ≠ b) : place a < place b := by
  rcases Relation.ReflTransGen.cases_head ha with he | ⟨d, hup, hd⟩
  · exact absurd he.symm hne
  · obtain ⟨hlt, hin⟩ := h.above hup
    exact (h.anc_contains hin hd).2.trans_lt hlt

theorem isAncestor_of_anc {fuel : Nat} (hb : idom.contains b = true) (ha : Anc g idom a b)
    (hfuel : place b < fuel) : isAncestor idom g.entry fuel a b = true := by
  induction fuel generalizing b with
  | zero => omega
  | succ fuel ih =>
    rw [isAncestor]
    split
    · rfl
    next hne =>
    rcases Relation.ReflTransGen.cases_head ha with he | ⟨d, hup, hd⟩
    · exact absurd he.symm hne
    · obtain ⟨hlt, hin⟩ := h.above hup
      rw [if_neg hup.1, OrderedMap.getD_eq, hup.2, Option.getD_some]
      exact ih hin hd (by omega)

/-! ### Fingers -/

/-- **The fingers end at a common ancestor.** -/
theorem anc_fingers (hf : Fingers place idom a b c) (ha : idom.contains a = true)
    (hb : idom.contains b = true) (hentry : place g.entry = 0) :
    Anc g idom c a ∧ Anc g idom c b := by
  induction hf with
  | met a => exact ⟨.refl, .refl⟩
  | @first a b c hlt hf ih =>
    obtain ⟨d, hup, hd⟩ := exists_up ha (g := g) (by rintro rfl; omega)
    rw [hd] at ih
    obtain ⟨h₁, h₂⟩ := ih (h.above hup).2 hb
    exact ⟨.head hup h₁, h₂⟩
  | @second a b c hlt hf ih =>
    obtain ⟨d, hup, hd⟩ := exists_up hb (g := g) (by rintro rfl; omega)
    rw [hd] at ih
    obtain ⟨h₁, h₂⟩ := ih ha (h.above hup).2
    exact ⟨h₁, .head hup h₂⟩

/-- **And at the nearest one.** -/
theorem anc_of_fingers (hf : Fingers place idom a b c) (ha : idom.contains a = true)
    (hb : idom.contains b = true) (hxa : Anc g idom x a) (hxb : Anc g idom x b) :
    Anc g idom x c := by
  induction hf with
  | met a => exact hxa
  | @first a b c hlt hf ih =>
    have hle := (h.anc_contains hb hxb).2
    rcases Relation.ReflTransGen.cases_head hxa with rfl | ⟨d, hup, hd⟩
    · omega
    · rw [OrderedMap.getD_eq, hup.2] at ih
      exact ih (h.above hup).2 hb hd hxb
  | @second a b c hlt hf ih =>
    have hle := (h.anc_contains ha hxa).2
    rcases Relation.ReflTransGen.cases_head hxb with rfl | ⟨d, hup, hd⟩
    · omega
    · rw [OrderedMap.getD_eq, hup.2] at ih
      exact ih ha (h.above hup).2 hxa hd

/-- **The fingers meet**, and the steps that `meet` is allowed are enough. -/
theorem fingers_meet (hentry : place g.entry = 0)
    (hinj : ∀ x ∈ g.ids, ∀ y ∈ g.ids, place x = place y → x = y) (fuel : Nat)
    (ha : idom.contains a = true) (hb : idom.contains b = true)
    (hfuel : place a + place b < fuel) : Fingers place idom a b (meet place idom fuel a b) := by
  induction fuel generalizing a b with
  | zero => omega
  | succ fuel ih =>
    rw [meet]
    split
    · next hab => subst hab; exact .met a
    next hne =>
    split
    · next hgt =>
      obtain ⟨d, hup, hd⟩ := exists_up ha (g := g) (by rintro rfl; omega)
      have := h.above hup
      refine .first hgt ?_
      rw [hd]
      exact ih this.2 hb (by omega)
    · next hle =>
      have hlt : place a < place b :=
        (Nat.le_of_not_lt hle).lt_of_ne fun he => hne (hinj a (h.mem_ids ha) b (h.mem_ids hb) he)
      obtain ⟨d, hup, hd⟩ := exists_up hb (g := g) (by rintro rfl; omega)
      have := h.above hup
      refine .second hlt ?_
      rw [hd]
      exact ih ha this.2 (by omega)

/-! ### Hanging a block -/

/-- The tree above blocks that stand before `b` does not change with `b`. -/
theorem anc_insert_iff (hu : idom.contains u = true) (hlt : place u < place b) :
    Anc g (idom.insert b d) a u ↔ Anc g idom a u := by
  constructor
  · intro ha
    induction hn : place u using Nat.strong_induction_on generalizing u with
    | _ n ih =>
      subst hn
      rcases Relation.ReflTransGen.cases_head ha with rfl | ⟨c, ⟨hne, hget⟩, hc⟩
      · exact .refl
      · rw [OrderedMap.get?_insert, if_neg (by rintro rfl; omega)] at hget
        obtain ⟨hcu, hin⟩ := h.above ⟨hne, hget⟩
        exact .head ⟨hne, hget⟩ (ih _ hcu hin (by omega) hc rfl)
  · intro ha
    induction ha with
    | refl => exact .refl
    | tail hanc hup ih =>
      refine ih.tail ⟨hup.1, ?_⟩
      rw [OrderedMap.get?_insert, if_neg, hup.2]
      rintro rfl
      exact absurd (h.anc_contains hu hanc).2 (by omega)

omit h in
/-- An ancestor stays one, unless it is above the block that is hung anew. -/
theorem anc_insert_or (ha : Anc g idom a x) :
    Anc g (idom.insert b d) a x ∨
      a ≠ b ∧ Anc g idom a b ∧ Anc g idom b x ∧ Anc g (idom.insert b d) b x := by
  induction ha using Relation.ReflTransGen.head_induction_on with
  | refl => exact .inl .refl
  | @head x c hup hc ih =>
    by_cases hxb : x = b
    · subst hxb
      by_cases hab : a = x
      · subst hab
        exact .inl .refl
      · exact .inr ⟨hab, .head hup hc, .refl, .refl⟩
    · have hup' : Up g (idom.insert b d) x c :=
        ⟨hup.1, by rw [OrderedMap.get?_insert, if_neg hxb, hup.2]⟩
      rcases ih with ih | ⟨hne, hab, hbc, hbc'⟩
      · exact .inl (.head hup' ih)
      · exact .inr ⟨hne, hab, .head hup hbc, .head hup' hbc'⟩

omit h in
/-- A new ancestor was one before, or is above the block that is hung anew. -/
theorem anc_or_of_insert (ha : Anc g (idom.insert b d) a x) :
    Anc g idom a x ∨ Anc g idom b x ∧ Anc g (idom.insert b d) a b := by
  induction ha using Relation.ReflTransGen.head_induction_on with
  | refl => exact .inl .refl
  | @head x c hup hc ih =>
    by_cases hxb : x = b
    · subst hxb
      exact .inr ⟨.refl, .head hup hc⟩
    · have hup' : Up g idom x c := by
        refine ⟨hup.1, ?_⟩
        have := hup.2
        rwa [OrderedMap.get?_insert, if_neg hxb] at this
      rcases ih with ih | ⟨hbc, hab⟩
      · exact .inl (.head hup' ih)
      · exact .inr ⟨.head hup' hbc, hab⟩

theorem insert (hb : b ∈ g.ids) (hin : idom.contains d = true) (hlt : place d < place b) :
    Rooted g place (idom.insert b d) where
  entry := OrderedMap.contains_insert.2 (.inr h.entry)
  isBlock {x y} hx := by
    rw [OrderedMap.get?_insert] at hx
    split at hx
    · next hxb => rw [hxb]; exact hb
    · exact h.isBlock hx
  above {x y} hup := by
    obtain ⟨hxe, hx⟩ := hup
    rw [OrderedMap.get?_insert] at hx
    split at hx
    · next hxb =>
      cases hx
      rw [hxb]
      exact ⟨hlt, OrderedMap.contains_insert.2 (.inr hin)⟩
    · obtain ⟨h₁, h₂⟩ := h.above ⟨hxe, hx⟩
      exact ⟨h₁, OrderedMap.contains_insert.2 (.inr h₂)⟩

end Rooted
end Dominators

/-! ### Updates -/

namespace Graph

open Dominators

/-- Where an update hangs a block: from the nearest common ancestor of its
predecessors in the tree. -/
structure Hung (g : Graph) (idom : ImmediateDominators) (b d : BlockId) : Prop where
  contains : idom.contains d = true
  place_lt : g.place d < g.place b
  anc : ∀ u, b ∈ g.succs u → idom.contains u = true → Anc g.toShape idom d u
  nearest : ∀ a, (∀ u, b ∈ g.succs u → idom.contains u = true → Anc g.toShape idom a u) →
    Anc g.toShape idom a d

namespace Ordered

variable {g : Graph} (hg : g.Ordered) {idom : ImmediateDominators}
  (h : Rooted g.toShape g.place idom) {b : BlockId}
include hg

theorem place_lt_size (hb : b ∈ g.ids) : g.place b < g.size := by
  have h := getElem?_place hg.nodup_order (hg.mem_order b hb)
  have hlt := (List.getElem?_eq_some_iff.1 h).1
  have hsub : g.order ⊆ g.ids := fun x hx => hg.mem_order_iff.1 hx
  have hlen := hg.nodup_order.length_le_of_subset hsub
  rw [Shape.ids, List.length_map, List.length_range] at hlen
  exact Nat.lt_of_lt_of_le hlt hlen

include h

/-- Every walk of the fingers ends, within the steps that `meet` is allowed. -/
theorem fingers_meet {a c : BlockId} (ha : idom.contains a = true) (hc : idom.contains c = true) :
    Fingers g.place idom a c (meet g.place idom (2 * g.size) a c) := by
  have h₁ := hg.place_lt_size (h.mem_ids ha)
  have h₂ := hg.place_lt_size (h.mem_ids hc)
  exact h.fingers_meet hg.place_entry (fun x hx y hy => hg.place_inj hx hy) _ ha hc (by omega)

/-- The fingers run over a list of blocks, one after the other. -/
theorem anc_foldl_meet (rest : List BlockId) {p : BlockId} (hp : idom.contains p = true)
    (hrest : ∀ q ∈ rest, idom.contains q = true) :
    (∀ q ∈ p :: rest, Anc g.toShape idom
        (rest.foldl (fun d q => meet g.place idom (2 * g.size) q d) p) q) ∧
      ∀ a, (∀ q ∈ p :: rest, Anc g.toShape idom a q) →
        Anc g.toShape idom a (rest.foldl (fun d q => meet g.place idom (2 * g.size) q d) p) := by
  induction rest generalizing p with
  | nil =>
    refine ⟨fun q hq => ?_, fun a ha => ha p (by simp)⟩
    rw [List.mem_singleton.1 hq]
    exact .refl
  | cons r rest ih =>
    have hr := hrest r (by simp)
    have hf := hg.fingers_meet h hr hp
    obtain ⟨h₁, h₂⟩ := h.anc_fingers hf hr hp hg.place_entry
    obtain ⟨hanc, hnear⟩ := ih (h.anc_contains hr h₁).1 fun q hq => hrest q (by simp [hq])
    have hm := hanc _ List.mem_cons_self
    refine ⟨fun q hq => ?_, fun a ha => hnear a fun q hq => ?_⟩
    · rcases List.mem_cons.1 hq with rfl | hq
      · exact Relation.ReflTransGen.trans h₂ hm
      rcases List.mem_cons.1 hq with rfl | hq
      · exact Relation.ReflTransGen.trans h₁ hm
      · exact hanc q (by simp [hq])
    · rcases List.mem_cons.1 hq with rfl | hq
      · exact h.anc_of_fingers hf hr hp (ha r (by simp)) (ha p (by simp))
      · exact ha q (by simp [hq])

/-- **An update hangs a block from the nearest common ancestor of its
predecessors**, once one that stands before it is in the tree. -/
theorem exists_hung (hne : b ≠ g.entry) {u₀ : BlockId} (hs₀ : b ∈ g.succs u₀)
    (hlt₀ : g.place u₀ < g.place b) (hu₀ : idom.contains u₀ = true) :
    ∃ d, update g.toShape g.place idom b = idom.insert b d ∧ g.Hung idom b d := by
  have hmem : ∀ u, u ∈ (g.preds b).filter idom.contains ↔
      b ∈ g.succs u ∧ idom.contains u = true := fun u => by
    rw [List.mem_filter, hg.wellFormed.mem_preds_iff]
  unfold update ofPreds
  rw [if_neg hne]
  cases hl : (g.preds b).filter idom.contains with
  | nil =>
    have := (hmem u₀).2 ⟨hs₀, hu₀⟩
    rw [hl] at this
    simp at this
  | cons p rest =>
    rw [hl] at hmem
    obtain ⟨hanc, hnear⟩ := hg.anc_foldl_meet h rest ((hmem p).1 (by simp)).2
      fun q hq => ((hmem q).1 (by simp [hq])).2
    have hu := hanc u₀ ((hmem u₀).2 ⟨hs₀, hu₀⟩)
    obtain ⟨hin, hle⟩ := h.anc_contains hu₀ hu
    refine ⟨_, rfl, hin, by omega, fun u hs hu => hanc u ((hmem u).2 ⟨hs, hu⟩), fun a ha => ?_⟩
    exact hnear a fun q hq => ha q ((hmem q).1 hq).1 ((hmem q).1 hq).2

end Ordered
end Graph
end ConstantTime
