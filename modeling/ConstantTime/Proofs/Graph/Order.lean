/-
# The reverse postorder

What the depth-first search finishes is listed without repetitions, and every
block but the one it set out from comes after a block that leads to it: the
block from which the search first met it is finished later and so listed
earlier (`visit_grows`).  For a graph with its order this means that places are
distinct, that the entry is first, and that every other block has a
predecessor before it (`Graph.Ordered.exists_pred_before`).  So the entry
reaches every block along ascending places (`Graph.Ordered.exists_ascending`).
-/

import ConstantTime.Proofs.Ordered
import ConstantTime.Proofs.Graph.Construction
import Mathlib.Data.List.Basic

namespace ConstantTime

/-- What a search from some roots adds to its state: finished blocks in front,
none twice, and each but the roots after one that leads to it. -/
structure Visit.Grows (next : BlockId → List BlockId) (roots : List BlockId) (v v' : Visit)
    (new : List BlockId) : Prop where
  finished : v'.finished = new ++ v.finished
  seen : ∀ x, x ∈ v'.seen ↔ x ∈ v.seen ∨ x ∈ new
  fresh : ∀ x ∈ new, x ∉ v.seen
  nodup : new.Nodup
  led : ∀ x ∈ new, x ∈ roots ∨ ∃ u, [u, x].Sublist new ∧ x ∈ next u

namespace Visit.Grows

variable {next : BlockId → List BlockId} {roots roots' : List BlockId} {v v' v'' : Visit}
  {new new' : List BlockId}

theorem refl (roots : List BlockId) (v : Visit) : Visit.Grows next roots v v [] :=
  ⟨rfl, fun x => by simp, fun x hx => by simp at hx, List.nodup_nil, fun x hx => by simp at hx⟩

/-- One search after another: what the second finishes is listed first. -/
theorem trans (h : Visit.Grows next roots v v' new) (h' : Visit.Grows next roots' v' v'' new') :
    Visit.Grows next (roots ++ roots') v v'' (new' ++ new) where
  finished := by rw [h'.finished, h.finished, List.append_assoc]
  seen x := by rw [h'.seen, h.seen, List.mem_append]; tauto
  fresh x hx := by
    rcases List.mem_append.1 hx with hx | hx
    · exact fun hv => h'.fresh x hx ((h.seen x).2 (.inl hv))
    · exact h.fresh x hx
  nodup := by
    refine List.nodup_append.2 ⟨h'.nodup, h.nodup, fun x hx y hy => ?_⟩
    rintro rfl
    exact h'.fresh x hx ((h.seen x).2 (.inr hy))
  led x hx := by
    rcases List.mem_append.1 hx with hx | hx
    · rcases h'.led x hx with hr | ⟨u, hu, hn⟩
      · exact .inl (List.mem_append_right _ hr)
      · exact .inr ⟨u, hu.trans (List.sublist_append_left _ _), hn⟩
    · rcases h.led x hx with hr | ⟨u, hu, hn⟩
      · exact .inl (List.mem_append_left _ hr)
      · exact .inr ⟨u, hu.trans (List.sublist_append_right _ _), hn⟩

/-- A search from all that a new block leads to, and then the block itself. -/
theorem close {b : BlockId} (hb : b ∉ v.seen)
    (h : Visit.Grows next (next b) { v with seen := v.seen.insert b } v' new) :
    Visit.Grows next [b] v { v' with finished := b :: v'.finished } (b :: new) where
  finished := by simp [h.finished]
  seen x := by
    have := h.seen x
    simp only [OrderedSet.mem_insert] at this
    simp only [this, List.mem_cons]
    tauto
  fresh x hx := by
    rcases List.mem_cons.1 hx with rfl | hx
    · exact hb
    · exact fun hv => h.fresh x hx (OrderedSet.mem_insert.2 (.inr hv))
  nodup := List.nodup_cons.2
    ⟨fun hx => h.fresh b hx (OrderedSet.mem_insert.2 (.inl rfl)), h.nodup⟩
  led x hx := by
    rcases List.mem_cons.1 hx with rfl | hx
    · exact .inl (by simp)
    · rcases h.led x hx with hr | ⟨u, hu, hn⟩
      · exact .inr ⟨b, (List.singleton_sublist.2 hx).cons_cons b, hr⟩
      · exact .inr ⟨u, hu.cons b, hn⟩

end Visit.Grows

/-- **The search only grows its state**, whatever depth it is allowed. -/
theorem visit_grows (next : BlockId → List BlockId) (depth : Nat) (v : Visit) (b : BlockId) :
    ∃ new, Visit.Grows next [b] v (visit next depth v b) new := by
  induction depth generalizing v b with
  | zero => exact ⟨[], .refl _ _⟩
  | succ depth ih =>
    rw [visit]
    split
    · exact ⟨[], .refl _ _⟩
    · next hb =>
      have below : ∀ (l : List BlockId) (v : Visit),
          ∃ new, Visit.Grows next l v (l.foldl (visit next depth) v) new := by
        intro l
        induction l with
        | nil => intro v; exact ⟨[], .refl _ _⟩
        | cons c l ihl =>
          intro v
          obtain ⟨new, h⟩ := ih v c
          obtain ⟨new', h'⟩ := ihl (visit next depth v c)
          exact ⟨new' ++ new, h.trans h'⟩
      obtain ⟨new, h⟩ := below (next b) { v with seen := v.seen.insert b }
      exact ⟨b :: new, h.close hb⟩

/-! ### Places -/

section Places

variable {order : List BlockId} {u v : BlockId}

theorem map_fst_zipIdx (order : List BlockId) : order.zipIdx.map Prod.fst = order := by
  simp

theorem get?_placesOf (h : order.Nodup) {i : Nat} :
    (placesOf order).get? u = some i ↔ order[i]? = some u := by
  have hk : (order.zipIdx.map Prod.fst).Nodup := by rwa [map_fst_zipIdx]
  rw [placesOf, OrderedMap.get?_ofList hk, List.mk_mem_zipIdx_iff_getElem?]

theorem getElem?_place (h : order.Nodup) (hu : u ∈ order) :
    order[(placesOf order).getD u 0]? = some u := by
  obtain ⟨i, hi⟩ := List.mem_iff_getElem?.1 hu
  rw [OrderedMap.getD_eq, (get?_placesOf h).2 hi]
  exact hi

theorem place_eq (h : order.Nodup) {i : Nat} (hi : order[i]? = some u) :
    (placesOf order).getD u 0 = i := by
  rw [OrderedMap.getD_eq, (get?_placesOf h).2 hi]
  rfl

theorem place_lt_of_sublist (h : order.Nodup) (hs : [u, v].Sublist order) :
    (placesOf order).getD u 0 < (placesOf order).getD v 0 := by
  obtain ⟨front, back, rfl, hu, hv⟩ := List.cons_sublist_iff.1 hs
  obtain ⟨i, hi⟩ := List.mem_iff_getElem?.1 hu
  obtain ⟨j, hj⟩ := List.mem_iff_getElem?.1 (List.singleton_sublist.1 hv)
  have hlt := (List.getElem?_eq_some_iff.1 hi).1
  rw [place_eq h (i := i) (by rw [List.getElem?_append_left hlt, hi]),
    place_eq h (i := front.length + j) (by
      rw [List.getElem?_append_right (by omega), Nat.add_sub_cancel_left, hj])]
  omega

theorem place_injective (h : order.Nodup) (hu : u ∈ order) (hv : v ∈ order)
    (he : (placesOf order).getD u 0 = (placesOf order).getD v 0) : u = v := by
  have := getElem?_place h hu
  rw [he, getElem?_place h hv] at this
  exact (Option.some.inj this).symm

end Places

/-- The place of a block in the order of a graph. -/
def Graph.place (g : Graph) (b : BlockId) : Nat := (placesOf g.order).getD b 0

namespace Graph.Ordered

variable {g : Graph} (hg : g.Ordered)
include hg

theorem entry_mem : g.entry ∈ g.ids := by
  rw [Shape.mem_ids]
  exact ⟨Int.le_refl 0, Int.natCast_pos.2 hg.size_pos⟩

/-- The order as the search leaves it: the entry, then all else. -/
theorem order_grows : ∃ rest, g.order = g.entry :: rest ∧
    Visit.Grows g.succs [g.entry] {} ⟨(visit g.succs g.size {} g.entry).seen, g.order⟩ g.order := by
  obtain ⟨new, h⟩ := visit_grows g.succs g.size {} g.entry
  have he : g.order = new := by
    rw [hg.order_eq, Shape.reversePostorder, h.finished]
    simp
  obtain ⟨n, hn⟩ := Nat.exists_eq_succ_of_ne_zero (Nat.pos_iff_ne_zero.1 hg.size_pos)
  refine ⟨((g.succs g.entry).foldl (visit g.succs n)
    { seen := OrderedSet.insert g.entry ∅ }).finished, ?_, ?_⟩
  · rw [hg.order_eq, Shape.reversePostorder, hn, visit, if_neg OrderedSet.not_mem_empty]
  · rw [he]
    refine ⟨by simp, h.seen, h.fresh, h.nodup, h.led⟩

theorem nodup_order : g.order.Nodup := by
  obtain ⟨-, -, h⟩ := hg.order_grows
  exact h.nodup

theorem mem_order_iff {b : BlockId} : b ∈ g.order ↔ b ∈ g.ids := by
  refine ⟨fun hb => ?_, hg.mem_order b⟩
  obtain ⟨-, -, h⟩ := hg.order_grows
  rcases h.led b hb with hr | ⟨u, -, hs⟩
  · rw [List.mem_singleton.1 hr]
    exact hg.entry_mem
  · exact hg.wellFormed.isBlock_of_mem_succs hs

theorem place_entry : g.place g.entry = 0 := by
  obtain ⟨rest, hr, h⟩ := hg.order_grows
  exact place_eq h.nodup (by rw [hr]; rfl)

theorem place_inj {a b : BlockId} (ha : a ∈ g.ids) (hb : b ∈ g.ids) (h : g.place a = g.place b) :
    a = b :=
  place_injective hg.nodup_order (hg.mem_order a ha) (hg.mem_order b hb) h

/-- **Every block but the entry has a predecessor before it.** -/
theorem exists_pred_before {b : BlockId} (hb : b ∈ g.ids) (hne : b ≠ g.entry) :
    ∃ u, b ∈ g.succs u ∧ g.place u < g.place b := by
  obtain ⟨-, -, h⟩ := hg.order_grows
  rcases h.led b (hg.mem_order b hb) with hr | ⟨u, hu, hs⟩
  · exact absurd (List.mem_singleton.1 hr) hne
  · exact ⟨u, hs, place_lt_of_sublist h.nodup hu⟩

/-- **The entry reaches every block along ascending places.** -/
theorem exists_ascending {b : BlockId} (hb : b ∈ g.ids) :
    ∃ p, g.IsPath g.entry p b ∧ (p.Pairwise fun u v => g.place u < g.place v) ∧
      ∀ x ∈ p, g.place x ≤ g.place b := by
  induction hn : g.place b using Nat.strong_induction_on generalizing b with
  | _ n ih =>
    by_cases hne : b = g.entry
    · subst hne
      exact ⟨[g.entry], .single _, List.pairwise_singleton _ _, by simp [hn]⟩
    · obtain ⟨u, hs, hlt⟩ := hg.exists_pred_before hb hne
      obtain ⟨p, hp, hasc, hle⟩ := ih _ (hn ▸ hlt) (Shape.mem_ids_of_mem_succs hs) rfl
      have hbelow : ∀ x ∈ p, g.place x < g.place b := fun x hx => (hle x hx).trans_lt hlt
      refine ⟨p ++ [b], hp.snoc hs, List.pairwise_append.2 ⟨hasc, List.pairwise_singleton _ _, ?_⟩,
        fun x hx => ?_⟩
      · intro x hx y hy
        rw [List.mem_singleton.1 hy]
        exact hbelow x hx
      · rcases List.mem_append.1 hx with hx | hx
        · exact hn ▸ (hbelow x hx).le
        · rw [List.mem_singleton.1 hx, hn]

/-- A block on every path to another stands no later. -/
theorem place_le_of_onEveryPath {a b : BlockId} (hb : b ∈ g.ids) (h : g.OnEveryPath a b) :
    g.place a ≤ g.place b := by
  obtain ⟨p, hp, -, hle⟩ := hg.exists_ascending hb
  exact hle a (h p hp)

end Graph.Ordered
end ConstantTime
