/-
# A search that misses nothing

A depth-first search that is allowed as many steps down as there are blocks left
to see exhausts what its roots lead to (`visit_exhausts`).  Every edge out of a
finished block then leads to a block that was seen before the search began, to
one that was finished earlier and so is listed later, or back to a block that
the search had entered and not yet left.  In the last case the listed blocks
hold a trail from the target of the edge to its source (`ClosesCycle`).

For a graph this means that the order lists exactly what paths from the entry
reach (`Shape.mem_reversePostorder`), and that an edge that does not go forward in
the order closes a cycle none of whose blocks stands before its target
(`Graph.Ordered.exists_cycle_of_retreating`).  Where there is no cycle at all, every
edge goes forward in the order of the search (`sublist_of_acyclic`).
-/

import ConstantTime.Proofs.Graph.Order

namespace ConstantTime

variable {next : BlockId → List BlockId}

/-- The blocks of `p` in turn, each led to by the one before. -/
structure Trail (next : BlockId → List BlockId) (a : BlockId) (p : List BlockId) (b : BlockId) :
    Prop where
  chain : p.IsChain fun u v => v ∈ next u
  head : p.head? = some a
  last : p.getLast? = some b

namespace Trail

variable {a b u v : BlockId} {p : List BlockId}

theorem single (a : BlockId) : Trail next a [a] a := ⟨.singleton _, rfl, rfl⟩

theorem cons (h : v ∈ next u) (hp : Trail next v p b) : Trail next u (u :: p) b := by
  cases p with
  | nil => exact absurd hp.head (by simp)
  | cons w p =>
    obtain rfl : w = v := by simpa using hp.head
    refine ⟨List.isChain_cons_cons.2 ⟨h, hp.chain⟩, rfl, ?_⟩
    rw [List.getLast?_cons_cons]
    exact hp.last

/-- A trail is its first block alone, or goes on from one that it leads to. -/
theorem eq_single_or_cons (hp : Trail next a p b) :
    (p = [a] ∧ a = b) ∨ ∃ v q, p = a :: q ∧ v ∈ next a ∧ Trail next v q b := by
  cases p with
  | nil => exact absurd hp.head (by simp)
  | cons w q =>
    obtain rfl : w = a := by simpa using hp.head
    cases q with
    | nil => exact .inl ⟨rfl, by simpa using hp.last⟩
    | cons v q =>
      obtain ⟨hv, hchain⟩ := List.isChain_cons_cons.1 hp.chain
      have hlast := hp.last
      rw [List.getLast?_cons_cons] at hlast
      exact .inr ⟨v, v :: q, rfl, hv, hchain, rfl, hlast⟩

/-- What the steps keep holds at the end of a trail if it holds at its start. -/
theorem induction {P : BlockId → Prop} (hp : Trail next a p b)
    (step : ∀ u v, P u → v ∈ next u → P v) (ha : P a) : P b := by
  induction p generalizing a with
  | nil => exact absurd hp.head (by simp)
  | cons w p ih =>
    rcases hp.eq_single_or_cons with ⟨-, rfl⟩ | ⟨v, q, he, hv, hq⟩
    · exact ha
    · obtain ⟨rfl, rfl⟩ := List.cons.inj he
      exact ih hq (step w v ha hv)

end Trail

/-- The list holds a trail from `s` to `u` on which nothing stands before `s`. -/
def ClosesCycle (next : BlockId → List BlockId) (listed : List BlockId) (u s : BlockId) : Prop :=
  ∃ front back p, listed = front ++ s :: back ∧ Trail next s p u ∧ p.Sublist (s :: back)

theorem ClosesCycle.append {listed : List BlockId} {u s : BlockId}
    (h : ClosesCycle next listed u s) (before after : List BlockId) :
    ClosesCycle next (before ++ listed ++ after) u s := by
  obtain ⟨front, back, p, rfl, hp, hsub⟩ := h
  refine ⟨before ++ front, back ++ after, p, by simp, hp, ?_⟩
  exact hsub.trans ((List.sublist_append_left back after).cons_cons s)

/-- What an exhaustive search from some roots adds to its state. -/
structure Visit.Exhausts (next : BlockId → List BlockId) (roots : List BlockId) (v v' : Visit)
    (new : List BlockId) : Prop extends Visit.Grows next roots v v' new where
  roots_seen : ∀ r ∈ roots, r ∈ v'.seen
  trail : ∀ x ∈ new, ∃ r ∈ roots, ∃ p, Trail next r p x ∧ p.Sublist new
  settled : ∀ u ∈ new, ∀ s ∈ next u,
    s ∈ v.seen ∨ [u, s].Sublist new ∨ ClosesCycle next new u s

namespace Visit.Exhausts

variable {roots roots' : List BlockId} {v v' v'' : Visit} {new new' : List BlockId}

theorem refl (h : ∀ r ∈ roots, r ∈ v.seen) : Visit.Exhausts next roots v v [] where
  toGrows := .refl roots v
  roots_seen := h
  trail x hx := by simp at hx
  settled u hu := by simp at hu

theorem trans (h : Visit.Exhausts next roots v v' new)
    (h' : Visit.Exhausts next roots' v' v'' new') :
    Visit.Exhausts next (roots ++ roots') v v'' (new' ++ new) where
  toGrows := h.toGrows.trans h'.toGrows
  roots_seen r hr := by
    rcases List.mem_append.1 hr with hr | hr
    · exact (h'.seen r).2 (.inl (h.roots_seen r hr))
    · exact h'.roots_seen r hr
  trail x hx := by
    rcases List.mem_append.1 hx with hx | hx
    · obtain ⟨r, hr, p, hp, hsub⟩ := h'.trail x hx
      exact ⟨r, List.mem_append_right _ hr, p, hp, hsub.trans (List.sublist_append_left _ _)⟩
    · obtain ⟨r, hr, p, hp, hsub⟩ := h.trail x hx
      exact ⟨r, List.mem_append_left _ hr, p, hp, hsub.trans (List.sublist_append_right _ _)⟩
  settled u hu s hs := by
    rcases List.mem_append.1 hu with hu | hu
    · rcases h'.settled u hu s hs with hseen | hsub | hcycle
      · rcases (h.seen s).1 hseen with hseen | hnew
        · exact .inl hseen
        · -- the first search had finished the target
          exact .inr (.inl ((List.singleton_sublist.2 hu).append (List.singleton_sublist.2 hnew)))
      · exact .inr (.inl (hsub.trans (List.sublist_append_left _ _)))
      · exact .inr (.inr (by simpa using hcycle.append [] new))
    · rcases h.settled u hu s hs with hseen | hsub | hcycle
      · exact .inl hseen
      · exact .inr (.inl (hsub.trans (List.sublist_append_right _ _)))
      · exact .inr (.inr (by simpa using hcycle.append new' []))

theorem close {b : BlockId} (hb : b ∉ v.seen)
    (h : Visit.Exhausts next (next b) { v with seen := v.seen.insert b } v' new) :
    Visit.Exhausts next [b] v { v' with finished := b :: v'.finished } (b :: new) where
  toGrows := h.toGrows.close hb
  roots_seen r hr := by
    rw [List.mem_singleton.1 hr]
    exact (h.seen b).2 (.inl (OrderedSet.mem_insert.2 (.inl rfl)))
  trail x hx := by
    refine ⟨b, by simp, ?_⟩
    rcases List.mem_cons.1 hx with rfl | hx
    · exact ⟨[x], .single x, (List.nil_sublist new).cons_cons x⟩
    · obtain ⟨r, hr, p, hp, hsub⟩ := h.trail x hx
      exact ⟨b :: p, hp.cons hr, hsub.cons_cons b⟩
  settled u hu s hs := by
    rcases List.mem_cons.1 hu with rfl | hnew
    · rcases (h.seen s).1 (h.roots_seen s hs) with hseen | hnew
      · rcases OrderedSet.mem_insert.1 hseen with rfl | hseen
        · exact .inr (.inr ⟨[], new, [s], rfl, .single s, (List.nil_sublist new).cons_cons s⟩)
        · exact .inl hseen
      · exact .inr (.inl ((List.singleton_sublist.2 hnew).cons_cons u))
    · rcases h.settled u hnew s hs with hseen | hsub | hcycle
      · rcases OrderedSet.mem_insert.1 hseen with rfl | hseen
        · -- an edge back to the block that is being left
          obtain ⟨r, hr, p, hp, hsub⟩ := h.trail u hnew
          exact .inr (.inr ⟨[], new, s :: p, rfl, hp.cons hr, hsub.cons_cons s⟩)
        · exact .inl hseen
      · exact .inr (.inl (hsub.cons b))
      · exact .inr (.inr (by simpa using hcycle.append [b] []))

end Visit.Exhausts

/-! ### How deep a search goes -/

/-- The number of blocks of a list that have not been seen. -/
def unseen (all : List BlockId) (seen : BlockSet) : Nat := (all.filter (· ∉ seen)).length

theorem unseen_le {all : List BlockId} {seen seen' : BlockSet} (h : ∀ x ∈ seen, x ∈ seen') :
    unseen all seen' ≤ unseen all seen := by
  unfold unseen
  refine (List.monotone_filter_right all fun x hx => ?_).length_le
  simp only [decide_eq_true_eq] at hx ⊢
  exact fun hs => hx (h x hs)

theorem unseen_insert_lt {all : List BlockId} {seen : BlockSet} {b : BlockId} (hb : b ∈ all)
    (hnew : b ∉ seen) : unseen all (seen.insert b) < unseen all seen := by
  unfold unseen
  have hsplit : all.filter (· ∉ seen.insert b) = (all.filter (· ∉ seen)).filter (· ≠ b) := by
    rw [List.filter_filter]
    refine List.filter_congr fun x _ => ?_
    simp
  rw [hsplit]
  refine List.length_filter_lt_length_iff_exists.2 ⟨b, ?_, by simp⟩
  exact List.mem_filter.2 ⟨hb, by simpa using hnew⟩

/-- **A search that may go down as far as there are blocks to see exhausts them.** -/
theorem visit_exhausts {all : List BlockId} (hnext : ∀ a ∈ all, ∀ b ∈ next a, b ∈ all)
    {depth : Nat} {v : Visit} {b : BlockId} (hb : b ∈ all) (hdepth : unseen all v.seen ≤ depth) :
    ∃ new, Visit.Exhausts next [b] v (visit next depth v b) new := by
  induction depth generalizing v b with
  | zero =>
    have hnil : all.filter (· ∉ v.seen) = [] := List.length_eq_zero_iff.1 (Nat.le_zero.1 hdepth)
    have hseen : b ∈ v.seen := by simpa using List.filter_eq_nil_iff.1 hnil b hb
    exact ⟨[], .refl (by simpa using hseen)⟩
  | succ depth ih =>
    rw [visit]
    split
    · next hseen => exact ⟨[], .refl (by simpa using hseen)⟩
    · next hnew =>
      have below : ∀ (l : List BlockId) (v : Visit), (∀ c ∈ l, c ∈ all) →
          unseen all v.seen ≤ depth →
          ∃ new, Visit.Exhausts next l v (l.foldl (visit next depth) v) new := by
        intro l
        induction l with
        | nil => intro v _ _; exact ⟨[], .refl (by simp)⟩
        | cons c l ihl =>
          intro v hl hv
          obtain ⟨new, h⟩ := ih (hl c (by simp)) hv
          have hle : unseen all (visit next depth v c).seen ≤ unseen all v.seen :=
            unseen_le fun x hx => (h.seen x).2 (.inl hx)
          obtain ⟨new', h'⟩ := ihl _ (fun c hc => hl c (List.mem_cons_of_mem _ hc))
            (Nat.le_trans hle hv)
          exact ⟨new' ++ new, h.trans h'⟩
      have hlt := unseen_insert_lt hb hnew
      obtain ⟨new, h⟩ := below (next b) { v with seen := v.seen.insert b } (hnext b hb) (by
        change unseen all (v.seen.insert b) ≤ depth
        omega)
      exact ⟨b :: new, h.close hnew⟩

/-! ### A search from nothing -/

section Whole

variable {all : List BlockId} {depth : Nat} {b u s x : BlockId}
  (hnext : ∀ a ∈ all, ∀ b ∈ next a, b ∈ all) (hb : b ∈ all) (hdepth : all.length ≤ depth)
include hnext hb hdepth

/-- The finished list of a search that has seen nothing before. -/
theorem visit_finished : Visit.Exhausts next [b] {} (visit next depth {} b)
    (visit next depth {} b).finished := by
  obtain ⟨new, h⟩ := visit_exhausts hnext (v := {}) hb
    (Nat.le_trans (List.length_filter_le ..) hdepth)
  have he : (visit next depth {} b).finished = new := by simpa using h.finished
  rwa [he]

theorem mem_finished_root : b ∈ (visit next depth {} b).finished := by
  have h := visit_finished hnext hb hdepth
  exact ((h.seen b).1 (h.roots_seen b (by simp))).resolve_left OrderedSet.not_mem_empty

/-- **What is listed is closed under the steps.** -/
theorem mem_finished_of_next (hu : u ∈ (visit next depth {} b).finished) (hs : s ∈ next u) :
    s ∈ (visit next depth {} b).finished := by
  rcases (visit_finished hnext hb hdepth).settled u hu s hs with hseen | hsub | hcycle
  · exact absurd hseen OrderedSet.not_mem_empty
  · exact hsub.subset (by simp)
  · obtain ⟨front, back, p, he, -⟩ := hcycle
    rw [he]
    simp

/-- What holds of the root and is kept by the steps holds of all that is listed. -/
theorem finished_induction {P : BlockId → Prop} (root : P b)
    (step : ∀ a c, P a → c ∈ next a → P c) (hx : x ∈ (visit next depth {} b).finished) : P x := by
  obtain ⟨r, hr, p, hp, -⟩ := (visit_finished hnext hb hdepth).trail x hx
  obtain rfl := List.mem_singleton.1 hr
  exact hp.induction step root

/-- **Without cycles every step goes forward in the list.** -/
theorem sublist_of_acyclic (rank : BlockId → Nat)
    (hrank : ∀ a ∈ (visit next depth {} b).finished, ∀ c ∈ next a, rank a < rank c)
    (hu : u ∈ (visit next depth {} b).finished) (hs : s ∈ next u) :
    [u, s].Sublist (visit next depth {} b).finished := by
  rcases (visit_finished hnext hb hdepth).settled u hu s hs with hseen | hsub | hcycle
  · exact absurd hseen OrderedSet.not_mem_empty
  · exact hsub
  · obtain ⟨front, back, p, -, hp, -⟩ := hcycle
    -- along a trail the rank does not fall, so the last step cannot lead back to its start
    have hle : u ∈ (visit next depth {} b).finished ∧ rank s ≤ rank u := by
      refine hp.induction (P := fun x => x ∈ (visit next depth {} b).finished ∧ rank s ≤ rank x)
        (fun a c ha hc => ?_) ⟨mem_finished_of_next hnext hb hdepth hu hs, Nat.le_refl _⟩
      exact ⟨mem_finished_of_next hnext hb hdepth ha.1 hc, ha.2.trans (hrank a ha.1 c hc).le⟩
    exact absurd (hrank u hu s hs) (Nat.not_lt.2 hle.2)

end Whole

/-! ### The order of a graph -/

namespace Shape

variable {g : Shape}

theorem length_ids (g : Shape) : g.ids.length = g.size := by
  rw [ids, List.length_map, List.length_range]

/-- **The order lists all that the entry reaches.** -/
theorem mem_reversePostorder (hg : g.WellFormed) (hentry : g.entry ∈ g.ids) {p : List BlockId}
    {b : BlockId} (hp : g.IsPath g.entry p b) : b ∈ g.reversePostorder := by
  have hnext : ∀ a ∈ g.ids, ∀ b ∈ g.succs a, b ∈ g.ids := fun _ _ _ h => hg.isBlock_of_mem_succs h
  refine IsPath.snoc_induction (motive := fun _ b => b ∈ g.reversePostorder) ?_ ?_ hp
  · exact mem_finished_root hnext hentry (Nat.le_of_eq g.length_ids)
  · exact fun p u v _ hs hu =>
      mem_finished_of_next hnext hentry (Nat.le_of_eq g.length_ids) hu hs

end Shape

/-- **An edge that does not go forward closes a cycle**, on which nothing stands
before its target. -/
theorem Graph.Ordered.exists_cycle_of_retreating {g : Graph} (hg : g.Ordered) {u v : BlockId}
    (hs : v ∈ g.succs u) (hle : g.place v ≤ g.place u) :
    ∃ p, g.IsPath v p u ∧ p.Nodup ∧ ∀ x ∈ p, g.place v ≤ g.place x := by
  have hnd := hg.nodup_order
  have hnext : ∀ a ∈ g.ids, ∀ b ∈ g.succs a, b ∈ g.ids :=
    fun _ _ _ hb => hg.wellFormed.isBlock_of_mem_succs hb
  have h := visit_finished hnext hg.entry_mem (Nat.le_of_eq g.length_ids)
  have hu : u ∈ g.order := hg.mem_order u (Shape.mem_ids_of_mem_succs hs)
  unfold Graph.place at hle ⊢
  rw [hg.order_eq] at hnd hu hle ⊢
  rcases h.settled u hu v hs with hseen | hsub | ⟨front, back, p, he, hp, hsub⟩
  · exact absurd hseen OrderedSet.not_mem_empty
  · exact absurd (place_lt_of_sublist hnd hsub) (Nat.not_lt.2 hle)
  · have he : g.reversePostorder = front ++ v :: back := he
    have hback : (v :: back).Sublist g.reversePostorder := by
      rw [he]
      exact List.sublist_append_right front _
    refine ⟨p, ⟨hp.chain, hp.head, hp.last⟩, hnd.sublist (hsub.trans hback), fun x hx => ?_⟩
    rcases List.mem_cons.1 (hsub.subset hx) with rfl | hx
    · exact Nat.le_refl _
    · refine (place_lt_of_sublist hnd (List.Sublist.trans ?_ hback)).le
      exact (List.singleton_sublist.2 hx).cons_cons v

end ConstantTime
