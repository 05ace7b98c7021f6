/-
# What a search reaches

`closure` puts a block on its list of work when it sees it for the first time,
so the work ever listed holds no block twice and the allowance of one step for
each block of the graph is enough.  What it returns is then exactly what can be
reached from the starts without entering what had been seen before
(`mem_closure_iff`).

A breadth-first list grows at its end and is treated place by place, so in the
same way it ends up closed under the steps (`breadthFirst_closed`), with only
what they lead to (`breadthFirst_induction`).
-/

import ConstantTime.Graph.Order
import Mathlib.Data.List.Nodup
import Mathlib.Logic.Relation

namespace ConstantTime

variable {next : BlockId → List BlockId} {seen₀ : BlockSet} {starts : List BlockId}

/-- One step of a search, to a block that was not seen before it began. -/
def Leads (next : BlockId → List BlockId) (seen₀ : BlockSet) (a b : BlockId) : Prop :=
  b ∈ next a ∧ b ∉ seen₀

/-- What a search from some starts comes to. -/
def Reached (next : BlockId → List BlockId) (seen₀ : BlockSet) (starts : List BlockId)
    (b : BlockId) : Prop :=
  ∃ s ∈ starts, s ∉ seen₀ ∧ Relation.ReflTransGen (Leads next seen₀) s b

/-- What looking at several blocks adds to the work. -/
theorem foldl_discover (l : List BlockId) (work : List BlockId) (seen : BlockSet) :
    ∃ new, (l.foldl discover (work, seen)).1 = new ++ work ∧
      (∀ x, x ∈ (l.foldl discover (work, seen)).2 ↔ x ∈ seen ∨ x ∈ new) ∧
      new.Nodup ∧ (∀ x ∈ new, x ∈ l ∧ x ∉ seen) ∧
      ∀ x ∈ l, x ∈ (l.foldl discover (work, seen)).2 := by
  induction l generalizing work seen with
  | nil => exact ⟨[], rfl, fun x => by simp, List.nodup_nil, fun x hx => by simp at hx, by simp⟩
  | cons b l ih =>
    rw [List.foldl_cons, discover]
    dsimp only
    split
    · next hb =>
      obtain ⟨new, h₁, h₂, h₃, h₄, h₅⟩ := ih work seen
      refine ⟨new, h₁, h₂, h₃, fun x hx => ⟨List.mem_cons_of_mem _ (h₄ x hx).1, (h₄ x hx).2⟩, ?_⟩
      intro x hx
      rcases List.mem_cons.1 hx with rfl | hx
      · exact (h₂ x).2 (.inl hb)
      · exact h₅ x hx
    · next hb =>
      obtain ⟨new, h₁, h₂, h₃, h₄, h₅⟩ := ih (b :: work) (seen.insert b)
      have hfresh : ∀ x ∈ new, x ≠ b ∧ x ∉ seen := fun x hx => by
        have := (h₄ x hx).2
        rw [OrderedSet.mem_insert, not_or] at this
        exact this
      refine ⟨new ++ [b], by rw [h₁]; simp, fun x => ?_, ?_, fun x hx => ?_, fun x hx => ?_⟩
      · rw [h₂, OrderedSet.mem_insert, List.mem_append, List.mem_singleton]
        tauto
      · refine List.nodup_append.2 ⟨h₃, by simp, fun x hx y hy => ?_⟩
        rw [List.mem_singleton.1 hy]
        exact (hfresh x hx).1
      · rcases List.mem_append.1 hx with hx | hx
        · exact ⟨List.mem_cons_of_mem _ (h₄ x hx).1, (hfresh x hx).2⟩
        · rw [List.mem_singleton.1 hx]
          exact ⟨by simp, hb⟩
      · rcases List.mem_cons.1 hx with rfl | hx
        · exact (h₂ x).2 (.inl (OrderedSet.mem_insert.2 (.inl rfl)))
        · exact h₅ x hx

/-- The state of a search: the blocks it has dealt with, those still to be dealt
with, and all it has seen. -/
structure Searching (g : Shape) (next : BlockId → List BlockId) (seen₀ : BlockSet)
    (starts done work : List BlockId) (seen : BlockSet) : Prop where
  nodup : (done ++ work).Nodup
  isBlock : ∀ x ∈ done ++ work, x ∈ g.ids
  mem_seen : ∀ x, x ∈ seen ↔ x ∈ seen₀ ∨ x ∈ done ++ work
  fresh : ∀ x ∈ done ++ work, x ∉ seen₀
  reached : ∀ x ∈ done ++ work, Reached next seen₀ starts x
  closed : ∀ x ∈ done, ∀ y ∈ next x, y ∈ seen
  started : ∀ s ∈ starts, s ∈ seen

namespace Searching

variable {g : Shape} {done work : List BlockId} {seen : BlockSet}

theorem init (hstarts : ∀ s ∈ starts, s ∈ g.ids) :
    Searching g next seen₀ starts [] (starts.foldl discover ([], seen₀)).1
      (starts.foldl discover ([], seen₀)).2 := by
  obtain ⟨new, h₁, h₂, h₃, h₄, h₅⟩ := foldl_discover starts [] seen₀
  rw [List.append_nil] at h₁
  rw [h₁]
  exact ⟨h₃, fun x hx => hstarts x (h₄ x hx).1, h₂, fun x hx => (h₄ x hx).2,
    fun x hx => ⟨x, (h₄ x hx).1, (h₄ x hx).2, .refl⟩, fun x hx => by simp at hx, h₅⟩

/-- Dealing with one block. -/
theorem step (hnext : ∀ x ∈ g.ids, ∀ y ∈ next x, y ∈ g.ids) {b : BlockId}
    (h : Searching g next seen₀ starts done (b :: work) seen) :
    Searching g next seen₀ starts (done ++ [b]) ((next b).foldl discover (work, seen)).1
      ((next b).foldl discover (work, seen)).2 := by
  obtain ⟨new, h₁, h₂, h₃, h₄, h₅⟩ := foldl_discover (next b) work seen
  have hb : b ∈ done ++ b :: work := by simp
  have hmem : ∀ x, x ∈ (done ++ [b]) ++ (new ++ work) ↔ x ∈ done ++ b :: work ∨ x ∈ new := by
    intro x
    simp only [List.mem_append, List.mem_cons, List.not_mem_nil, or_false]
    tauto
  have hnew : ∀ x ∈ new, x ∉ seen₀ ∧ x ∉ done ++ b :: work := fun x hx => by
    have := (h₄ x hx).2
    rw [h.mem_seen, not_or] at this
    exact this
  rw [h₁]
  refine ⟨?_, fun x hx => ?_, fun x => ?_, fun x hx => ?_, fun x hx => ?_, fun x hx y hy => ?_,
    fun s hs => ?_⟩
  · have hp : ((done ++ [b]) ++ (new ++ work)).Perm (new ++ (done ++ b :: work)) := by
      have hswap : ((done ++ [b]) ++ new).Perm (new ++ (done ++ [b])) := List.perm_append_comm
      simpa using hswap.append_right work
    refine hp.nodup_iff.2 (List.nodup_append.2 ⟨h₃, h.nodup, fun x hx y hy => ?_⟩)
    rintro rfl
    exact (hnew x hx).2 hy
  · rcases (hmem x).1 hx with hx | hx
    · exact h.isBlock x hx
    · exact hnext b (h.isBlock b hb) x (h₄ x hx).1
  · rw [h₂, h.mem_seen, hmem]
    tauto
  · rcases (hmem x).1 hx with hx | hx
    · exact h.fresh x hx
    · exact (hnew x hx).1
  · rcases (hmem x).1 hx with hx | hx
    · exact h.reached x hx
    · obtain ⟨s, hs, hs₀, hpath⟩ := h.reached b hb
      exact ⟨s, hs, hs₀, hpath.tail ⟨(h₄ x hx).1, (hnew x hx).1⟩⟩
  · rcases List.mem_append.1 hx with hx | hx
    · exact (h₂ y).2 (.inl (h.closed x hx y hy))
    · rw [List.mem_singleton.1 hx] at hy
      exact h₅ y hy
  · exact (h₂ s).2 (.inl (h.started s hs))

/-- **A search that may take a step for each block finishes.** -/
theorem run (hnext : ∀ x ∈ g.ids, ∀ y ∈ next x, y ∈ g.ids) (fuel : Nat)
    (h : Searching g next seen₀ starts done work seen) (hfuel : g.size ≤ fuel + done.length) :
    ∃ done', Searching g next seen₀ starts done' [] (closureFrom next fuel work seen) := by
  induction fuel generalizing done work seen with
  | zero =>
    have hsub : done ++ work ⊆ g.ids := fun x hx => h.isBlock x hx
    have hlen := h.nodup.length_le_of_subset hsub
    simp only [List.length_append, Shape.ids, List.length_map, List.length_range] at hlen
    have hwork : work = [] := List.length_eq_zero_iff.1 (by omega)
    subst hwork
    exact ⟨done, by rwa [closureFrom]⟩
  | succ fuel ih =>
    cases work with
    | nil => exact ⟨done, by rwa [closureFrom]⟩
    | cons b work =>
      rw [closureFrom]
      refine ih (h.step hnext) ?_
      simp only [List.length_append, List.length_singleton]
      omega

/-- When nothing is left to do, the search has seen what it can reach. -/
theorem mem_iff (h : Searching g next seen₀ starts done [] seen) {b : BlockId} :
    b ∈ seen ↔ b ∈ seen₀ ∨ Reached next seen₀ starts b := by
  have hdone : ∀ x, x ∈ done → x ∈ done ++ [] := fun x hx => by simpa using hx
  rw [h.mem_seen, List.append_nil]
  refine or_congr_right ⟨fun hb => h.reached b (hdone b hb), ?_⟩
  rintro ⟨s, hs, hs₀, hpath⟩
  induction hpath with
  | refl => simpa [hs₀] using (h.mem_seen s).1 (h.started s hs)
  | tail _ hl ih => simpa [hl.2] using (h.mem_seen _).1 (h.closed _ ih _ hl.1)

end Searching

/-- **What a search returns:** what had been seen, and what can be reached from
the starts without entering it. -/
theorem mem_closure_iff {g : Shape} (hnext : ∀ x ∈ g.ids, ∀ y ∈ next x, y ∈ g.ids)
    (hstarts : ∀ s ∈ starts, s ∈ g.ids) {b : BlockId} :
    b ∈ closure g next starts seen₀ ↔ b ∈ seen₀ ∨ Reached next seen₀ starts b := by
  have hinit : Searching g next seen₀ starts _ _ _ := .init hstarts
  obtain ⟨done, h⟩ := hinit.run hnext
    (g.size + starts.length) (by simp)
  exact h.mem_iff

/-! ### Breadth first -/

section BreadthFirst

variable {queue l : List BlockId} {start b x : BlockId}

theorem mem_enqueue : x ∈ enqueue queue b ↔ x ∈ queue ∨ x = b := by
  unfold enqueue
  split
  · next h =>
    constructor
    · exact .inl
    · rintro (hx | rfl)
      · exact hx
      · exact h
  · simp

theorem nodup_enqueue (h : queue.Nodup) : (enqueue queue b).Nodup := by
  unfold enqueue
  split
  · exact h
  · next hb =>
    refine List.nodup_append.2 ⟨h, List.nodup_singleton b, fun x hx y hy he => hb ?_⟩
    rw [List.mem_singleton] at hy
    rwa [← hy, ← he]

theorem mem_foldl_enqueue : x ∈ l.foldl enqueue queue ↔ x ∈ queue ∨ x ∈ l := by
  induction l generalizing queue with
  | nil => simp
  | cons y l ih => rw [List.foldl_cons, ih, mem_enqueue, List.mem_cons, or_assoc]

theorem nodup_foldl_enqueue (h : queue.Nodup) : (l.foldl enqueue queue).Nodup := by
  induction l generalizing queue with
  | nil => exact h
  | cons y l ih => exact ih (nodup_enqueue h)

theorem prefix_foldl_enqueue (l queue : List BlockId) : queue <+: l.foldl enqueue queue := by
  induction l generalizing queue with
  | nil => exact List.prefix_rfl
  | cons y l ih =>
    refine List.IsPrefix.trans ?_ (ih _)
    rw [enqueue]
    split
    · exact List.prefix_rfl
    · exact List.prefix_append _ _

/-- **Breadth first comes only to what the steps lead to.** -/
theorem breadthFirst_induction {P : BlockId → Prop} {g : Shape} (base : P start)
    (step : ∀ a b, P a → b ∈ next a → P b) : ∀ b ∈ breadthFirst g next start, P b := by
  have key : ∀ fuel place queue, (∀ b ∈ queue, P b) →
      ∀ b ∈ breadthFirstFrom next fuel place queue, P b := by
    intro fuel
    induction fuel with
    | zero => exact fun _ _ h => h
    | succ fuel ih =>
      intro place queue h
      rw [breadthFirstFrom]
      split
      · exact h
      · next a ha =>
        refine ih _ _ fun b hb => ?_
        rcases mem_foldl_enqueue.1 hb with hb | hb
        · exact h b hb
        · exact step a b (h a (List.mem_of_getElem? ha)) hb
  exact key _ _ _ (by simpa using base)

/-- **Breadth first leaves nothing out.** -/
theorem breadthFirst_closed {g : Shape} (hnext : ∀ x ∈ g.ids, ∀ y ∈ next x, y ∈ g.ids)
    (hstart : start ∈ g.ids) :
    start ∈ breadthFirst g next start ∧
      ∀ a ∈ breadthFirst g next start, ∀ b ∈ next a, b ∈ breadthFirst g next start := by
  -- The blocks before the place are done with, and there are at most as many as the graph has.
  have key : ∀ fuel place queue, queue.Nodup → (∀ b ∈ queue, b ∈ g.ids) →
      (∀ i a, i < place → queue[i]? = some a → ∀ b ∈ next a, b ∈ queue) →
      g.size < fuel + place →
        (∀ b ∈ queue, b ∈ breadthFirstFrom next fuel place queue) ∧
        ∀ a ∈ breadthFirstFrom next fuel place queue, ∀ b ∈ next a,
          b ∈ breadthFirstFrom next fuel place queue := by
    intro fuel
    induction fuel with
    | zero =>
      intro place queue hnodup hids hdone hfuel
      rw [breadthFirstFrom]
      refine ⟨fun b hb => hb, fun a ha => ?_⟩
      have hlen := hnodup.length_le_of_subset hids
      rw [Shape.ids, List.length_map, List.length_range] at hlen
      obtain ⟨i, hi, rfl⟩ := List.mem_iff_getElem.1 ha
      exact hdone i _ (by omega) (List.getElem?_eq_getElem hi)
    | succ fuel ih =>
      intro place queue hnodup hids hdone hfuel
      rw [breadthFirstFrom]
      cases ha : queue[place]? with
      | none =>
        dsimp only
        refine ⟨fun b hb => hb, fun a ha' => ?_⟩
        obtain ⟨i, hi, rfl⟩ := List.mem_iff_getElem.1 ha'
        have := List.getElem?_eq_none_iff.1 ha
        exact hdone i _ (by omega) (List.getElem?_eq_getElem hi)
      | some a =>
        obtain ⟨rest, hrest⟩ := prefix_foldl_enqueue (next a) queue
        have hmem : ∀ b ∈ queue, b ∈ (next a).foldl enqueue queue := fun b hb =>
          mem_foldl_enqueue.2 (.inl hb)
        have hids' : ∀ b ∈ (next a).foldl enqueue queue, b ∈ g.ids := by
          intro b hb
          rcases mem_foldl_enqueue.1 hb with hb | hb
          · exact hids b hb
          · exact hnext a (hids a (List.mem_of_getElem? ha)) b hb
        have hdone' : ∀ i c, i < place + 1 → ((next a).foldl enqueue queue)[i]? = some c →
            ∀ b ∈ next c, b ∈ (next a).foldl enqueue queue := by
          intro i c hi hc b hb
          have hplace := (List.getElem?_eq_some_iff.1 ha).1
          rw [← hrest, List.getElem?_append_left (by omega)] at hc
          rcases Nat.lt_succ_iff_lt_or_eq.1 hi with hi | rfl
          · exact hmem b (hdone i c hi hc b hb)
          · cases ha.symm.trans hc
            exact mem_foldl_enqueue.2 (.inr hb)
        obtain ⟨h₁, h₂⟩ := ih (place + 1) _ (nodup_foldl_enqueue hnodup) hids' hdone' (by omega)
        exact ⟨fun b hb => h₁ b (hmem b hb), h₂⟩
  obtain ⟨h₁, h₂⟩ := key (g.size + 1) 0 [start] (by simp) (by simpa using hstart) (by omega)
    (by omega)
  exact ⟨h₁ start (by simp), h₂⟩

end BreadthFirst
end ConstantTime
