/-
# Natural loops

The loop of a header holds the header and every block from which a latch can be
reached without passing the header.  In an accepted graph the header is on
every path to each of them, since it is on every path to the latches.  From this
follow the two facts on which every analysis of loops rests:

* a loop is entered at its header only (`Checked.pred_mem_natural`), and
* two loops that share a block are nested (`Checked.header_mem_natural`,
  `Checked.natural_subset`).
-/

import ConstantTime.Proofs.Graph.Closure
import ConstantTime.Proofs.Graph.Dominance
import Mathlib.Data.List.Sort

namespace ConstantTime

/-- An edge that does not go forward in the order. -/
def Graph.Retreats (g : Graph) (u v : BlockId) : Prop :=
  v ∈ g.succs u ∧ g.place v ≤ g.place u

/-- The blocks of the loop of a header. -/
def Graph.naturalMembers (g : Graph) (h : BlockId) : BlockSet :=
  (Loops.natural g.toShape (Loops.retreating g.toShape g.order) h).members

namespace Graph.Checked

variable {g : Graph} (hg : g.Checked) {h h' u v x : BlockId}
include hg

theorem mem_retreating : (⟨u, v⟩ : FlowEdge) ∈ Loops.retreating g.toShape g.order ↔
    g.Retreats u v := by
  simp only [Loops.retreating, List.mem_flatMap, List.mem_map, List.mem_filter, decide_eq_true_eq,
    FlowEdge.mk.injEq]
  constructor
  · rintro ⟨_, -, _, ⟨hs, hle⟩, rfl, rfl⟩
    exact ⟨hs, hle⟩
  · rintro ⟨hs, hle⟩
    exact ⟨u, hg.mem_order u (Shape.mem_ids_of_mem_succs hs), v, ⟨hs, hle⟩, rfl, rfl⟩

theorem mem_latchesOf : u ∈ Loops.latchesOf (Loops.retreating g.toShape g.order) h ↔
    g.Retreats u h := by
  simp only [Loops.latchesOf, BlockId.sort, List.mem_mergeSort, List.mem_map, List.mem_filter,
    decide_eq_true_eq]
  constructor
  · rintro ⟨⟨u', v'⟩, ⟨he, rfl⟩, rfl⟩
    exact hg.mem_retreating.1 he
  · intro hr
    exact ⟨⟨u, h⟩, ⟨hg.mem_retreating.2 hr, rfl⟩, rfl⟩

theorem mem_headers : h ∈ Loops.headers (Loops.retreating g.toShape g.order) ↔
    ∃ u, g.Retreats u h := by
  simp only [Loops.headers, OrderedSet.mem_ofList, List.mem_map]
  constructor
  · rintro ⟨⟨u, v⟩, he, rfl⟩
    exact ⟨u, hg.mem_retreating.1 he⟩
  · rintro ⟨u, hr⟩
    exact ⟨⟨u, h⟩, hg.mem_retreating.2 hr, rfl⟩

theorem mem_natural_iff : x ∈ g.naturalMembers h ↔ x = h ∨
    Reached g.preds (.singleton h) (Loops.latchesOf (Loops.retreating g.toShape g.order) h) x := by
  unfold Graph.naturalMembers Loops.natural
  dsimp only
  rw [mem_closure_iff, OrderedSet.mem_singleton]
  · intro y _ z hz
    exact Shape.mem_ids_of_mem_succs (hg.wellFormed.mem_preds_iff.1 hz)
  · intro s hs
    exact Shape.mem_ids_of_mem_succs (hg.mem_latchesOf.1 hs).1

theorem header_mem_natural_self : h ∈ g.naturalMembers h := hg.mem_natural_iff.2 (.inl rfl)

theorem latch_mem_natural (hr : g.Retreats u h) : u ∈ g.naturalMembers h := by
  rw [hg.mem_natural_iff]
  by_cases hu : u = h
  · exact .inl hu
  · exact .inr ⟨u, hg.mem_latchesOf.2 hr, by simpa using hu, .refl⟩

/-- **A loop is entered at its header only.** -/
theorem pred_mem_natural (hx : x ∈ g.naturalMembers h) (hne : x ≠ h) (hs : x ∈ g.succs u) :
    u ∈ g.naturalMembers h := by
  rw [hg.mem_natural_iff] at hx ⊢
  by_cases hu : u = h
  · exact .inl hu
  · obtain ⟨s, hs₁, hs₂, hpath⟩ := hx.resolve_left hne
    exact .inr ⟨s, hs₁, hs₂, hpath.tail ⟨hg.wellFormed.mem_preds_iff.2 hs, by simpa using hu⟩⟩

/-- From every block of a loop a latch can be reached past the header. -/
theorem exists_path_to_latch (hx : x ∈ g.naturalMembers h) (hne : x ≠ h) :
    ∃ u p, g.Retreats u h ∧ g.IsPath x p u ∧ h ∉ p ∧ ∀ y ∈ p, y ∈ g.naturalMembers h := by
  obtain ⟨s, hs₁, hs₂, hpath⟩ := (hg.mem_natural_iff.1 hx).resolve_left hne
  clear hx hne
  have hs := hg.mem_latchesOf.1 hs₁
  induction hpath with
  | refl =>
    refine ⟨s, [s], hs, .single s, ?_, ?_⟩
    · simpa [eq_comm] using hs₂
    · simpa using hg.latch_mem_natural hs
  | @tail y z hsteps hstep ih =>
    obtain ⟨w, p, hw, hp, hnot, hall⟩ := ih
    have hne : z ≠ h := by simpa using hstep.2
    refine ⟨w, z :: p, hw, hp.cons (hg.wellFormed.mem_preds_iff.1 hstep.1), ?_, ?_⟩
    · rw [List.mem_cons, not_or]
      exact ⟨hne.symm, hnot⟩
    · intro y hy
      rcases List.mem_cons.1 hy with rfl | hy
      · exact hg.mem_natural_iff.2 (.inr ⟨s, hs₁, hs₂, hsteps.tail hstep⟩)
      · exact hall y hy

theorem onEveryPath_of_retreats (hr : g.Retreats u h) : g.OnEveryPath h u :=
  hg.onEveryPath_of_retreating hr.1 hr.2

/-- **The header of a loop is on every path to its blocks.** -/
theorem onEveryPath_natural (hx : x ∈ g.naturalMembers h) : g.OnEveryPath h x := by
  by_cases hne : x = h
  · rw [hne]
    exact .refl h
  obtain ⟨u, q, hu, hq, hnot, -⟩ := hg.exists_path_to_latch hx hne
  intro p hp
  have hmem := hg.onEveryPath_of_retreats hu _ (hp.append hq)
  rcases List.mem_append.1 hmem with hmem | hmem
  · exact hmem
  · exact absurd (List.mem_of_mem_tail hmem) hnot

theorem mem_ids_of_mem_natural (hh : h ∈ g.ids) (hx : x ∈ g.naturalMembers h) : x ∈ g.ids := by
  by_cases hne : x = h
  · rwa [hne]
  obtain ⟨u, p, hu, hp, -⟩ := hg.exists_path_to_latch hx hne
  rcases hp.eq_single_or_cons with ⟨-, rfl⟩ | ⟨v, q, -, hs, -⟩
  · exact Shape.mem_ids_of_mem_succs hu.1
  · exact Shape.mem_ids_of_mem_succs hs

theorem place_le_of_mem_natural (hh : h ∈ g.ids) (hx : x ∈ g.naturalMembers h) :
    g.place h ≤ g.place x :=
  hg.place_le_of_onEveryPath (hg.mem_ids_of_mem_natural hh hx) (hg.onEveryPath_natural hx)

/-- Going back along a path from a block of a loop, one stays in the loop until
its header. -/
theorem mem_natural_of_path {r : List BlockId} (hp : g.IsPath h (h :: r) x) (hr : h ∉ r)
    (hx : x ∈ g.naturalMembers h) : ∀ y ∈ r, y ∈ g.naturalMembers h := by
  induction hn : r.length generalizing r x with
  | zero => rw [List.length_eq_zero_iff.1 hn]; simp
  | succ n ih =>
    rcases hp.eq_single_or_snoc with ⟨he, -⟩ | ⟨u, q, he, hs, hq⟩
    · simp only [List.cons.injEq, true_and] at he
      rw [he] at hn
      simp at hn
    · cases q with
      | nil => exact absurd rfl hq.ne_nil
      | cons w q =>
        simp only [List.cons_append, List.cons.injEq] at he
        obtain ⟨rfl, rfl⟩ := he
        rw [List.mem_append, not_or] at hr
        have hxh : x ≠ h := fun e => hr.2 (by simp [e])
        intro y hy
        rcases List.mem_append.1 hy with hy | hy
        · exact ih hq hr.1 (hg.pred_mem_natural hx hxh hs) (by simpa using hn) y hy
        · rwa [List.mem_singleton.1 hy]

/-- **Of two loops that share a block, the one whose header stands first holds
the header of the other.** -/
theorem header_mem_natural (hh : h ∈ g.ids) (hx : x ∈ g.naturalMembers h)
    (hx' : x ∈ g.naturalMembers h') (hle : g.place h ≤ g.place h') :
    h' ∈ g.naturalMembers h := by
  obtain ⟨p, hp, hasc, -⟩ := hg.exists_ascending (hg.mem_ids_of_mem_natural hh hx)
  have hmem := hg.onEveryPath_natural hx p hp
  have hmem' := hg.onEveryPath_natural hx' p hp
  obtain ⟨q, r, rfl, -, hr⟩ := hp.split hmem
  obtain ⟨-, hhr, hqr⟩ := List.pairwise_append.1 hasc
  rcases List.mem_append.1 hmem' with hq | hr'
  · -- the other header cannot stand before this one on the path
    exact absurd (hqr h' hq h (by simp)) (by omega)
  rcases List.mem_cons.1 hr' with rfl | hr'
  · exact hg.header_mem_natural_self
  have hnot : h ∉ r := fun he => absurd ((List.pairwise_cons.1 hhr).1 h he) (Nat.lt_irrefl _)
  exact hg.mem_natural_of_path hr hnot hx h' hr'

/-- **A loop that holds the header of another holds all of it.** -/
theorem natural_subset (hh : h ∈ g.ids) (hh' : h' ∈ g.ids) (hne : h' ≠ h)
    (hmem : h' ∈ g.naturalMembers h) :
    h ∉ g.naturalMembers h' ∧ ∀ y ∈ g.naturalMembers h', y ∈ g.naturalMembers h := by
  have hnot : h ∉ g.naturalMembers h' := fun hh₂ => by
    have h₁ := hg.place_le_of_mem_natural hh hmem
    have h₂ := hg.place_le_of_mem_natural hh' hh₂
    exact hne (hg.place_inj hh' hh (Nat.le_antisymm h₂ h₁))
  refine ⟨hnot, fun y hy => ?_⟩
  by_cases hyh : y = h'
  · rwa [hyh]
  obtain ⟨u, p, hu, hp, -, hall⟩ := hg.exists_path_to_latch hy hyh
  -- back from the other header, over its latch, to `y`: the outer header is not met
  have hlatch : u ∈ g.naturalMembers h := hg.pred_mem_natural hmem hne hu.1
  clear hu hyh hy
  induction hn : p.length generalizing p u with
  | zero => exact absurd (List.length_eq_zero_iff.1 hn) hp.ne_nil
  | succ n ih =>
    rcases hp.eq_single_or_snoc with ⟨-, rfl⟩ | ⟨w, q, rfl, hs, hq⟩
    · exact hlatch
    · have hu : u ∈ g.naturalMembers h' := hall u (by simp)
      have huh : u ≠ h := by rintro rfl; exact hnot hu
      exact ih w q hq (fun z hz => hall z (by simp [hz])) (hg.pred_mem_natural hlatch huh hs)
        (by simpa using hn)

/-- Every block of a loop has a successor. -/
theorem exists_succ_of_mem_natural (hr : g.Retreats u h) (hx : x ∈ g.naturalMembers h) :
    ∃ y, y ∈ g.succs x := by
  by_cases hne : x = h
  · subst hne
    by_cases hu : u = x
    · exact ⟨x, hu ▸ hr.1⟩
    · obtain ⟨p, hp, -⟩ := hg.exists_ascending (Shape.mem_ids_of_mem_succs hr.1)
      obtain ⟨q, r, -, -, hp'⟩ := hp.split (hg.onEveryPath_of_retreats hr p hp)
      rcases hp'.eq_single_or_cons with ⟨-, he⟩ | ⟨v, -, -, hs, -⟩
      · exact absurd he.symm hu
      · exact ⟨v, hs⟩
  · obtain ⟨w, p, hw, hp, -⟩ := hg.exists_path_to_latch hx hne
    rcases hp.eq_single_or_cons with ⟨-, rfl⟩ | ⟨v, -, -, hs, -⟩
    · exact ⟨h, hw.1⟩
    · exact ⟨v, hs⟩

end Graph.Checked
end ConstantTime
