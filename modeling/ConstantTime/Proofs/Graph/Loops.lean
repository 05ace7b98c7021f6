/-
# The loops of an accepted graph

`Loops.ofShape` numbers the natural loops by their headers.  This module reads
the questions about a loop back to its header: which blocks it holds
(`Checked.within_iff_natural`), which edges lead back to its header
(`Checked.isBackEdge_iff`), that it is entered at its header only
(`Checked.within_of_succ`) and that two loops that share a block are nested
(`Checked.within_header_or`, `Checked.within_trans`).

A loop is spoken of by its number; `g.Within l b` says that the block is in it
and `g.header l` is its header.
-/

import ConstantTime.Proofs.Graph.NaturalLoops
import Mathlib.Data.List.Range

namespace ConstantTime
namespace Graph

/-- The block is in the loop with a number. -/
def Within (g : Graph) (l : LoopId) (b : BlockId) : Prop := g.contains (some l) b = true

instance (g : Graph) (l : LoopId) (b : BlockId) : Decidable (g.Within l b) :=
  inferInstanceAs (Decidable (_ = true))

/-- The header of the loop with a number. -/
def header (g : Graph) (l : LoopId) : BlockId := g.headerOf (some l)

/-- The natural loops of a graph, before they are placed among each other. -/
def unplaced (g : Graph) : List Loop :=
  (Loops.headers (Loops.retreating g.toShape g.order)).toList.map
    (Loops.natural g.toShape (Loops.retreating g.toShape g.order))

/-- The loops around a block, by number. -/
def around (g : Graph) (b : BlockId) : List LoopId :=
  (List.range g.loops.length).filter fun l => g.Within l b

variable {g : Graph} {l l' p q : LoopId} {b u v x : BlockId}

theorem contains_eq : g.contains (some l) b = decide (g.Within l b) :=
  Bool.decide_eq_true.symm

theorem within_iff : g.Within l b ↔ ∃ L, g.loop? l = some L ∧ b ∈ L.members := by
  unfold Within contains Loop.contains
  cases h : g.loop? l <;> simp [h]

theorem within_iff_mem {L : Loop} (h : g.loop? l = some L) : g.Within l b ↔ b ∈ L.members := by
  rw [within_iff, h]
  simp

/-- What is asked of every block of a loop is asked of finitely many. -/
instance (g : Graph) (l : LoopId) (P : BlockId → Prop) [DecidablePred P] :
    Decidable (∀ b, g.Within l b → P b) :=
  decidable_of_iff (∀ L ∈ g.loop? l, ∀ b ∈ L.members.toList, P b) <| by
    simp only [within_iff, OrderedSet.mem_toList, Option.mem_def]
    exact ⟨fun h b ⟨L, hL, hb⟩ => h L hL b hb, fun h L hL b hb => h b ⟨L, hL, hb⟩⟩

theorem header_eq {L : Loop} (h : g.loop? l = some L) : g.header l = L.header := by
  simp [header, headerOf, h]

theorem lt_of_within (h : g.Within l b) : l < g.loops.length := by
  obtain ⟨L, hL, -⟩ := within_iff.1 h
  exact (List.getElem?_eq_some_iff.1 hL).1

theorem exists_loop (h : l < g.loops.length) : ∃ L, g.loop? l = some L :=
  ⟨_, List.getElem?_eq_getElem h⟩

theorem mem_around : l ∈ g.around b ↔ g.Within l b := by
  simp only [around, List.mem_filter, List.mem_range, decide_eq_true_eq, and_iff_right_iff_imp]
  exact lt_of_within

theorem nodup_around (g : Graph) (b : BlockId) : (g.around b).Nodup :=
  List.nodup_range.filter _

end Graph

/-! ### The loops of a graph before they are placed -/

namespace Graph.Checked

variable {g : Graph} (hg : g.Checked) {l l' p q : LoopId} {b u v x : BlockId}
include hg

theorem loops_eq_nest : g.loops = Loops.nest g.unplaced := by
  have h := hg.loops_eq
  unfold Loops.ofShape at h
  dsimp only at h
  split at h
  · cases h
  · exact (Except.ok.inj h).symm

/-- A loop is the natural loop of its header with its place among the others. -/
theorem loop?_eq_some {L : Loop} (h : g.loop? l = some L) :
    (Loops.headers (Loops.retreating g.toShape g.order)).toList[l]? = some L.header ∧
      L.members = g.naturalMembers L.header ∧
      L.latches = Loops.latchesOf (Loops.retreating g.toShape g.order) L.header ∧
      L.exits = Loops.exitsOf g.toShape L.members := by
  rw [loop?, hg.loops_eq_nest, Loops.nest, unplaced] at h
  simp only [List.getElem?_map, List.getElem?_zipIdx, Option.map_map, Option.map_eq_some_iff] at h
  obtain ⟨b, hb, rfl⟩ := h
  exact ⟨by simpa [Loops.natural] using hb, rfl, rfl, rfl⟩

theorem retreats_header {L : Loop} (h : g.loop? l = some L) : ∃ u, g.Retreats u L.header :=
  hg.mem_headers.1 (List.mem_of_getElem? (hg.loop?_eq_some h).1)

theorem header_mem_ids {L : Loop} (h : g.loop? l = some L) : L.header ∈ g.ids := by
  obtain ⟨u, hu⟩ := hg.retreats_header h
  exact hg.wellFormed.isBlock_of_mem_succs hu.1

theorem mem_latches {L : Loop} (h : g.loop? l = some L) :
    u ∈ L.latches ↔ g.Retreats u L.header := by
  rw [(hg.loop?_eq_some h).2.2.1]
  exact hg.mem_latchesOf

theorem mem_members {L : Loop} (h : g.loop? l = some L) :
    x ∈ L.members ↔ x ∈ g.naturalMembers L.header := by
  rw [(hg.loop?_eq_some h).2.1]

theorem mem_exits {L : Loop} (h : g.loop? l = some L) :
    (⟨u, v⟩ : FlowEdge) ∈ L.exits ↔ g.Within l u ∧ v ∈ g.succs u ∧ ¬ g.Within l v := by
  rw [(hg.loop?_eq_some h).2.2.2, within_iff_mem h, within_iff_mem h]
  simp only [Loops.exitsOf, List.mem_flatMap, List.mem_map, List.mem_filter, decide_eq_true_eq,
    FlowEdge.mk.injEq]
  constructor
  · rintro ⟨x, hx, s, ⟨hs, hout⟩, rfl, rfl⟩
    exact ⟨hx, hs, hout⟩
  · rintro ⟨hu, hs, hout⟩
    exact ⟨u, hu, v, ⟨hs, hout⟩, rfl, rfl⟩

theorem loops_length : g.loops.length =
    (Loops.headers (Loops.retreating g.toShape g.order)).toList.length := by
  rw [hg.loops_eq_nest, Loops.nest, unplaced]
  simp

/-- Every target of a backward edge heads a loop. -/
theorem exists_loop_of_retreats (h : g.Retreats u v) :
    ∃ l L, g.loop? l = some L ∧ L.header = v := by
  obtain ⟨l, hl⟩ := List.mem_iff_getElem?.1 (hg.mem_headers.2 ⟨u, h⟩)
  have hlt : l < g.loops.length := by
    rw [hg.loops_length]
    exact (List.getElem?_eq_some_iff.1 hl).1
  obtain ⟨L, hL⟩ := exists_loop hlt
  refine ⟨l, L, hL, ?_⟩
  have := (hg.loop?_eq_some hL).1
  rw [hl] at this
  exact (Option.some.inj this).symm

theorem header_injective {L L' : Loop} (h : g.loop? l = some L) (h' : g.loop? l' = some L')
    (he : L.header = L'.header) : l = l' := by
  have hn := OrderedSet.nodup_toList (Loops.headers (Loops.retreating g.toShape g.order))
  have h₁ := (hg.loop?_eq_some h).1
  have h₂ := (hg.loop?_eq_some h').1
  rw [he] at h₁
  obtain ⟨hlt, e₁⟩ := List.getElem?_eq_some_iff.1 h₁
  obtain ⟨hlt', e₂⟩ := List.getElem?_eq_some_iff.1 h₂
  exact (List.Nodup.getElem_inj_iff hn).1 (e₁.trans e₂.symm)

theorem headedBy_eq_some : g.headedBy b = some l ↔ ∃ L, g.loop? l = some L ∧ L.header = b := by
  unfold headedBy
  rw [List.findIdx?_eq_some_iff_getElem]
  constructor
  · rintro ⟨hlt, he, -⟩
    exact ⟨_, List.getElem?_eq_getElem hlt, by simpa using he⟩
  · rintro ⟨L, hL, he⟩
    obtain ⟨hlt, rfl⟩ := List.getElem?_eq_some_iff.1 hL
    refine ⟨hlt, by simpa using he, fun j hj => ?_⟩
    have hjlt : j < g.loops.length := by omega
    intro hjb
    have := hg.header_injective (List.getElem?_eq_getElem hjlt) hL
      ((of_decide_eq_true hjb).trans he.symm)
    exact absurd hj (this ▸ Nat.lt_irrefl j)

theorem headedBy_header (h : l < g.loops.length) : g.headedBy (g.header l) = some l := by
  obtain ⟨L, hL⟩ := exists_loop h
  exact hg.headedBy_eq_some.2 ⟨L, hL, (header_eq hL).symm⟩

theorem isHeader_iff : g.isHeader b = true ↔ ∃ l, l < g.loops.length ∧ g.header l = b := by
  unfold isHeader
  rw [Option.isSome_iff_exists]
  constructor
  · rintro ⟨l, h⟩
    obtain ⟨L, hL, he⟩ := hg.headedBy_eq_some.1 h
    exact ⟨l, (List.getElem?_eq_some_iff.1 hL).1, by rw [header_eq hL, he]⟩
  · rintro ⟨l, hlt, rfl⟩
    exact ⟨l, hg.headedBy_header hlt⟩

/-- **A back edge is an edge that does not go forward.** -/
theorem isBackEdge_iff : g.isBackEdge u v = true ↔ g.Retreats u v := by
  unfold isBackEdge Loop.isLatch
  constructor
  · intro h
    obtain ⟨L, hL, hlatch⟩ := (Option.any_eq_true ..).1 h
    obtain ⟨l, hl, hloop⟩ := Option.bind_eq_some_iff.1 hL
    obtain ⟨L', hL', rfl⟩ := hg.headedBy_eq_some.1 hl
    rw [hloop] at hL'
    cases hL'
    exact (hg.mem_latches hloop).1 (by simpa using hlatch)
  · intro h
    obtain ⟨l, L, hL, rfl⟩ := hg.exists_loop_of_retreats h
    rw [hg.headedBy_eq_some.2 ⟨L, hL, rfl⟩, Option.bind_some, hL, Option.any_some]
    simpa using (hg.mem_latches hL).2 h

/-! ### The blocks of a loop -/

theorem within_header (h : l < g.loops.length) : g.Within l (g.header l) := by
  obtain ⟨L, hL⟩ := exists_loop h
  rw [within_iff, header_eq hL]
  exact ⟨L, hL, (hg.mem_members hL).2 hg.header_mem_natural_self⟩

theorem header_ids (h : l < g.loops.length) : g.header l ∈ g.ids := by
  obtain ⟨L, hL⟩ := exists_loop h
  rw [header_eq hL]
  exact hg.header_mem_ids hL

theorem within_iff_natural (h : l < g.loops.length) :
    g.Within l b ↔ b ∈ g.naturalMembers (g.header l) := by
  obtain ⟨L, hL⟩ := exists_loop h
  rw [within_iff, header_eq hL]
  constructor
  · rintro ⟨L', hL', hb⟩
    rw [hL] at hL'
    cases hL'
    exact (hg.mem_members hL).1 hb
  · exact fun hb => ⟨L, hL, (hg.mem_members hL).2 hb⟩

theorem mem_ids_of_within (h : g.Within l b) : b ∈ g.ids :=
  hg.mem_ids_of_mem_natural (hg.header_ids (lt_of_within h))
    ((hg.within_iff_natural (lt_of_within h)).1 h)

/-- **A loop is entered at its header only.** -/
theorem within_of_succ (h : g.Within l v) (hne : v ≠ g.header l) (hs : v ∈ g.succs u) :
    g.Within l u := by
  have hlt := lt_of_within h
  rw [hg.within_iff_natural hlt] at h ⊢
  exact hg.pred_mem_natural h hne hs

/-- **The header of a loop is on every path to its blocks.** -/
theorem onEveryPath_header (h : g.Within l b) : g.OnEveryPath (g.header l) b :=
  hg.onEveryPath_natural ((hg.within_iff_natural (lt_of_within h)).1 h)

theorem place_header_le (h : g.Within l b) : g.place (g.header l) ≤ g.place b :=
  hg.place_le_of_onEveryPath (hg.mem_ids_of_within h) (hg.onEveryPath_header h)

theorem header_inj (h : l < g.loops.length) (h' : l' < g.loops.length)
    (he : g.header l = g.header l') : l = l' := by
  obtain ⟨L, hL⟩ := exists_loop h
  obtain ⟨L', hL'⟩ := exists_loop h'
  rw [header_eq hL, header_eq hL'] at he
  exact hg.header_injective hL hL' he

/-- An edge from a block of a loop to its header is a back edge. -/
theorem retreats_of_within (h : g.Within l u) (hs : g.header l ∈ g.succs u) :
    g.Retreats u (g.header l) := ⟨hs, hg.place_header_le h⟩

theorem within_of_retreats (h : l < g.loops.length) (hr : g.Retreats u (g.header l)) :
    g.Within l u := (hg.within_iff_natural h).2 (hg.latch_mem_natural hr)

theorem exists_succ_of_within (h : g.Within l b) : ∃ y, y ∈ g.succs b := by
  obtain ⟨L, hL⟩ := exists_loop (lt_of_within h)
  obtain ⟨u, hu⟩ := hg.retreats_header hL
  rw [← header_eq hL] at hu
  exact hg.exists_succ_of_mem_natural hu ((hg.within_iff_natural (lt_of_within h)).1 h)

/-- **Of two loops around a block one holds the header of the other.** -/
theorem within_header_or (h : g.Within l b) (h' : g.Within l' b) :
    g.Within l (g.header l') ∨ g.Within l' (g.header l) := by
  have hlt := lt_of_within h
  have hlt' := lt_of_within h'
  rw [hg.within_iff_natural hlt] at h ⊢
  rw [hg.within_iff_natural hlt'] at h' ⊢
  rcases Nat.le_total (g.place (g.header l)) (g.place (g.header l')) with hle | hle
  · exact .inl (hg.header_mem_natural (hg.header_ids hlt) h h' hle)
  · exact .inr (hg.header_mem_natural (hg.header_ids hlt') h' h hle)

/-- **A loop that holds the header of another holds all of it.** -/
theorem within_trans (h : g.Within l (g.header l')) (h' : g.Within l' b) : g.Within l b := by
  have hlt := lt_of_within h
  have hlt' := lt_of_within h'
  by_cases he : g.header l' = g.header l
  · rwa [hg.header_inj hlt hlt' he.symm]
  rw [hg.within_iff_natural hlt] at h ⊢
  rw [hg.within_iff_natural hlt'] at h'
  exact (hg.natural_subset (hg.header_ids hlt) (hg.header_ids hlt') he h).2 b h'

theorem within_antisymm (h : g.Within l (g.header l')) (h' : g.Within l' (g.header l)) :
    l = l' := by
  have hlt := lt_of_within h
  have hlt' := lt_of_within h'
  have h₁ := hg.place_header_le h
  have h₂ := hg.place_header_le h'
  exact hg.header_inj hlt hlt'
    (hg.place_inj (hg.header_ids hlt) (hg.header_ids hlt') (Nat.le_antisymm h₁ h₂))

/-- The entry is in no loop. -/
theorem not_within_entry (l : LoopId) : ¬ g.Within l g.entry := by
  intro h
  have hlt := lt_of_within h
  have hle := hg.place_header_le h
  have he : g.header l = g.entry :=
    hg.place_inj (hg.header_ids hlt) hg.entry_mem (by rw [hg.place_entry] at hle ⊢; omega)
  obtain ⟨L, hL⟩ := exists_loop hlt
  obtain ⟨u, hu⟩ := hg.retreats_header hL
  rw [← header_eq hL, he] at hu
  have := hg.wellFormed.mem_preds_iff.2 hu.1
  rw [hg.preds_entry] at this
  simp at this

/-- A block without successors is in no loop. -/
theorem not_within_end (h : g.succs b = []) (l : LoopId) : ¬ g.Within l b := by
  intro hw
  obtain ⟨y, hy⟩ := hg.exists_succ_of_within hw
  rw [h] at hy
  simp at hy

/-- A stay on a path from the entry begins at the header. -/
theorem header_mem_stay {before stay after : List BlockId}
    (hp : g.IsPath g.entry (before ++ stay ++ after) b) (hne : stay ≠ [])
    (hin : ∀ x ∈ stay, g.Within l x) (hout : ∀ x ∈ before.getLast?, ¬ g.Within l x) :
    g.header l ∈ stay := by
  obtain ⟨y, rest, rfl⟩ := List.exists_cons_of_ne_nil hne
  have hy := hin y List.mem_cons_self
  suffices hyh : y = g.header l from hyh ▸ List.mem_cons_self
  rcases List.eq_nil_or_concat before with rfl | ⟨before', w, rfl⟩
  · have hhead : y = g.entry := by simpa using hp.head
    exact absurd (hhead ▸ hy) (hg.not_within_entry l)
  · by_contra hyh
    rw [List.concat_eq_append] at hp hout
    have hs := hp.succ_of_infix (u := w) (v := y) ⟨before', rest ++ after, by simp⟩
    exact hout w (by simp) (hg.within_of_succ hy hyh hs)

end Graph.Checked
end ConstantTime
