/-
# Regions and their levels

A region is the function, started at its entry, or a loop, started at its
header (`IsStart`).  What is inside a region is on its own level or in a loop
directly inside (`Checked.level_or_child`).  Its nodes are the blocks on its own
level and the headers of the loops directly inside: inside a region, an edge
from the level or out of an inner loop leads to a node
(`Checked.isNode_of_edge`).

An edge that leaves a loop for a block that is as deep leads to the header of a
loop *beside* it, with the same parent (`Checked.beside_of_exit`).
-/

import ConstantTime.Proofs.Graph.Ancestors

namespace ConstantTime
namespace Graph

/-- The block is in the region; every block is in the function. -/
def Inside (g : Graph) (o : Option LoopId) (b : BlockId) : Prop := g.contains o b = true

/-- The block where a region starts. -/
def IsStart (g : Graph) : Option LoopId → BlockId → Prop
  | none, h => h = g.entry
  | some l, h => l < g.loops.length ∧ h = g.header l

/-- The loop is directly inside the region. -/
def IsChild (g : Graph) (o : Option LoopId) (c : LoopId) : Prop :=
  c < g.loops.length ∧ g.parent (some c) = o

/-- The block is on the level of the region or the header of a loop inside. -/
def IsNode (g : Graph) (o : Option LoopId) (b : BlockId) : Prop :=
  g.loopOf b = o ∨ ∃ c, g.IsChild o c ∧ b = g.header c

/-- The block is the header of a loop with the same parent as the region. -/
def IsBeside (g : Graph) (o : Option LoopId) (b : BlockId) : Prop :=
  ∃ l m, o = some l ∧ m < g.loops.length ∧ g.parent (some m) = g.parent (some l) ∧ b = g.header m

variable {g : Graph} {o : Option LoopId} {c c' l m : LoopId} {b h p q t x : BlockId}

@[simp] theorem inside_none : g.Inside none b := rfl

theorem inside_some : g.Inside (some l) b ↔ g.Within l b := Iff.rfl

namespace Checked

variable (hg : g.Checked)
include hg

/-! ### Levels -/

theorem loopOf_start (hh : g.IsStart o h) : g.loopOf h = o := by
  cases o with
  | none =>
    obtain rfl : h = g.entry := hh
    exact hg.loopOf_eq_none.2 hg.not_within_entry
  | some l =>
    obtain ⟨hl, rfl⟩ := hh
    exact hg.loopOf_header hl

theorem start_mem_ids (hh : g.IsStart o h) : h ∈ g.ids := by
  cases o with
  | none =>
    obtain rfl : h = g.entry := hh
    exact hg.entry_mem
  | some l =>
    obtain ⟨hl, rfl⟩ := hh
    exact hg.header_ids hl

theorem inside_of_level (hb : g.loopOf b = o) : g.Inside o b := by
  cases o with
  | none => rfl
  | some l => exact (hg.loopOf_eq_some.1 hb).1

theorem inside_of_child (hc : g.IsChild o c) (hb : g.Within c b) : g.Inside o b := by
  cases o with
  | none => rfl
  | some l => exact hg.within_trans (hg.parent_eq_some hc.1 hc.2).2.1 hb

/-- What is in a region is on its level or in a loop directly inside. -/
theorem level_or_child (hb : g.Inside o b) :
    g.loopOf b = o ∨ ∃ c, g.IsChild o c ∧ g.Within c b := by
  cases hi : g.loopOf b with
  | none =>
    cases o with
    | none => exact .inl rfl
    | some l => exact absurd hb (hg.loopOf_eq_none.1 hi l)
  | some i =>
    obtain ⟨hib, hmin⟩ := hg.loopOf_eq_some.1 hi
    have hilt := lt_of_within hib
    cases o with
    | none =>
      obtain ⟨c, hc, hci⟩ := hg.exists_top hilt
      exact .inr ⟨c, ⟨lt_of_within hci, hc⟩, hg.within_trans hci hib⟩
    | some l =>
      by_cases hil : l = i
      · exact .inl (by rw [hil])
      · obtain ⟨c, hc, hci⟩ := hg.exists_child hilt (hmin l hb) hil
        exact .inr ⟨c, ⟨lt_of_within hci, hc⟩, hg.within_trans hci hib⟩

theorem loopDepth_child (hc : g.IsChild o c) : g.loopDepth (some c) = g.loopDepth o + 1 := by
  cases o with
  | none => exact hg.loopDepth_of_parent_none hc.1 hc.2
  | some l => exact hg.loopDepth_parent hc.1 hc.2

theorem loopDepth_eq_of_parent_eq (hl : l < g.loops.length) (hm : m < g.loops.length)
    (hp : g.parent (some l) = g.parent (some m)) : g.loopDepth (some l) = g.loopDepth (some m) := by
  rw [hg.loopDepth_child ⟨hl, rfl⟩, hg.loopDepth_child ⟨hm, rfl⟩, hp]

omit hg in
theorem depth_of_level (hb : g.loopOf b = o) : g.depth b = g.loopDepth o := by
  rw [depth, hb]

theorem depth_header (hl : l < g.loops.length) : g.depth (g.header l) = g.loopDepth (some l) :=
  depth_of_level (hg.loopOf_header hl)

theorem loopDepth_le_depth (hb : g.Within c b) : g.loopDepth (some c) ≤ g.depth b := by
  cases hi : g.loopOf b with
  | none => exact absurd hb (hg.loopOf_eq_none.1 hi c)
  | some i =>
    obtain ⟨hib, hmin⟩ := hg.loopOf_eq_some.1 hi
    rw [depth_of_level hi]
    exact hg.loopDepth_le_of_within (lt_of_within hib) (hmin c hb)

theorem not_within_of_level (hc : g.IsChild o c) (hb : g.loopOf b = o) : ¬ g.Within c b := by
  intro hw
  have h₁ := hg.loopDepth_le_depth hw
  have h₂ := hg.loopDepth_child hc
  rw [depth_of_level hb] at h₁
  omega

theorem child_unique (hc : g.IsChild o c) (hc' : g.IsChild o c') (hb : g.Within c b)
    (hb' : g.Within c' b) : c = c' :=
  hg.eq_of_parent_eq hc.1 hc'.1 (hc.2.trans hc'.2.symm) hb hb'

theorem start_not_in_child (hh : g.IsStart o h) (hc : g.IsChild o c) : ¬ g.Within c h :=
  hg.not_within_of_level hc (hg.loopOf_start hh)

theorem header_child_ne (hh : g.IsStart o h) (hc : g.IsChild o c) : g.header c ≠ h := by
  intro he
  exact hg.start_not_in_child hh hc (he ▸ hg.within_header hc.1)

/-- A node is not far below the start. -/
theorem depth_node (hb : g.IsNode o b) :
    g.depth b = g.loopDepth o ∨ g.depth b = g.loopDepth o + 1 := by
  rcases hb with hb | ⟨c, hc, rfl⟩
  · exact .inl (depth_of_level hb)
  · exact .inr (by rw [hg.depth_header hc.1, hg.loopDepth_child hc])

/-! ### Edges inside a region -/

/-- A region is entered at its start only. -/
theorem inside_of_succ (hh : g.IsStart o h) (hb : g.Inside o b) (hne : b ≠ h)
    (hs : b ∈ g.succs q) : g.Inside o q := by
  cases o with
  | none => rfl
  | some l => exact hg.within_of_succ hb (hh.2 ▸ hne) hs

/-- **Edges lead to nodes**, unless they stay in an inner loop. -/
theorem isNode_of_edge (hb : g.Inside o b) (hs : b ∈ g.succs q)
    (hq : g.loopOf q = o ∨ ∃ c, g.IsChild o c ∧ g.Within c q ∧ ¬ g.Within c b) : g.IsNode o b := by
  rcases hg.level_or_child hb with hlevel | ⟨c, hc, hcb⟩
  · exact .inl hlevel
  refine .inr ⟨c, hc, ?_⟩
  by_contra hne
  have hcq := hg.within_of_succ hcb hne hs
  rcases hq with hq | ⟨c', hc', hcq', hcb'⟩
  · exact hg.not_within_of_level hc hq hcq
  · exact hcb' (hg.child_unique hc hc' hcq hcq' ▸ hcb)

/-- Leaving a loop for a block that is as deep means going to a loop beside. -/
theorem beside_of_exit (hx : g.Within m x) (hs : t ∈ g.succs x) (ht : ¬ g.Within m t)
    (hdepth : g.loopDepth (some m) ≤ g.depth t) :
    ∃ n, n < g.loops.length ∧ t = g.header n ∧ g.parent (some n) = g.parent (some m) ∧
      ¬ g.Within n x := by
  have hm := lt_of_within hx
  have hpos := hg.loopDepth_pos hm
  cases hn : g.loopOf t with
  | none =>
    rw [depth, hn] at hdepth
    have : g.loopDepth none = 0 := rfl
    omega
  | some n =>
    rw [depth, hn] at hdepth
    obtain ⟨hnt, -⟩ := hg.loopOf_eq_some.1 hn
    -- A loop around both ends of the edge is around the loop that is left.
    have outer : ∀ k, g.Within k x → g.Within k t →
        g.loopDepth (some k) < g.loopDepth (some m) := by
      intro k hkx hkt
      have hkm : k ≠ m := fun e => ht (e ▸ hkt)
      rcases hg.within_header_or hkx hx with hk | hk
      · exact hg.loopDepth_lt hk hm hkm
      · exact absurd (hg.within_trans hk hkt) ht
    have hnx : ¬ g.Within n x := fun hnx => by
      have := outer n hnx hnt
      omega
    have hnlt := lt_of_within hnt
    have htn : t = g.header n := by
      by_contra hne
      exact hnx (hg.within_of_succ hnt hne hs)
    refine ⟨n, hnlt, htn, ?_, hnx⟩
    -- The parent of the loop that is entered is around both ends.
    cases hpn : g.parent (some n) with
    | none =>
      have hdn := hg.loopDepth_of_parent_none hnlt hpn
      cases hpm : g.parent (some m) with
      | none => rfl
      | some k =>
        have hk := hg.loopDepth_parent hm hpm
        have := hg.loopDepth_pos (hg.parent_lt hm hpm)
        omega
    | some k =>
      obtain ⟨hkn, hkt, -⟩ := hg.parent_eq_some hnlt hpn
      have hdn := hg.loopDepth_parent hnlt hpn
      rw [← htn] at hkt
      have hkx : g.Within k x := by
        refine hg.within_of_succ hkt (fun he => hkn ?_) hs
        exact hg.header_inj (lt_of_within hkt) hnlt (he.symm.trans htn)
      have hkm := outer k hkx hkt
      have hkh : g.Within k (g.header m) := by
        rcases hg.within_header_or hkx hx with hk | hk
        · exact hk
        · exact absurd (hg.within_trans hk hkt) ht
      cases hpm : g.parent (some m) with
      | none =>
        rw [hg.parent_eq_none hm hpm hkh] at hkm
        omega
      | some k' =>
        have hdm := hg.loopDepth_parent hm hpm
        obtain ⟨-, hkh', -⟩ := hg.parent_eq_some hm hpm
        rw [hg.eq_of_loopDepth_eq hkh hkh' (by omega)]

/-! ### Loops that can and that cannot be left -/

/-- A loop is left over its exits. -/
theorem exists_exit {L : Loop} (hL : g.loop? l = some L) (hexits : L.exits ≠ []) :
    ∃ x t, g.Within l x ∧ t ∈ g.succs x ∧ ¬ g.Within l t := by
  obtain ⟨⟨x, t⟩, he⟩ := List.exists_mem_of_ne_nil _ hexits
  exact ⟨x, t, (hg.mem_exits hL).1 he⟩

/-- Control stays in a loop without exits. -/
theorem within_of_succ_of_exitless {L : Loop} (hL : g.loop? l = some L) (hno : L.exits = [])
    (hb : g.Within l b) (hs : x ∈ g.succs b) : g.Within l x := by
  by_contra hout
  have he := (hg.mem_exits hL).2 ⟨hb, hs, hout⟩
  rw [hno] at he
  cases he

/-- Such a loop is in no other, which it could not go round. -/
theorem isChild_of_exitless {L : Loop} (hL : g.loop? l = some L) (hno : L.exits = []) :
    g.IsChild none l := by
  have hl : l < g.loops.length := (List.getElem?_eq_some_iff.1 hL).1
  refine ⟨hl, ?_⟩
  by_contra hsome
  obtain ⟨m, hm⟩ := Option.ne_none_iff_exists'.1 hsome
  obtain ⟨hne, hw, -⟩ := hg.parent_eq_some hl hm
  have hmlt := lt_of_within hw
  obtain ⟨u, p, hu, hp, -, -⟩ := hg.exists_path_to_latch ((hg.within_iff_natural hmlt).1 hw)
    fun he => hne (hg.header_inj hmlt hl he.symm)
  have hback : g.Within l (g.header m) :=
    (hp.snoc hu.1).snoc_induction (motive := fun _ x => g.Within l x) (hg.within_header hl)
      fun _ _ _ _ hs hb => hg.within_of_succ_of_exitless hL hno hb hs
  exact hne (hg.within_antisymm hw hback)

end Checked
end Graph
end ConstantTime
