/-
# Graphs that a builder hands over

A builder is used by a sequence of calls.  Whatever the calls, the draft keeps
its edges on both sides: a block is listed as a successor exactly where its
predecessor is listed, once, and every listed number is a block
(`Builder.wellFormed_run`).  A graph is *accepted* if some sequence of calls ends
with the builder handing it over; the theorems about graphs are theorems about
accepted ones.
-/

import ConstantTime.Graph.Builder
import ConstantTime.Proofs.Graph.Path
import Mathlib.Data.List.Nodup

namespace ConstantTime

/-- Both ends of every edge know of it. -/
structure Shape.WellFormed (g : Shape) : Prop where
  mem_preds_iff : ∀ {u v}, u ∈ g.preds v ↔ v ∈ g.succs u
  isBlock_of_mem_succs : ∀ {u v}, v ∈ g.succs u → v ∈ g.ids
  nodup_succs : ∀ u, (g.succs u).Nodup
  nodup_preds : ∀ v, (g.preds v).Nodup

namespace Shape

variable {g : Shape}

theorem nodup_ids (g : Shape) : g.ids.Nodup :=
  List.Nodup.map (fun _ _ h => Int.ofNat.inj h) List.nodup_range

theorem block?_eq_some {b : BlockId} {blk : Block} (h : g.block? b = some blk) : b ∈ g.ids := by
  unfold block? at h
  split at h
  · next h₀ =>
    rw [mem_ids]
    have := (List.getElem?_eq_some_iff.1 h).1
    exact ⟨h₀, by unfold size; lia⟩
  · simp at h

theorem mem_ids_of_mem_succs {u v : BlockId} (h : v ∈ g.succs u) : u ∈ g.ids := by
  unfold succs at h
  split at h
  · next hb => exact block?_eq_some hb
  · simp at h

theorem end?_eq_some {e : BlockId} (h : g.end? = some e) : e ∈ g.ids ∧ g.succs e = [] := by
  unfold end? at h
  split at h
  · next he =>
    cases h
    have : e ∈ g.ends := by rw [he]; simp
    simpa [ends] using this
  · cases h

theorem eq_of_end? {b e : BlockId} (h : g.end? = some e) (hb : b ∈ g.ids) (hs : g.succs b = []) :
    b = e := by
  have hmem : b ∈ g.ends := by simp [ends, hb, hs]
  unfold end? at h
  split at h
  · next he =>
    cases h
    rw [he] at hmem
    exact List.mem_singleton.1 hmem
  · cases h

/-- A path from a block passes blocks only. -/
theorem IsPath.mem_ids (hg : g.WellFormed) {a b : BlockId} {p : List BlockId}
    (hp : g.IsPath a p b) (ha : a ∈ g.ids) : ∀ x ∈ p, x ∈ g.ids := by
  refine snoc_induction (motive := fun p _ => ∀ x ∈ p, x ∈ g.ids) (by simpa using ha) ?_ hp
  intro p u v _ hs ih x hx
  rcases List.mem_append.1 hx with hx | hx
  · exact ih x hx
  · rw [List.mem_singleton.1 hx]
    exact hg.isBlock_of_mem_succs hs

end Shape

namespace Builder

/-! ### Drafts -/

section Draft

variable {s : Shape} {u v x : BlockId}

theorem succs_eq :
    s.succs x = if 0 ≤ x then (s.blocks[x.toNat]?.map Block.succs).getD [] else [] := by
  unfold Shape.succs Shape.block?
  by_cases h₀ : 0 ≤ x
  · rw [if_pos h₀, if_pos h₀]
    cases s.blocks[x.toNat]? <;> rfl
  · rw [if_neg h₀, if_neg h₀]

theorem preds_eq :
    s.preds x = if 0 ≤ x then (s.blocks[x.toNat]?.map Block.preds).getD [] else [] := by
  unfold Shape.preds Shape.block?
  by_cases h₀ : 0 ≤ x
  · rw [if_pos h₀, if_pos h₀]
    cases s.blocks[x.toNat]? <;> rfl
  · rw [if_neg h₀, if_neg h₀]

/-- A new block has no edges and leaves the others theirs. -/
theorem getElem?_map_snoc {α : Type} (f : Block → List α) {blk : Block} (h : f blk = [])
    (l : List Block) (i : Nat) :
    ((l ++ [blk])[i]?.map f).getD [] = (l[i]?.map f).getD [] := by
  rcases Nat.lt_trichotomy i l.length with hi | rfl | hi
  · rw [List.getElem?_append_left hi]
  · rw [List.getElem?_append_right (Nat.le_refl _)]
    simp [h]
  · rw [List.getElem?_append_right (by omega), List.getElem?_eq_none (by simp; omega),
      List.getElem?_eq_none (by omega)]

theorem toNat_eq_iff (hu : u ∈ s.ids) (h₀ : 0 ≤ x) : u.toNat = x.toNat ↔ x = u := by
  rw [Shape.mem_ids] at hu
  constructor <;> intro h <;> lia

theorem succs_connect (hu : u ∈ s.ids) :
    (connect s u v).succs x = if x = u then s.succs x ++ [v] else s.succs x := by
  have hlt : u.toNat < s.blocks.length := by
    have := Shape.mem_ids.1 hu
    unfold Shape.size at this
    lia
  rw [succs_eq, succs_eq]
  by_cases h₀ : 0 ≤ x
  · simp only [connect, if_pos h₀, List.getElem?_modify, toNat_eq_iff hu h₀]
    by_cases hx : x = u
    · subst hx
      simp only [List.getElem?_eq_getElem hlt]
      split <;> simp
    · simp only [if_neg hx]
      cases s.blocks[x.toNat]? with
      | none => rfl
      | some blk => simp only [Option.map_eq_map, Option.map_some, Option.getD_some]; split <;> rfl
  · have hx : x ≠ u := by
      rintro rfl
      exact h₀ (Shape.mem_ids.1 hu).1
    rw [if_neg h₀, if_neg h₀, if_neg hx]

theorem preds_connect (hv : v ∈ s.ids) :
    (connect s u v).preds x = if x = v then s.preds x ++ [u] else s.preds x := by
  have hlt : v.toNat < s.blocks.length := by
    have := Shape.mem_ids.1 hv
    unfold Shape.size at this
    lia
  rw [preds_eq, preds_eq]
  by_cases h₀ : 0 ≤ x
  · simp only [connect, if_pos h₀, List.getElem?_modify, toNat_eq_iff hv h₀]
    by_cases hx : x = v
    · subst hx
      simp only [List.getElem?_eq_getElem hlt]
      simp
      split <;> simp
    · simp only [if_neg hx]
      cases s.blocks[x.toNat]? with
      | none => rfl
      | some blk => simp only [Option.map_eq_map, Option.map_some, Option.getD_some]; split <;> rfl
  · have hx : x ≠ v := by
      rintro rfl
      exact h₀ (Shape.mem_ids.1 hv).1
    rw [if_neg h₀, if_neg h₀, if_neg hx]

theorem ids_connect : (connect s u v).ids = s.ids := by
  simp [Shape.ids, Shape.size, connect]

theorem nodup_snoc {l : List BlockId} {a : BlockId} (h : l.Nodup) (ha : a ∉ l) :
    (l ++ [a]).Nodup := by
  refine List.nodup_append.2 ⟨h, by simp, fun x hx y hy => ?_⟩
  rw [List.mem_singleton.1 hy]
  rintro rfl
  exact ha hx

/-- **A new edge keeps a draft well formed.** -/
theorem wellFormed_connect (hs : s.WellFormed) (hu : u ∈ s.ids) (hv : v ∈ s.ids)
    (hnew : v ∉ s.succs u) : (connect s u v).WellFormed where
  mem_preds_iff {a b} := by
    rw [preds_connect hv, succs_connect hu]
    have := hs.mem_preds_iff (u := a) (v := b)
    split <;> split <;> simp_all
  isBlock_of_mem_succs {a b} h := by
    rw [succs_connect hu] at h
    rw [ids_connect]
    split at h
    · rcases List.mem_append.1 h with h | h
      · exact hs.isBlock_of_mem_succs h
      · rw [List.mem_singleton.1 h]
        exact hv
    · exact hs.isBlock_of_mem_succs h
  nodup_succs a := by
    rw [succs_connect hu]
    split
    · next ha => subst ha; exact nodup_snoc (hs.nodup_succs a) hnew
    · exact hs.nodup_succs a
  nodup_preds b := by
    rw [preds_connect hv]
    split
    · next hb =>
      subst hb
      exact nodup_snoc (hs.nodup_preds b) fun h => hnew (hs.mem_preds_iff.1 h)
    · exact hs.nodup_preds b

/-- **A new block keeps a draft well formed.** -/
theorem wellFormed_snoc (hs : s.WellFormed) (name : String) :
    ({ s with blocks := s.blocks ++ [{ name := name }] } : Shape).WellFormed := by
  set s' : Shape := { s with blocks := s.blocks ++ [{ name := name }] } with hs'
  have hsuccs : ∀ x, s'.succs x = s.succs x := fun x => by
    rw [succs_eq, succs_eq, hs', getElem?_map_snoc Block.succs rfl]
  have hpreds : ∀ x, s'.preds x = s.preds x := fun x => by
    rw [preds_eq, preds_eq, hs', getElem?_map_snoc Block.preds rfl]
  have hids : ∀ x, x ∈ s.ids → x ∈ s'.ids := fun x hx => by
    rw [Shape.mem_ids] at hx ⊢
    simp only [hs', Shape.size, List.length_append, List.length_singleton] at hx ⊢
    lia
  refine ⟨fun {a b} => ?_, fun {a b} h => ?_, fun a => ?_, fun b => ?_⟩
  · rw [hpreds, hsuccs]
    exact hs.mem_preds_iff
  · rw [hsuccs] at h
    exact hids _ (hs.isBlock_of_mem_succs h)
  · rw [hsuccs]
    exact hs.nodup_succs a
  · rw [hpreds]
    exact hs.nodup_preds b

theorem wellFormed_nil (name : String) : ({ name := name, blocks := [] } : Shape).WellFormed := by
  have hsuccs : ∀ x, ({ name := name, blocks := [] } : Shape).succs x = [] := fun x => by
    rw [succs_eq]; simp
  have hpreds : ∀ x, ({ name := name, blocks := [] } : Shape).preds x = [] := fun x => by
    rw [preds_eq]; simp
  refine ⟨fun {a b} => ?_, fun {a b} h => ?_, fun a => ?_, fun b => ?_⟩
  · rw [hsuccs, hpreds]; simp
  · rw [hsuccs] at h; simp at h
  · rw [hsuccs]; exact List.nodup_nil
  · rw [hpreds]; exact List.nodup_nil

end Draft

/-! ### Calls -/

variable {b : Builder}

theorem draft_complain (c : Cause) : (b.complain c).draft = b.draft := by
  unfold complain
  split <;> rfl

/-- A call for a block adds one without edges, whatever it is called. -/
theorem draft_newBlock (name : String) : ∃ n, (b.newBlock name).1.draft =
    { b.draft with blocks := b.draft.blocks ++ [{ name := n }] } := by
  unfold newBlock
  refine ⟨if name = "" then BlockId.label b.draft.size else name, ?_⟩
  dsimp only
  generalize (if name = "" then BlockId.label b.draft.size else name) = n
  have hdraft : (if (b.draft.find? n).isSome then b.complain (.duplicateBlock n)
      else b).draft = b.draft := by
    split
    · exact draft_complain _
    · rfl
  rw [hdraft]

theorem wellFormed_newBlock (hb : b.draft.WellFormed) (name : String) :
    (b.newBlock name).1.draft.WellFormed := by
  obtain ⟨n, hn⟩ := draft_newBlock (b := b) name
  rw [hn]
  exact wellFormed_snoc hb n

theorem wellFormed_newBlocks (hb : b.draft.WellFormed) (n : Nat) :
    (newBlocks n b).1.draft.WellFormed := by
  induction n generalizing b with
  | zero => exact hb
  | succ n ih =>
    rw [newBlocks]
    exact ih (wellFormed_newBlock hb "")

theorem wellFormed_addEdge (hb : b.draft.WellFormed) (u v : BlockId) :
    (b.addEdge u v).draft.WellFormed := by
  unfold addEdge
  split
  · rw [draft_complain]
    exact hb
  · next hblocks =>
    split
    · exact hb
    · next hnew =>
      simp only [Bool.not_eq_true, Bool.not_eq_false', Bool.and_eq_true] at hblocks
      have hu := Shape.isBlock_iff.1 hblocks.1
      have hv := Shape.isBlock_iff.1 hblocks.2
      exact wellFormed_connect hb hu hv (by simpa [Shape.hasEdge] using hnew)

/-- **Every call keeps the draft well formed.** -/
theorem wellFormed_after (hb : b.draft.WellFormed) (c : Call) : (b.after c).draft.WellFormed := by
  cases c with
  | newBlock name => exact wellFormed_newBlock hb name
  | block name =>
    simp only [after, block]
    split
    · exact hb
    · exact wellFormed_newBlock hb name
  | newBlocks n => exact wellFormed_newBlocks hb n
  | addEdge u v => exact wellFormed_addEdge hb u v
  | addEdgeByName u v =>
    simp only [after, addEdgeByName]
    split
    · rw [draft_complain]; exact hb
    · split
      · rw [draft_complain]; exact hb
      · exact wellFormed_addEdge hb _ _
  | build =>
    simp only [after, build]
    split
    · exact wellFormed_nil _
    · exact hb

/-- **Whatever was asked of a builder, its draft is well formed.** -/
theorem wellFormed_run (hb : b.draft.WellFormed) (calls : List Call) :
    (b.run calls).draft.WellFormed := by
  induction calls generalizing b with
  | nil => exact hb
  | cons c calls ih => exact ih (wellFormed_after hb c)

end Builder

/-- A graph that some builder hands over. -/
def Graph.Accepted (g : Graph) : Prop :=
  ∃ name calls, ((Builder.new name).run calls).graph = .ok g

/-- What a builder makes of `n` blocks and some edges. -/
def Builder.sketch (n : Nat) (edges : List (BlockId × BlockId)) : Outcome Graph :=
  ((Builder.new "f").run (.newBlocks n :: edges.map fun e => .addEdge e.1 e.2)).graph

/-- What came out of something that did not fail. -/
theorem Outcome.eq_ok_get {ε α : Type} {x : Except ε α} (h : x.toOption.isSome) :
    x = .ok (x.toOption.get h) := by
  cases x with
  | error _ => cases h
  | ok _ => rfl

/-- The graph that a builder makes of `n` blocks and some edges. -/
def Graph.drawn (n : Nat) (edges : List (BlockId × BlockId))
    (h : (Builder.sketch n edges).toOption.isSome) : Graph :=
  (Builder.sketch n edges).toOption.get h

theorem Graph.accepted_drawn {n : Nat} {edges : List (BlockId × BlockId)}
    (h : (Builder.sketch n edges).toOption.isSome) : (Graph.drawn n edges h).Accepted :=
  ⟨"f", _, Outcome.eq_ok_get h⟩

/-- What a builder knows of a graph before it looks for loops: the entry reaches
every block, and order and dominators have been computed. -/
structure Graph.Ordered (g : Graph) : Prop where
  wellFormed : g.toShape.WellFormed
  size_pos : 0 < g.size
  order_eq : g.order = g.reversePostorder
  mem_order : ∀ b ∈ g.ids, b ∈ g.order
  idom_eq : g.idom = Dominators.immediate g.toShape g.order

/-- What a builder checks before it hands a graph over. -/
structure Graph.Checked (g : Graph) : Prop extends Graph.Ordered g where
  preds_entry : g.preds g.entry = []
  loops_eq : Loops.ofShape g.toShape g.order g.idom = .ok g.loops
  innermost_eq : g.innermost =
    .ofList (g.ids.filterMap fun b => (Loops.innermost g.loops b).map (b, ·))

/-- What is computed from a shape is kept beside it. -/
theorem Graph.ofShape_eq_ok {s : Shape} {order : List BlockId} {g : Graph}
    (h : Graph.ofShape s order = .ok g) :
    (g.toShape = s ∧ g.order = order ∧ g.idom = Dominators.immediate s order) ∧
      Loops.ofShape s order g.idom = .ok g.loops ∧
      g.innermost = .ofList (s.ids.filterMap fun b => (Loops.innermost g.loops b).map (b, ·)) := by
  unfold ofShape at h
  dsimp only at h
  cases hl : Loops.ofShape s order (Dominators.immediate s order) with
  | error e => rw [hl] at h; cases h
  | ok loops =>
    rw [hl] at h
    cases h
    exact ⟨⟨rfl, rfl, rfl⟩, hl, rfl⟩

/-- **What a builder has found** of a graph that it hands over. -/
theorem Builder.graph_eq_ok {b : Builder} {g : Graph} (h : b.graph = .ok g) :
    b.failure = none ∧ b.draft.blocks ≠ [] ∧ b.draft.preds b.draft.entry = [] ∧
      (∀ v ∈ b.draft.ids, v ∈ b.draft.reversePostorder) ∧
      Graph.ofShape b.draft b.draft.reversePostorder = .ok g := by
  unfold graph at h
  dsimp only at h
  split at h
  · cases h
  next hfailure =>
  split at h
  · cases h
  next hblocks =>
  split at h
  · cases h
  next hentry =>
  split at h
  · cases h
  next hreach =>
  refine ⟨hfailure, by simpa using hblocks, by simpa using hentry, fun v hv => ?_, ?_⟩
  · simpa using List.find?_eq_none.1 hreach v hv
  · cases hs : Graph.ofShape b.draft b.draft.reversePostorder with
    | error e => rw [hs] at h; cases h
    | ok g' => rw [hs] at h; cases h; rfl

theorem Graph.Accepted.checked {g : Graph} (hg : g.Accepted) : g.Checked := by
  obtain ⟨name, calls, h⟩ := hg
  have hwf := Builder.wellFormed_run (Builder.wellFormed_nil name) calls
    (b := Builder.new name)
  generalize (Builder.new name).run calls = b at h hwf
  obtain ⟨-, hblocks, hentry, hreach, hshape⟩ := Builder.graph_eq_ok h
  obtain ⟨⟨hdraft, horder, hidom⟩, hloops, hinnermost⟩ := Graph.ofShape_eq_ok hshape
  rw [← hdraft] at hwf hblocks hentry hreach horder hidom hloops hinnermost
  rw [← horder] at hreach hidom hloops
  exact ⟨⟨hwf, List.length_pos_iff.2 hblocks, horder, hreach, hidom⟩, hentry, hloops, hinnermost⟩

end ConstantTime
