/-
# A builder and what it has handed over

"Single-Path Constant-Time Transformation Engine", §12.1.

A builder over memory hands its blocks over where they are.  Its calls do what those of
`Builder` do, and have the same answers (`Assembly.Sound.call`).

* A call writes to blocks of the draft, to the table of the draft and to new places, and
  to nothing else (`Assembly.Touches`).  What was handed over lies elsewhere, so no later
  call changes it.
* A call that fails to build leaves the assembly as it is, so such calls can be left out
  (`answersOf_kept`).
* After handing over, the draft reads as that of a new builder, wherever its places are,
  so all later answers are those of a new builder (`Assembly.builds_in_sequence`).
-/

import ConstantTime.Graph.Assembly
import ConstantTime.Proofs.Graph.Construction
import Mathlib.Data.List.Find
import Mathlib.Data.List.GetD

namespace ConstantTime

open Builder (Call)

/-! ### Names in a draft -/

namespace Shape

variable {s : Shape} {b : BlockId}

theorem nameOf_congr {s s' : Shape}
    (h : (s.block? b).map Block.name = (s'.block? b).map Block.name) :
    s.nameOf b = s'.nameOf b := by
  unfold nameOf
  cases hs : s.block? b <;> cases hs' : s'.block? b <;> simp_all

theorem find?_congr {s s' : Shape} (hids : s.ids = s'.ids)
    (hnames : ∀ b ∈ s.ids, s.nameOf b = s'.nameOf b) (name : String) :
    s.find? name = s'.find? name := by
  unfold find?
  rw [← hids]
  refine List.find?_congr fun b hb => ?_
  rw [hnames b (List.mem_reverse.1 hb)]

/-- The last block of a name is the new one, or was there before. -/
theorem find?_snoc (s : Shape) (blk : Block) (name : String) :
    ({ s with blocks := s.blocks ++ [blk] } : Shape).find? name =
      if blk.name = name then some (s.size : BlockId) else s.find? name := by
  set s' : Shape := { s with blocks := s.blocks ++ [blk] } with hs'
  have hids : s'.ids = s.ids ++ [(s.size : BlockId)] := by
    simp [ids, size, hs', List.range_succ]
  have hnew : s'.nameOf (s.size : BlockId) = blk.name := by
    simp [nameOf, block?, size, hs']
  have hold : ∀ b ∈ s.ids, s'.nameOf b = s.nameOf b := by
    intro b hb
    refine nameOf_congr ?_
    obtain ⟨h₀, h₁⟩ := mem_ids.1 hb
    unfold block?
    rw [if_pos h₀, if_pos h₀, hs', List.getElem?_append_left (by unfold size at h₁; lia)]
  have hfind : s.ids.reverse.find? (fun b => s'.nameOf b = name) = s.find? name :=
    List.find?_congr fun b hb => by rw [hold b (List.mem_reverse.1 hb)]
  rw [find?, hids, List.reverse_append, List.reverse_singleton, List.singleton_append,
    List.find?_cons, hfind, hnew]
  split <;> simp_all

theorem find?_connect (u v : BlockId) (name : String) :
    (Builder.connect s u v).find? name = s.find? name := by
  refine find?_congr Builder.ids_connect (fun b _ => nameOf_congr ?_) name
  unfold block? Builder.connect
  split
  · simp only [List.getElem?_modify]
    cases s.blocks[b.toNat]? with
    | none => rfl
    | some blk => simp only [Option.map_eq_map, Option.map_some]; split <;> split <;> rfl
  · rfl

end Shape

/-! ### Answers -/

section Answers

variable {σ : Type} {after : σ → Call → σ} {answer : σ → Call → Answer}

/-- **Calls that change nothing can be left out.** -/
theorem answersOf_kept (h : ∀ s c, (answer s c).isFailure = true → after s c = s) (s : σ)
    (calls : List Call) :
    answersOf after answer s (kept after answer s calls) =
        (answersOf after answer s calls).filter (fun a => !a.isFailure) ∧
      (kept after answer s calls).foldl after s = calls.foldl after s := by
  induction calls generalizing s with
  | nil => exact ⟨rfl, rfl⟩
  | cons c calls ih =>
    obtain ⟨hanswers, hafter⟩ := ih (after s c)
    rw [kept, answersOf, List.foldl_cons]
    split
    · next hfail =>
      rw [List.filter_cons_of_neg (by simp [hfail])]
      rw [h s c hfail] at hanswers hafter ⊢
      exact ⟨hanswers, hafter⟩
    · next hok =>
      rw [List.filter_cons_of_pos (by simp [hok]), answersOf, List.foldl_cons]
      exact ⟨congrArg _ hanswers, hafter⟩

end Answers

/-! ### Blocks in memory -/

namespace Located

variable {f : Located} {m m' : Memory} {b : BlockId}

theorem size_shape : (f.shape m).size = f.places.length := List.length_map ..

theorem isBlock_shape : (f.shape m).isBlock b = f.holds b := by
  rw [Shape.isBlock, size_shape, holds]

theorem holds_iff : f.holds b = true ↔ 0 ≤ b ∧ b.toNat < f.places.length := by
  simp only [holds, Bool.and_eq_true, decide_eq_true_eq]
  lia

/-- What is read depends on the places alone. -/
theorem read_congr (h : ∀ x ∈ f.places, m'.cell x = m.cell x) :
    f.shape m' = f.shape m ∧ f.numbers m' = f.numbers m := by
  constructor
  · exact congrArg (Shape.mk f.name) (List.map_congr_left fun x hx => by rw [h x hx])
  · exact List.map_congr_left fun x hx => by rw [h x hx]

theorem placeOf_mem (hb : f.holds b = true) : f.placeOf b ∈ f.places := by
  have hlt := (holds_iff.1 hb).2
  rw [placeOf, List.getD_eq_getElem _ _ hlt]
  exact List.getElem_mem hlt

theorem succs_shape (hb : f.holds b = true) :
    (f.shape m).succs b = (m.cell (f.placeOf b)).block.succs := by
  obtain ⟨h₀, hlt⟩ := holds_iff.1 hb
  rw [Builder.succs_eq, if_pos h₀, placeOf, List.getD_eq_getElem _ _ hlt]
  simp [shape, List.getElem?_eq_getElem hlt]

/-- **A write to the place of one block** is a write to this block of the shape. -/
theorem shape_update (hnd : f.places.Nodup) (hplaces : ∀ x ∈ f.places, x < m.cells.length)
    (hb : f.holds b = true) (g : Block → Block) :
    f.shape (m.update (f.placeOf b) g) =
        { f.shape m with blocks := (f.shape m).blocks.modify b.toNat g } ∧
      f.numbers (m.update (f.placeOf b) g) = f.numbers m := by
  have hlt := (holds_iff.1 hb).2
  have hplace := hplaces _ (placeOf_mem hb)
  constructor
  · refine congrArg (Shape.mk f.name) (List.ext_getElem? fun i => ?_)
    rw [List.getElem?_modify, List.getElem?_map]
    simp only [shape, List.getElem?_map]
    cases hi : f.places[i]? with
    | none => rfl
    | some x =>
      obtain ⟨hilt, rfl⟩ := List.getElem?_eq_some_iff.1 hi
      have heq : f.placeOf b = f.places[i] ↔ b.toNat = i := by
        rw [placeOf, List.getD_eq_getElem _ _ hlt]
        exact hnd.getElem_inj_iff
      simp only [Option.map_some, Memory.cell_update g hplace, heq]
      split <;> rfl
  · refine List.map_congr_left fun x _ => ?_
    rw [Memory.cell_update g hplace]
    split <;> rfl

end Located

/-! ### A builder over memory -/

namespace Assembly

/-- The places are in use, the blocks carry their positions, and the table has the last
block of each name. -/
structure Sound (a : Assembly) : Prop where
  nodup : a.draft.places.Nodup
  places : ∀ x ∈ a.draft.places, x < a.memory.cells.length
  names : a.draft.names < a.memory.tables.length
  numbers : a.draft.numbers a.memory = (a.draft.shape a.memory).ids
  lookup : ∀ name, a.draft.lookup a.memory name = (a.draft.shape a.memory).find? name

/-- From the one to the other only the draft and new places have been written to. -/
structure Touches (a a' : Assembly) : Prop where
  cells : a.memory.cells.length ≤ a'.memory.cells.length
  tables : a.memory.tables.length ≤ a'.memory.tables.length
  cell : ∀ x < a.memory.cells.length, x ∉ a.draft.places → a'.memory.cell x = a.memory.cell x
  table : ∀ t < a.memory.tables.length, t ≠ a.draft.names → a'.memory.table t = a.memory.table t
  places : ∀ x ∈ a'.draft.places, x ∈ a.draft.places ∨ a.memory.cells.length ≤ x
  names : a'.draft.names = a.draft.names ∨ a.memory.tables.length ≤ a'.draft.names
  name : a'.draft.name = a.draft.name

variable {a a' a'' : Assembly} {u v : BlockId}

/-! ### What a call writes to -/

namespace Touches

theorem refl (a : Assembly) : Touches a a where
  cells := Nat.le_refl _
  tables := Nat.le_refl _
  cell _ _ _ := rfl
  table _ _ _ := rfl
  places _ hx := .inl hx
  names := .inl rfl
  name := rfl

theorem trans (h : Touches a a') (h' : Touches a' a'') : Touches a a'' where
  cells := h.cells.trans h'.cells
  tables := h.tables.trans h'.tables
  cell x hx hnot := by
    rw [h'.cell x (hx.trans_le h.cells) fun hmem => ?_, h.cell x hx hnot]
    exact (h.places x hmem).elim hnot (Nat.not_le.2 hx)
  table t ht hnot := by
    rw [h'.table t (ht.trans_le h.tables) fun he => ?_, h.table t ht hnot]
    rcases h.names with hsame | hnew
    · exact hnot (he.trans hsame)
    · omega
  places x hx := by
    rcases h'.places x hx with hmem | hle
    · exact h.places x hmem
    · exact .inr (h.cells.trans hle)
  names := by
    rcases h'.names with hsame | hnew
    · rw [hsame]
      exact h.names
    · exact .inr (h.tables.trans hnew)
  name := h'.name.trans h.name

end Touches

/-- The blocks and the table lie in memory, and not in the draft. -/
structure Apart (f : Located) (a : Assembly) : Prop where
  places : ∀ x ∈ f.places, x < a.memory.cells.length ∧ x ∉ a.draft.places
  names : f.names < a.memory.tables.length ∧ f.names ≠ a.draft.names

/-- **What lies apart is not changed.** -/
theorem Apart.unchanged {f : Located} (hf : Apart f a) (h : Touches a a') :
    f.shape a'.memory = f.shape a.memory ∧ f.numbers a'.memory = f.numbers a.memory ∧
      ∀ name, f.lookup a'.memory name = f.lookup a.memory name := by
  obtain ⟨hshape, hnumbers⟩ := Located.read_congr fun x hx =>
    h.cell x (hf.places x hx).1 (hf.places x hx).2
  refine ⟨hshape, hnumbers, fun name => ?_⟩
  rw [Located.lookup, h.table _ hf.names.1 hf.names.2, Located.lookup]

/-! ### Calls -/

/-- One call has done to the assembly what another did to the builder of its value. -/
structure Follows (a a' : Assembly) (b' : Builder) : Prop where
  value : a'.value = b'
  sound : Sound a'
  touches : Touches a a'

theorem Follows.refl (ha : Sound a) : Follows a a a.value := ⟨rfl, ha, .refl a⟩

theorem follows_complain (ha : Sound a) (c : Cause) :
    Follows a (a.complain c) (a.value.complain c) := by
  -- memory and draft stay as they are
  obtain ⟨memory, draft, failure⟩ := a
  cases failure with
  | none =>
    have hrefl := Touches.refl { memory := memory, draft := draft, failure := none }
    exact ⟨rfl, ⟨ha.nodup, ha.places, ha.names, ha.numbers, ha.lookup⟩, hrefl.cells, hrefl.tables,
      hrefl.cell, hrefl.table, hrefl.places, hrefl.names, hrefl.name⟩
  | some f => exact .refl ha

theorem Follows.trans {b' b'' : Builder} (h : Follows a a' b') (h' : Follows a' a'' b'') :
    Follows a a'' b'' :=
  ⟨h'.value, h'.sound, h.touches.trans h'.touches⟩

section Put

variable (ha : Sound a) (name : String)
include ha

omit ha in
theorem cell_put_of_lt {x : Nat} (hx : x < a.memory.cells.length) :
    (a.put name).memory.cell x = a.memory.cell x := Memory.cell_append_left hx

theorem table_put (t : Nat) : (a.put name).memory.table t =
    if a.draft.names = t then (name, (a.draft.places.length : BlockId)) :: a.memory.table t
    else a.memory.table t := by
  simp only [put, Memory.table, List.getD_eq_getElem?_getD, List.getElem?_modify]
  by_cases ht : a.draft.names = t
  · subst ht
    simp [List.getElem?_eq_getElem ha.names]
  · simp [ht]

/-- The draft has one block more. -/
theorem read_put : (a.put name).draft.shape (a.put name).memory =
      { a.draft.shape a.memory with
        blocks := (a.draft.shape a.memory).blocks ++ [{ name := name }] } ∧
    (a.put name).draft.numbers (a.put name).memory =
      a.draft.numbers a.memory ++ [(a.draft.places.length : BlockId)] := by
  have hplaces : (a.put name).draft.places = a.draft.places ++ [a.memory.cells.length] := rfl
  have hnew : (a.put name).memory.cell a.memory.cells.length =
      { number := a.draft.places.length, block := { name := name } } := Memory.cell_append_length
  have hold : ∀ x ∈ a.draft.places, (a.put name).memory.cell x = a.memory.cell x := fun x hx =>
    cell_put_of_lt name (ha.places x hx)
  constructor
  · refine congrArg (Shape.mk a.draft.name) ?_
    rw [hplaces, List.map_append, List.map_singleton, hnew]
    exact congrArg (· ++ _) (List.map_congr_left fun x hx => by rw [hold x hx])
  · rw [Located.numbers, hplaces, List.map_append, List.map_singleton, hnew]
    exact congrArg (· ++ _) (List.map_congr_left fun x hx => by rw [hold x hx])

theorem sound_put : Sound (a.put name) := by
  obtain ⟨hshape, hnumbers⟩ := read_put ha name
  have hcells : (a.put name).memory.cells.length = a.memory.cells.length + 1 :=
    List.length_append.trans rfl
  have htables : (a.put name).memory.tables.length = a.memory.tables.length :=
    List.length_modify ..
  refine ⟨?_, fun x hx => ?_, htables ▸ ha.names, ?_, fun n => ?_⟩
  · refine List.nodup_append.2 ⟨ha.nodup, List.nodup_singleton _, fun x hx y hy => ?_⟩
    rw [List.mem_singleton.1 hy]
    exact (ha.places x hx).ne
  · rw [hcells]
    rcases List.mem_append.1 hx with hx | hx
    · exact (ha.places x hx).trans (Nat.lt_succ_self _)
    · rw [List.mem_singleton.1 hx]
      exact Nat.lt_succ_self _
  · rw [hnumbers, hshape, ha.numbers, ← Located.size_shape (m := a.memory)]
    simp [Shape.ids, Shape.size, List.range_succ]
  · have hnames : (a.put name).draft.names = a.draft.names := rfl
    rw [hshape, Shape.find?_snoc, ← ha.lookup, Located.size_shape, Located.lookup, hnames,
      table_put ha, if_pos rfl, List.lookup_cons]
    by_cases hn : n = name
    · simp [hn]
    · simp [Ne.symm hn, Located.lookup, beq_eq_false_iff_ne.2 hn]

theorem touches_put : Touches a (a.put name) where
  cells := List.length_append.ge.trans' (Nat.le_add_right _ _)
  tables := (List.length_modify ..).ge
  cell x hx _ := cell_put_of_lt name hx
  table t _ hne := by rw [table_put ha, if_neg (Ne.symm hne)]
  places x hx := by
    rcases List.mem_append.1 hx with hx | hx
    · exact .inl hx
    · exact .inr (List.mem_singleton.1 hx).ge
  names := .inl rfl
  name := rfl

end Put

theorem follows_newBlock (ha : Sound a) (name : String) :
    Follows a (a.newBlock name).1 (a.value.newBlock name).1 ∧
      (a.newBlock name).2 = (a.value.newBlock name).2 := by
  have hid : (a.draft.places.length : BlockId) = (a.value.draft.size : BlockId) := by
    rw [value, Located.size_shape]
  refine ⟨?_, hid⟩
  unfold newBlock Builder.newBlock
  dsimp only
  rw [← hid, ha.lookup]
  generalize (if name = "" then BlockId.label a.draft.places.length else name) = n
  change Follows a ((if (a.value.draft.find? n).isSome then _ else a).put n) _
  split
  · have hfirst := follows_complain ha (.duplicateBlock n)
    obtain ⟨hshape, -⟩ := read_put hfirst.sound n
    refine hfirst.trans ⟨?_, sound_put hfirst.sound n, touches_put hfirst.sound n⟩
    rw [value, hshape, ← hfirst.value]
    rfl
  · obtain ⟨hshape, -⟩ := read_put ha n
    refine ⟨?_, sound_put ha n, touches_put ha n⟩
    rw [value, hshape]
    rfl

theorem follows_block (ha : Sound a) (name : String) :
    Follows a (a.block name).1 (a.value.block name).1 ∧
      (a.block name).2 = (a.value.block name).2 := by
  have hfind : a.draft.lookup a.memory name = a.value.draft.find? name := ha.lookup name
  unfold block Builder.block
  rw [hfind]
  cases a.value.draft.find? name with
  | some id => exact ⟨.refl ha, rfl⟩
  | none => exact follows_newBlock ha name

theorem follows_newBlocks (ha : Sound a) (n : Nat) :
    Follows a (newBlocks n a).1 (Builder.newBlocks n a.value).1 ∧
      (newBlocks n a).2 = (Builder.newBlocks n a.value).2 := by
  induction n generalizing a with
  | zero => exact ⟨.refl ha, rfl⟩
  | succ n ih =>
    obtain ⟨hfirst, hid⟩ := follows_newBlock ha ""
    obtain ⟨hrest, hids⟩ := ih hfirst.sound
    rw [hfirst.value] at hrest hids
    exact ⟨hfirst.trans hrest, congrArg₂ _ hid hids⟩

theorem touches_update (hu : a.draft.holds u = true) (hplaces : ∀ x ∈ a.draft.places,
    x < a.memory.cells.length) (g : Block → Block) :
    Touches a { a with memory := a.memory.update (a.draft.placeOf u) g } where
  cells := (Memory.length_cells_update g).ge
  tables := Nat.le_refl _
  cell x _ hx := by
    have hplace := Located.placeOf_mem hu
    rw [Memory.cell_update g (hplaces _ hplace), if_neg]
    rintro rfl
    exact hx hplace
  table _ _ _ := rfl
  places _ hx := .inl hx
  names := .inl rfl
  name := rfl

theorem follows_link (ha : Sound a) (hu : a.draft.holds u = true) (hv : a.draft.holds v = true) :
    Follows a (a.link u v) { a.value with draft := Builder.connect a.value.draft u v } := by
  -- one end of the edge after the other
  let out : Block → Block := fun blk => { blk with succs := blk.succs ++ [v] }
  let into : Block → Block := fun blk => { blk with preds := blk.preds ++ [u] }
  let half : Assembly := { a with memory := a.memory.update (a.draft.placeOf u) out }
  have hplaces : ∀ x ∈ half.draft.places, x < half.memory.cells.length := fun x hx =>
    (Memory.length_cells_update out).symm ▸ ha.places x hx
  obtain ⟨hshape₁, hnumbers₁⟩ := Located.shape_update ha.nodup ha.places hu out
  obtain ⟨hshape₂, hnumbers₂⟩ := Located.shape_update (m := half.memory) ha.nodup hplaces hv into
  have hshape : a.draft.shape (a.link u v).memory =
      Builder.connect (a.draft.shape a.memory) u v := hshape₂.trans (by rw [hshape₁]; rfl)
  have htouches : Touches half (a.link u v) := touches_update (a := half) hv hplaces into
  refine ⟨congrArg (Builder.mk · a.failure) hshape, ⟨ha.nodup, fun x hx => ?_, ha.names, ?_,
    fun name => ?_⟩, (touches_update hu ha.places out).trans htouches⟩
  · exact (Memory.length_cells_update into).symm ▸ hplaces x hx
  · exact (hnumbers₂.trans hnumbers₁).trans
      (ha.numbers.trans (Builder.ids_connect.symm.trans (congrArg Shape.ids hshape.symm)))
  · exact (ha.lookup name).trans
      ((Shape.find?_connect u v name).symm.trans (congrArg (Shape.find? · name) hshape.symm))

theorem follows_addEdge (ha : Sound a) (u v : BlockId) :
    Follows a (a.addEdge u v) (a.value.addEdge u v) := by
  have hblock : ∀ b, a.value.draft.isBlock b = a.draft.holds b := fun b => Located.isBlock_shape
  unfold addEdge Builder.addEdge
  rw [hblock, hblock]
  cases hblocks : a.draft.holds u && a.draft.holds v with
  | false => exact follows_complain ha _
  | true =>
    obtain ⟨hu, hv⟩ := Bool.and_eq_true_iff.1 hblocks
    have hsuccs : a.value.draft.succs u = (a.memory.cell (a.draft.placeOf u)).block.succs :=
      Located.succs_shape hu
    simp only [Bool.not_true, Bool.false_eq_true, if_false, Shape.hasEdge, hsuccs,
      decide_eq_true_eq]
    split
    · exact .refl ha
    · exact follows_link ha hu hv

theorem follows_addEdgeByName (ha : Sound a) (source target : String) :
    Follows a (a.addEdgeByName source target) (a.value.addEdgeByName source target) := by
  have hfind : ∀ name, a.draft.lookup a.memory name = a.value.draft.find? name := ha.lookup
  unfold addEdgeByName Builder.addEdgeByName
  rw [hfind, hfind]
  cases a.value.draft.find? source with
  | none => exact follows_complain ha _
  | some u =>
    cases a.value.draft.find? target with
    | none => exact follows_complain ha _
    | some v => exact follows_addEdge ha u v

/-! ### Handing over -/

theorem sound_restart (a : Assembly) : Sound a.restart := by
  have htable : a.restart.memory.table a.memory.tables.length = [] := by
    simp [restart, Memory.table]
  have htables : a.restart.memory.tables.length = a.memory.tables.length + 1 :=
    List.length_append.trans rfl
  refine ⟨List.nodup_nil, fun _ hx => (List.not_mem_nil hx).elim, ?_, rfl, fun name => ?_⟩
  · rw [htables]
    exact Nat.lt_succ_self _
  · rw [Located.lookup, show a.restart.draft.names = a.memory.tables.length from rfl, htable]
    rfl

theorem table_restart {t : Nat} (ht : t < a.memory.tables.length) :
    a.restart.memory.table t = a.memory.table t := by
  simp [restart, Memory.table, List.getElem?_append_left ht]

theorem touches_restart (a : Assembly) : Touches a a.restart where
  cells := Nat.le_refl _
  tables := List.length_append.ge.trans' (Nat.le_add_right _ _)
  cell _ _ _ := rfl
  table _ ht _ := table_restart ht
  places _ hx := (List.not_mem_nil hx).elim
  names := .inr (Nat.le_refl _)
  name := rfl

theorem apart_restart (ha : Sound a) : Apart a.draft a.restart :=
  ⟨fun x hx => ⟨ha.places x hx, List.not_mem_nil⟩,
    ha.names.trans_le (touches_restart a).tables, ha.names.ne⟩

/-- A graph that is handed over has the places of the draft. -/
theorem build_eq_ok {f : HandedOver} (h : a.build.2 = .ok f) :
    a.build.1 = a.restart ∧ f.located = a.draft ∧ a.value.graph = .ok f.found := by
  unfold build at h ⊢
  cases hg : a.value.graph with
  | error e => rw [hg] at h; cases h
  | ok g => rw [hg] at h; cases h; exact ⟨rfl, rfl, rfl⟩

theorem follows_build (ha : Sound a) : Follows a a.build.1 a.value.build.1 ∧
    a.build.2.map (fun f => f.view a.build.1.memory) = a.value.build.2 := by
  unfold build Builder.build
  cases hg : a.value.graph with
  | error e => exact ⟨.refl ha, rfl⟩
  | ok g =>
    refine ⟨⟨rfl, sound_restart a, touches_restart a⟩, congrArg Except.ok ?_⟩
    obtain ⟨-, -, -, -, hmade⟩ := Builder.graph_eq_ok hg
    obtain ⟨⟨hshape, -, -⟩, -, -⟩ := Graph.ofShape_eq_ok hmade
    obtain ⟨shape, order, idom, loops, innermost⟩ := g
    cases hshape
    rfl

/-! ### Several calls -/

/-- **A call does over memory what it does to a builder**, and has the same answer. -/
theorem Sound.call (ha : Sound a) (c : Call) :
    Follows a (a.after c) (a.value.after c) ∧ a.answer c = a.value.answer c := by
  cases c with
  | newBlock name => exact (follows_newBlock ha name).imp_right (congrArg _)
  | block name => exact (follows_block ha name).imp_right (congrArg _)
  | newBlocks n => exact (follows_newBlocks ha n).imp_right (congrArg _)
  | addEdge u v => exact ⟨follows_addEdge ha u v, rfl⟩
  | addEdgeByName u v => exact ⟨follows_addEdgeByName ha u v, rfl⟩
  | build => exact (follows_build ha).imp_right (congrArg _)

theorem Sound.run (ha : Sound a) (calls : List Call) :
    Follows a (a.run calls) (a.value.run calls) ∧
      answersOf after answer a calls = answersOf Builder.after Builder.answer a.value calls := by
  induction calls generalizing a with
  | nil => exact ⟨.refl ha, rfl⟩
  | cons c calls ih =>
    obtain ⟨hcall, hanswer⟩ := ha.call c
    obtain ⟨hrun, hanswers⟩ := ih hcall.sound
    rw [hcall.value] at hrun hanswers
    exact ⟨hcall.trans hrun, congrArg₂ _ hanswer hanswers⟩

/-- **A call that fails to build changes nothing.** -/
theorem after_of_isFailure (c : Call) (h : (a.answer c).isFailure = true) : a.after c = a := by
  cases c with
  | build =>
    simp only [after, answer, build] at h ⊢
    cases hg : a.value.graph with
    | error e => rfl
    | ok g => rw [hg] at h; cases h
  | _ => cases h

theorem sound_new (name : String) : Sound (new name) :=
  ⟨List.nodup_nil, fun _ hx => (List.not_mem_nil hx).elim, Nat.one_pos, rfl, fun _ => rfl⟩

/-- **A graph that was handed over stays as it is**, and the assembly that handed it over
answers as a new one of the same name. -/
theorem Sound.handOver {f : HandedOver} (ha : Sound a) (h : a.build.2 = .ok f) (later : List Call) :
    f.located.numbers (a.build.1.run later).memory = (f.view (a.build.1.run later).memory).ids ∧
      f.view (a.build.1.run later).memory = f.view a.memory ∧
      (∀ name, f.located.lookup (a.build.1.run later).memory name =
        f.located.lookup a.memory name) ∧
      answersOf after answer a.build.1 later =
        answersOf after answer (new a.draft.name) later := by
  obtain ⟨hrestart, hlocated, hgraph⟩ := build_eq_ok h
  rw [hrestart, HandedOver.view, HandedOver.view, hlocated]
  obtain ⟨hrun, hanswers⟩ := (sound_restart a).run later
  obtain ⟨hshape, hnumbers, hlookup⟩ := (apart_restart ha).unchanged hrun.touches
  rw [hshape, hnumbers]
  refine ⟨ha.numbers, rfl, fun name => ?_, ?_⟩
  · rw [hlookup, Located.lookup, table_restart ha.names, Located.lookup]
  · have hvalue : a.restart.value = Builder.new a.draft.name :=
      congrArg (Builder.mk _) (Builder.graph_eq_ok hgraph).1
    rw [hanswers, hvalue]
    exact ((sound_new a.draft.name).run later).2.symm

/-- **Any sequence of calls.**  The blocks carry their positions, and both ends of every edge
know of it, once; without the calls that fail to build, all else is the same; and a graph
that is handed over stays as it is, while the assembly goes on as a new one of its name. -/
theorem builds_in_sequence (name : String) (calls : List Call) :
    let a := (new name).run calls
    (a.draft.numbers a.memory = a.value.draft.ids ∧ a.value.draft.WellFormed) ∧
    (a.value = (Builder.new name).run calls ∧
      answersOf after answer (new name) calls =
        answersOf Builder.after Builder.answer (Builder.new name) calls) ∧
    (answersOf after answer (new name) (kept after answer (new name) calls) =
        (answersOf after answer (new name) calls).filter (fun c => !c.isFailure) ∧
      (new name).run (kept after answer (new name) calls) = a) ∧
    ∀ before later f, calls = before ++ .build :: later →
      ((new name).run before).build.2 = .ok f →
        (f.located.numbers a.memory = (f.view a.memory).ids ∧ (f.view a.memory).WellFormed) ∧
        (f.view a.memory = f.view ((new name).run before).memory ∧
          ∀ n, f.located.lookup a.memory n = f.located.lookup ((new name).run before).memory n) ∧
        answersOf after answer ((new name).run before).build.1 later =
          answersOf after answer (new name) later := by
  have hnew := sound_new name
  have hwf : ∀ calls, ((new name).run calls).value.draft.WellFormed := fun calls => by
    rw [(hnew.run calls).1.value]
    exact Builder.wellFormed_run (Builder.wellFormed_nil name) calls
  obtain ⟨hrun, hanswers⟩ := hnew.run calls
  refine ⟨⟨hrun.sound.numbers, hwf calls⟩, ⟨hrun.value, hanswers⟩,
    answersOf_kept (fun _ => after_of_isFailure) _ calls, ?_⟩
  rintro before later f rfl hbuild
  have hsplit : (new name).run (before ++ .build :: later) =
      ((new name).run before).build.1.run later := List.foldl_append ..
  obtain ⟨hbefore, -⟩ := hnew.run before
  obtain ⟨hnumbers, hview, hlookup, hlater⟩ := hbefore.sound.handOver hbuild later
  rw [hbefore.touches.name] at hlater
  have hshape : (f.view ((new name).run before).memory).toShape =
      ((new name).run before).value.draft := by
    rw [value, ← (build_eq_ok hbuild).2.1]
    rfl
  rw [hsplit]
  refine ⟨⟨hnumbers, ?_⟩, ⟨hview, hlookup⟩, hlater⟩
  rw [hview, hshape]
  exact hwf before

/-- Two graphs one after the other; the first is not changed by the second. -/
theorem builds_in_sequence_twice :
    let first : List Call := [.newBlock "a"]
    let later : List Call := [.newBlocks 2, .addEdge 0 1, .build, .newBlock "bb0", .build]
    ∃ f, ((new "f").run first).build.2 = .ok f ∧
      f.view ((new "f").run (first ++ .build :: later)).memory =
        f.view ((new "f").run first).memory := by
  refine ⟨_, Outcome.eq_ok_get (by decide), ?_⟩
  exact ((builds_in_sequence "f" _).2.2.2 _ _ _ rfl (Outcome.eq_ok_get (by decide))).2.1.1

end Assembly
end ConstantTime
