/-
# The rounds of the access analysis come to an end

"Single-Path Constant-Time Transformation Engine", §5.

Blocks and loops are cells that are treated in turn (`turns_round`).  A block needs the
blocks before it and the loops that are left on the way from them; a loop needs what
arrives before it, its blocks and the loops inside it.  None needs itself: inner loops come
before outer ones, and inside a loop a block after those before it (`region_induction`).
So there are no more rounds that change anything than blocks and loops, and with `n` blocks
there are at most `n - 1` loops (`exists_ofGraph`).

When nothing changes any more, every block has been reached: what arrives over each edge
into it is known, and so is every way out of every loop (`exists_total`).
-/

import ConstantTime.Proofs.Access.Settled
import ConstantTime.Proofs.Turns

namespace ConstantTime
namespace AccessAnalysis

variable {g : Graph} {count : AccessCounts} {bound : LoopBounds} {a a' : AccessAnalysis}
  {b p x : BlockId} {c l m : LoopId} {limit : Int64}

/-- What the analysis holds a value for: a block or a loop. -/
abbrev Cell := BlockId ⊕ LoopId

/-- The value of a block or of a loop. -/
def look (g : Graph) (a : AccessAnalysis) : Cell → Option (AccessRange ⊕ LoopAccesses)
  | .inl b => (a.blocks.get? b).map .inl
  | .inr l => (a.loops.get? (g.header l)).map .inr

/-- Takes a block or a loop into account. -/
def addCell (g : Graph) (count : AccessCounts) (bound : LoopBounds) (a : AccessAnalysis) :
    Cell → AccessAnalysis
  | .inl b => a.addBlock g count b
  | .inr l => a.addLoop g bound l

/-- What is made of a block or a loop, if it can be yet. -/
def made (g : Graph) (count : AccessCounts) (bound : LoopBounds) (a : AccessAnalysis) :
    Cell → Option (AccessRange ⊕ LoopAccesses)
  | .inl b => (a.upTo g count b).map .inl
  | .inr l => ((g.loop? l).bind (a.ofLoop g bound l)).map .inr

/-- What arrives over an edge is made of its source and of the loops that it leaves. -/
inductive Arrives (g : Graph) (p b : BlockId) : Cell → Prop
  | source : Arrives g p b (.inl p)
  | left {m : LoopId} (hp : g.Within m p) (hb : ¬ g.Within m b) : Arrives g p b (.inr m)

/-- What a block or a loop is made of. -/
inductive Needs (g : Graph) : Cell → Cell → Prop
  /-- A block where the count does not start afresh: what arrives at it. -/
  | block {b p : BlockId} {d : Cell} (hh : g.isHeader b = false) (hs : b ∈ g.succs p)
    (hd : Arrives g p b d) : Needs g (.inl b) d
  /-- A loop: what arrives from outside, … -/
  | before {m : LoopId} {p : BlockId} {d : Cell} (hs : g.header m ∈ g.succs p)
    (hout : ¬ g.Within m p) (hd : Arrives g p (g.header m) d) : Needs g (.inr m) d
  /-- … its blocks, … -/
  | within {m : LoopId} {x : BlockId} (hx : g.Within m x) : Needs g (.inr m) (.inl x)
  /-- … and the loops inside it. -/
  | inside {m c : LoopId} (hc : c < g.loops.length) (hm : g.Within m (g.header c)) (hne : c ≠ m) :
    Needs g (.inr m) (.inr c)

/-- All blocks, then all loops, in the order of a round. -/
def cells (g : Graph) : List Cell := g.order.map .inl ++ g.innerFirst.map .inr

theorem mem_cells_block : Sum.inl b ∈ cells g ↔ b ∈ g.order := by simp [cells]

theorem mem_cells_loop : Sum.inr l ∈ cells g ↔ l ∈ g.innerFirst := by simp [cells]

theorem round_eq (a : AccessAnalysis) :
    AccessAnalysis.round g count bound a = oneRound (addCell g count bound) (cells g) a := by
  rw [AccessAnalysis.round, oneRound, cells, List.foldl_append, List.foldl_map, List.foldl_map]
  rfl

/-! ### Agreement -/

/-- Two analyses have the same value. -/
def Same (g : Graph) (a a' : AccessAnalysis) (d : Cell) : Prop := look g a' d = look g a d

theorem same_block : Same g a a' (.inl b) ↔ a'.blocks.get? b = a.blocks.get? b :=
  (Option.map_injective Sum.inl_injective).eq_iff

theorem same_loop : Same g a a' (.inr l) ↔
    a'.loops.get? (g.header l) = a.loops.get? (g.header l) :=
  (Option.map_injective Sum.inr_injective).eq_iff

section Agreement

variable (hg : g.Checked)
include hg

theorem arriving_congr (h : ∀ d, Arrives g p b d → Same g a a' d) :
    a'.arriving g p b = a.arriving g p b := by
  unfold arriving
  cases hlast : (g.loopsLeft p b).getLast? with
  | none => exact same_block.1 (h _ .source)
  | some l =>
    obtain ⟨hp, hb⟩ := hg.mem_loopsLeft.1 (List.mem_of_getLast? hlast)
    have hsame : a'.loops.get? (g.headerOf (some l)) = a.loops.get? (g.headerOf (some l)) :=
      same_loop.1 (h _ (.left hp hb))
    dsimp only
    rw [hsame]

theorem arrivingFrom_congr {ps : List BlockId}
    (h : ∀ p ∈ ps, ∀ d, Arrives g p b d → Same g a a' d) :
    a'.arrivingFrom g b ps = a.arrivingFrom g b ps := by
  unfold arrivingFrom
  congr 1
  exact List.filterMap_congr fun p hp => arriving_congr hg (h p hp)

theorem upTo_congr (h : ∀ d, Needs g (.inl b) d → Same g a a' d) :
    a'.upTo g count b = a.upTo g count b := by
  unfold upTo
  dsimp only
  split
  · rfl
  · next hstart =>
    have hh : g.isHeader b = false := by
      rw [Bool.or_eq_true, not_or] at hstart
      exact Bool.eq_false_iff.2 hstart.2
    rw [arrivingFrom_congr hg fun p hp d hd =>
      h d (.block hh (hg.wellFormed.mem_preds_iff.1 hp) hd)]

theorem within_congr (h : ∀ d, Needs g (.inr m) d → Same g a a' d) (hx : g.Within m x) :
    a'.within g m x = a.within g m x := by
  rcases hg.level_or_child (o := some m) hx with hlevel | ⟨c, hc, hcx⟩
  · rw [Graph.Checked.within_of_level hlevel, Graph.Checked.within_of_level hlevel]
    exact same_block.1 (h _ (.within hx))
  · obtain ⟨hne, hw, -⟩ := hg.parent_eq_some hc.1 hc.2
    rw [hg.within_of_child hc hcx, hg.within_of_child hc hcx,
      same_loop.1 (h _ (.inside hc.1 hw hne.symm))]

theorem ofLoop_congr {L : Loop} (hL : g.loop? m = some L)
    (h : ∀ d, Needs g (.inr m) d → Same g a a' d) :
    a'.ofLoop g bound m L = a.ofLoop g bound m L := by
  have hm : m < g.loops.length := (List.getElem?_eq_some_iff.1 hL).1
  have hbefore : a'.beforeLoop g L = a.beforeLoop g L := by
    unfold beforeLoop
    split
    · rfl
    · next ways _ =>
      refine arrivingFrom_congr hg fun p hp d hd => ?_
      obtain ⟨hp, hout⟩ := List.mem_filter.1 hp
      rw [← Graph.header_eq hL] at hp hd
      refine h d (.before (hg.wellFormed.mem_preds_iff.1 hp) (fun hin => ?_) hd)
      rw [Graph.within_iff_mem hL] at hin
      simp [Loop.contains, hin] at hout
  have hlatches : L.latches.filterMap (a'.within g m) = L.latches.filterMap (a.within g m) := by
    refine List.filterMap_congr fun x hx => within_congr hg h ?_
    exact hg.within_of_retreats hm (Graph.header_eq hL ▸ (hg.mem_latches hL).1 hx)
  have hexits : ∀ f : BlockId → AccessRange → BlockId × AccessRange,
      (L.exiting.filterMap fun b => (a'.within g m b).map (f b)) =
        L.exiting.filterMap fun b => (a.within g m b).map (f b) := fun f =>
    List.filterMap_congr fun b hb => by rw [within_congr hg h ((hg.mem_exiting hL).1 hb).1]
  simp only [ofLoop, hbefore, hlatches, hexits]

/-- **What is made of a block or a loop** depends on what it needs. -/
theorem made_congr {k : Cell} (h : ∀ d, Needs g k d → Same g a a' d) :
    made g count bound a' k = made g count bound a k := by
  cases k with
  | inl b => rw [made, made, upTo_congr hg h]
  | inr l =>
    unfold made
    dsimp only
    cases hL : g.loop? l with
    | none => rfl
    | some L => rw [Option.bind_some, Option.bind_some, ofLoop_congr hg hL h]

end Agreement

/-! ### Treating blocks and loops -/

theorem look_addCell_self (a : AccessAnalysis) (k : Cell) :
    look g (addCell g count bound a k) k = (made g count bound a k).or (look g a k) := by
  cases k with
  | inl b =>
    unfold addCell addBlock made look
    dsimp only
    cases a.upTo g count b with
    | none => rfl
    | some r => simp
  | inr l =>
    unfold addCell addLoop made look
    dsimp only
    cases hL : g.loop? l with
    | none => rfl
    | some L =>
      cases hR : a.ofLoop g bound l L with
      | none => simp [hR]
      | some R => simp [hR, Graph.header_eq hL]

theorem look_addCell_of_ne (hg : g.Checked) {k d : Cell} (hk : k ∈ cells g) (hd : d ∈ cells g)
    (hne : d ≠ k) : look g (addCell g count bound a k) d = look g a d := by
  cases k with
  | inl b =>
    cases d with
    | inl b' => exact same_block.2 (addBlock_get? fun he => hne (congrArg _ he))
    | inr l => exact same_loop.2 (congrArg (OrderedMap.get? · _) (addBlock_loops b))
  | inr l =>
    cases d with
    | inl b => exact same_block.2 (congrArg (OrderedMap.get? · _) (addLoop_blocks l))
    | inr l' =>
      refine same_loop.2 (addLoop_get? fun he => hne (congrArg _ (hg.header_inj ?_ ?_ he)))
      · exact hg.lt_of_mem_innerFirst (mem_cells_loop.1 hd)
      · exact hg.lt_of_mem_innerFirst (mem_cells_loop.1 hk)

theorem addCell_eq_self {k : Cell} (h : look g (addCell g count bound a k) k = look g a k) :
    addCell g count bound a k = a := by
  cases k with
  | inl b => exact addBlock_eq_self (same_block.1 h)
  | inr l => exact addLoop_eq_self (same_loop.1 h)

theorem mem_cells_of_needs (hg : g.Checked) {k d : Cell} (hd : Needs g k d) : d ∈ cells g := by
  have harrives : ∀ {p b d}, b ∈ g.succs p → Arrives g p b d → d ∈ cells g := by
    rintro p b d hs (- | ⟨hp, -⟩)
    · exact mem_cells_block.2 (hg.mem_order_iff.2 (Shape.mem_ids_of_mem_succs hs))
    · exact mem_cells_loop.2 (hg.mem_innerFirst (Graph.lt_of_within hp))
  cases hd with
  | block _ hs hd => exact harrives hs hd
  | before hs _ hd => exact harrives hs hd
  | within hx => exact mem_cells_block.2 (hg.mem_order_iff.2 (hg.mem_ids_of_within hx))
  | inside hc => exact mem_cells_loop.2 (hg.mem_innerFirst hc)

/-- **Blocks and loops are treated in turn.** -/
theorem turns_round (hg : g.Checked) (count : AccessCounts) (bound : LoopBounds) :
    Turns (look g) (addCell g count bound) (made g count bound) (Needs g) (cells g) where
  nodup := by
    refine List.nodup_append.2 ⟨hg.nodup_order.map Sum.inl_injective,
      hg.nodup_innerFirst.map Sum.inr_injective, fun k hk d hd hkd => ?_⟩
    obtain ⟨b, -, rfl⟩ := List.mem_map.1 hk
    obtain ⟨l, -, rfl⟩ := List.mem_map.1 hd
    cases hkd
  own a k _ := look_addCell_self a k
  frame a k hk d hd hne := look_addCell_of_ne hg hk hd hne
  same a k _ h := addCell_eq_self h
  value_congr a a' k _ h := made_congr hg h
  listed k _ d hd := mem_cells_of_needs hg hd
  induction P step := by
    have hall := hg.region_induction (B := fun b => P (.inl b)) (L := fun l => P (.inr l))
      (fun b hb harrives => step _ (mem_cells_block.2 (hg.mem_order_iff.2 hb)) fun d hd => by
        cases hd with
        | block hh hs hd =>
          cases hd with
          | source => exact (harrives hh _ hs).1
          | left hp hout => exact (harrives hh _ hs).2 _ hp hout)
      (fun m hm harrives hblocks hloops =>
        step _ (mem_cells_loop.2 (hg.mem_innerFirst hm)) fun d hd => by
          cases hd with
          | before hs hout hd =>
            cases hd with
            | source => exact (harrives _ hs hout).1
            | left hp hb => exact (harrives _ hs hout).2 _ hp hb
          | within hx => exact hblocks _ hx
          | inside hc hw hne => exact hloops _ hc hw hne)
      none
    intro k hk
    cases k with
    | inl b => exact hall.1 b (hg.mem_order_iff.1 (mem_cells_block.1 hk)) fun _ h => by cases h
    | inr l =>
      exact hall.2 l ⟨hg.lt_of_mem_innerFirst (mem_cells_loop.1 hk), fun _ h => by cases h⟩

/-! ### How many rounds there are -/

/-- A function has fewer loops than blocks: the entry heads none. -/
theorem length_loops_lt (hg : g.Checked) : g.loops.length < g.size := by
  have hnodup : (g.entry :: (List.range g.loops.length).map g.header).Nodup := by
    refine List.nodup_cons.2 ⟨fun he => ?_, List.Nodup.map_on (fun l hl m hm he => ?_)
      List.nodup_range⟩
    · obtain ⟨l, hl, he⟩ := List.mem_map.1 he
      exact hg.not_within_entry l (he ▸ hg.within_header (List.mem_range.1 hl))
    · exact hg.header_inj (List.mem_range.1 hl) (List.mem_range.1 hm) he
  have hblocks : g.entry :: (List.range g.loops.length).map g.header ⊆ g.ids := by
    intro b hb
    rcases List.mem_cons.1 hb with rfl | hb
    · exact hg.entry_mem
    · obtain ⟨l, hl, rfl⟩ := List.mem_map.1 hb
      exact hg.header_ids (List.mem_range.1 hl)
  have hlen := hnodup.length_le_of_subset hblocks
  rw [g.length_ids, List.length_cons, List.length_map, List.length_range] at hlen
  exact hlen

theorem length_cells_le (hg : g.Checked) : (cells g).length ≤ g.size * g.size := by
  have horder : g.order.length ≤ g.size := by
    rw [← g.length_ids]
    exact hg.nodup_order.length_le_of_subset fun b => hg.mem_order_iff.1
  have hloops : g.innerFirst.length ≤ g.loops.length := by
    rw [← List.length_range (n := g.loops.length)]
    exact hg.nodup_innerFirst.length_le_of_subset fun l hl =>
      List.mem_range.2 (hg.lt_of_mem_innerFirst hl)
  have hlt := length_loops_lt hg
  rw [cells, List.length_append, List.length_map, List.length_map]
  obtain ⟨n, hn⟩ : ∃ n, g.size = n + 1 := ⟨g.size - 1, by omega⟩
  have hsquare : g.size * g.size = n * n + n + n + 1 := by
    rw [hn, Nat.add_mul, Nat.mul_add, Nat.mul_one, Nat.one_mul]
    omega
  omega

theorem exists_settle {step : AccessAnalysis → AccessAnalysis} {n : Nat}
    (hfix : step^[n + 1] a = step^[n] a) {rounds : Nat} (hn : n < rounds) :
    ∃ r, settle step rounds a = some r := by
  induction rounds generalizing n a with
  | zero => omega
  | succ rounds ih =>
    rw [settle]
    split
    · exact ⟨_, rfl⟩
    · next hne =>
      cases n with
      | zero => exact absurd hfix hne
      | succ n => exact ih hfix (by omega)

/-- **The rounds never meet the limit.** -/
theorem exists_ofGraph (hg : g.Checked)
    (hsquare : ((g.size * g.size + 1 : Nat) : Int) ≤ limit.toInt) (count : AccessCounts)
    (bound : LoopBounds) : ∃ a, ofGraph g count bound limit = .ok a := by
  obtain ⟨n, hn, hfix⟩ := (turns_round hg count bound).exists_fixed {}
  have hround : AccessAnalysis.round g count bound = oneRound (addCell g count bound) (cells g) :=
    funext round_eq
  have hlen := length_cells_le hg
  obtain ⟨a, ha⟩ : ∃ a, settle (AccessAnalysis.round g count bound) limit.toInt.toNat {} = some a :=
    exists_settle (hround ▸ hfix) (by omega)
  unfold ofGraph
  rw [ha]
  exact ⟨a, rfl⟩

/-! ### Nothing is missing in the end -/

/-- The loop has a value, and so has every way out of it. -/
def LoopListed (g : Graph) (a : AccessAnalysis) (m : LoopId) : Prop :=
  ∃ L R, g.loop? m = some L ∧ a.loops.get? L.header = some R ∧
    ∀ b ∈ L.exiting, ∃ r, R.exits.get? b = some r

section Listed

variable (hg : g.Checked)
include hg

theorem exists_arriving (hs : b ∈ g.succs p) (hp : ∃ r, a.blocks.get? p = some r)
    (hloop : ∀ m, g.Within m p → ¬ g.Within m b → LoopListed g a m) :
    ∃ r, a.arriving g p b = some r := by
  unfold arriving
  cases hlast : (g.loopsLeft p b).getLast? with
  | none => exact hp
  | some m =>
    obtain ⟨hmp, hmb⟩ := hg.mem_loopsLeft.1 (List.mem_of_getLast? hlast)
    obtain ⟨L, R, hL, hR, hexit⟩ := hloop m hmp hmb
    obtain ⟨r, hr⟩ := hexit p ((hg.mem_exiting hL).2 ⟨hmp, b, hs, hmb⟩)
    have hheader : g.headerOf (some m) = L.header := Graph.header_eq hL
    refine ⟨r, ?_⟩
    dsimp only
    rw [hheader, hR]
    exact hr

/-- A block that leads out of the loops inside is seen from a loop around it. -/
theorem exists_within (hx : g.Within l x) (hknown : ∃ r, a.blocks.get? x = some r)
    (hloop : ∀ c < g.loops.length, g.Within l (g.header c) → c ≠ l → LoopListed g a c)
    (hout : ∃ s ∈ g.succs x, ∀ c, g.Within c x → g.Within l (g.header c) → c ≠ l →
      ¬ g.Within c s) : ∃ r, a.within g l x = some r := by
  rcases hg.level_or_child (o := some l) hx with hlevel | ⟨c, hc, hcx⟩
  · rw [Graph.Checked.within_of_level hlevel]
    exact hknown
  obtain ⟨hne, hw, -⟩ := hg.parent_eq_some hc.1 hc.2
  obtain ⟨L, R, hL, hR, hexit⟩ := hloop c hc.1 hw hne.symm
  obtain ⟨s, hs, hsout⟩ := hout
  obtain ⟨r, hr⟩ := hexit x ((hg.mem_exiting hL).2 ⟨hcx, s, hs, hsout c hcx hw hne.symm⟩)
  obtain ⟨t, ht, -⟩ := AccessRange.joinAll_closed (P := fun _ => True) (fun _ _ _ _ => trivial)
    (List.ne_nil_of_mem (OrderedMap.mem_values_of_get? hr)) fun _ _ => trivial
  refine ⟨t, ?_⟩
  rw [hg.within_of_child hc hcx, Graph.header_eq hL, hR]
  exact ht

/-- **Every block has a value** when a round changes nothing any more. -/
theorem exists_block (hset : a.Settled g count bound) (hb : b ∈ g.ids) :
    ∃ r, a.blocks.get? b = some r := by
  have htrue : AccessRange.JoinClosed fun _ => True := fun _ _ _ _ => trivial
  refine (hg.region_induction (B := fun b => ∃ r, a.blocks.get? b = some r)
    (L := fun m => LoopListed g a m) (fun b hb harrive => ?_)
    (fun m hm harrive hblocks hloops => ?_) none).1 b hb fun _ h => by cases h
  · have harrives : b ≠ g.entry → g.isHeader b = false →
        ∀ p ∈ g.preds b, ∃ r, a.arriving g p b = some r ∧ True := by
      intro _ hh p hp
      have hs := hg.wellFormed.mem_preds_iff.1 hp
      obtain ⟨hknown, hleft⟩ := harrive hh p hs
      exact (exists_arriving hg hs hknown hleft).imp fun _ hr => ⟨hr, trivial⟩
    rcases hg.block_of_arriving hset htrue hb harrives with ⟨-, hr⟩ | ⟨-, r, -, -, hr⟩
    · exact ⟨_, hr⟩
    · exact ⟨_, hr⟩
  · obtain ⟨L, hL⟩ := Graph.exists_loop hm
    obtain ⟨R, hR⟩ := hg.loop_of_within hset htrue htrue hL
      (fun p hp hout => by
        obtain ⟨hknown, hleft⟩ := harrive p hp hout
        exact (exists_arriving hg hp hknown hleft).imp fun _ hr => ⟨hr, trivial⟩)
      (fun x hx hs => by
        obtain ⟨s, hs, hsout⟩ := hs
        refine (exists_within hg hx (hblocks x hx) hloops
          ⟨s, hs, fun c _ hmc hne hcs => ?_⟩).imp fun _ hr => ⟨hr, trivial⟩
        rcases hsout with rfl | hsout
        · exact hne (hg.within_antisymm hcs hmc)
        · exact hsout (hg.within_trans hmc hcs))
    exact ⟨L, R, hL, hR.accesses, fun b hb => (hR.exit b hb).elim fun _ h => ⟨_, h.2.2⟩⟩

/-- **The accesses of a whole execution** are known of every function with one end. -/
theorem exists_total {e : BlockId} (hend : g.end? = some e)
    (ha : ofGraph g count bound limit = .ok a) (rootLike : Bool) :
    ∃ r, a.total g rootLike = .ok r := by
  obtain ⟨r, hr⟩ := exists_block hg (hg.settled_ofGraph ha) (Shape.end?_eq_some hend).1
  unfold total
  rw [hend]
  dsimp only
  rw [hr]
  exact ⟨_, rfl⟩

end Listed
end AccessAnalysis
end ConstantTime
