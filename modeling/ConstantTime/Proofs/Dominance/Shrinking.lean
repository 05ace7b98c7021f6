/-
# The sets of a region settle

"Single-Path Constant-Time Transformation Engine", §5.

A sweep takes blocks away from sets and adds none, although what comes with a constant
loop is united into them: a set starts from everything, and what its predecessors make of
it stays below it, since smaller sets at the predecessors make no larger set at a block
(`refine_mono`).  So a sweep that changes anything leaves fewer members in all sets
together (`total`).  There are no more blocks than the graph has in no more sets than the
region has; with `n` blocks the limit `n * n + 1` is not met, in any region
(`exists_boundedDominators`).
-/

import ConstantTime.Proofs.Dominance.Fixpoint
import Mathlib.Algebra.GroupWithZero.Nat
import Mathlib.Algebra.Order.BigOperators.Group.List
import Mathlib.Algebra.Order.Group.Nat

namespace ConstantTime
namespace Bounded

variable {g : Graph} {constant : ConstantBounds} {inner doms doms' : DominatorTable}
  {shared shared' : BlockSet} {o : Option LoopId} {b d e h p x : BlockId} {limit : Int64}

/-- Every set of the first table is below that of the second. -/
def Below (doms doms' : DominatorTable) : Prop := ∀ b, ∀ d ∈ doms.of b, d ∈ doms'.of b

theorem Below.trans {doms'' : DominatorTable} (h : Below doms doms') (h' : Below doms' doms'') :
    Below doms doms'' := fun b d hd => h' b d (h b d hd)

theorem arrive_mono (hbelow : Below doms doms') (hshared : ∀ d ∈ shared, d ∈ shared')
    (hd : d ∈ arrive g constant inner h doms b shared p) :
    d ∈ arrive g constant inner h doms' b shared' p := by
  obtain ⟨hbefore, hcomes, hkeep⟩ := mem_arrive.1 hd
  exact mem_arrive.2 ⟨hbefore.imp_left (hshared d), hcomes.imp_right (hbelow _ d), hkeep⟩

/-- **Smaller sets at the predecessors** make no larger set at a block. -/
theorem refine_mono (hbelow : Below doms doms') (hd : d ∈ refine g constant inner h doms b) :
    d ∈ refine g constant inner h doms' b := by
  have key : ∀ (ps : List BlockId) (shared shared' : BlockSet), (∀ d ∈ shared, d ∈ shared') →
      ∀ d ∈ ps.foldl (arrive g constant inner h doms b) shared,
        d ∈ ps.foldl (arrive g constant inner h doms' b) shared' := by
    intro ps
    induction ps with
    | nil => exact fun _ _ hshared => hshared
    | cons p ps ih =>
      intro shared shared' hshared
      exact ih _ _ fun d => arrive_mono hbelow hshared
  rw [refine, OrderedSet.mem_insert] at hd ⊢
  exact hd.imp_right (key _ _ _ (hbelow b) d)

/-- What refining finds at a block was there, or comes with an inner loop. -/
theorem mem_of_refine (hd : d ∈ refine g constant inner h doms b) :
    d = b ∨ d ∈ doms.of b ∨ ∃ x, d ∈ inner.of x := by
  have key : ∀ (ps : List BlockId) (shared : BlockSet),
      ∀ d ∈ ps.foldl (arrive g constant inner h doms b) shared,
        d ∈ shared ∨ ∃ x, d ∈ inner.of x := by
    intro ps
    induction ps with
    | nil => exact fun _ _ hd => .inl hd
    | cons p ps ih =>
      intro shared d hd
      rcases ih _ d hd with hd | hd
      · refine (mem_arrive.1 hd).1.imp_right fun hbonus => ?_
        rw [bonus] at hbonus
        split at hbonus
        · exact ⟨_, hbonus⟩
        · exact absurd hbonus OrderedSet.not_mem_empty
      · exact .inr hd
  rw [refine, OrderedSet.mem_insert] at hd
  exact hd.imp_right (key _ _ d)

/-- The blocks of the region have sets, and refining any of them takes away only. -/
structure Shrinking (g : Graph) (constant : ConstantBounds) (h : BlockId)
    (inner doms : DominatorTable) : Prop where
  listed : ∀ b, (∃ s, doms.get? b = some s) ↔ b ∈ region g h
  below : ∀ b ∈ region g h, ∀ d ∈ refine g constant inner h doms b, d ∈ doms.of b

/-- **One block is refined.**  The other sets are refined from less, so they still shrink. -/
theorem Shrinking.refine (hs : Shrinking g constant h inner doms) (hb : b ∈ region g h) :
    Shrinking g constant h inner (doms.insert b (Bounded.refine g constant inner h doms b)) ∧
      Below (doms.insert b (Bounded.refine g constant inner h doms b)) doms := by
  have hbelow : Below (doms.insert b (Bounded.refine g constant inner h doms b)) doms := by
    intro x d hd
    rw [of_insert] at hd
    split at hd
    · next he => exact he ▸ hs.below b hb d hd
    · exact hd
  refine ⟨⟨fun x => ?_, fun x hx d hd => ?_⟩, hbelow⟩
  · rw [OrderedMap.get?_insert]
    split
    · next he => simp [he, hb]
    · exact hs.listed x
  · have hd := refine_mono hbelow hd
    rw [of_insert]
    split
    · next he => exact he ▸ hd
    · exact hs.below x hx d hd

theorem Shrinking.sweep {blocks : List BlockId} (hblocks : ∀ b ∈ blocks, b ∈ region g h)
    (hs : Shrinking g constant h inner doms) :
    Shrinking g constant h inner (sweep g constant inner h blocks doms) ∧
      Below (sweep g constant inner h blocks doms) doms := by
  rw [Bounded.sweep]
  induction blocks generalizing doms with
  | nil => exact ⟨hs, fun _ _ hd => hd⟩
  | cons b blocks ih =>
    obtain ⟨hone, hle⟩ := hs.refine (hblocks b List.mem_cons_self)
    obtain ⟨hrest, hle'⟩ := ih (fun x hx => hblocks x (List.mem_cons_of_mem _ hx)) hone
    exact ⟨hrest, hle'.trans hle⟩

theorem shrinking_candidates (hg : g.Checked) (hh : g.IsStart o h) (constant : ConstantBounds)
    (hinner : ∀ x, g.place x < g.place h → inner.of x = ∅) :
    Shrinking g constant h inner (candidates (OrderedSet.ofList (region g h)) inner h) := by
  have hconf := confined_candidates hg hh inner
  refine ⟨fun b => ⟨fun ⟨s, hs⟩ => ?_, fun hb => ?_⟩, fun b hb d hd => ?_⟩
  · by_contra hb
    rw [hconf.outside b hb] at hs
    cases hs
  · -- a set of everything is not the set of nothing
    have hmem : b ∈ (candidates (OrderedSet.ofList (region g h)) inner h).of b := by
      rw [mem_candidates hb]
      by_cases hbh : b = h
      · exact .inl ⟨hbh, hbh⟩
      · exact .inr ⟨hbh, .inl hb⟩
    obtain ⟨s, hs, -⟩ := DominatorTable.mem_of.1 hmem
    exact ⟨s, hs⟩
  · by_cases hbh : b = h
    · subst hbh
      rw [mem_refine_start hg hinner hconf.start hd]
      exact (mem_candidates hb).2 (.inl ⟨rfl, rfl⟩)
    · rw [mem_candidates hb]
      refine .inr ⟨hbh, ?_⟩
      rcases mem_of_refine hd with rfl | hd | hd
      · exact .inl hb
      · exact ((mem_candidates hb).1 hd).elim (fun hd => absurd hd.1 hbh) And.right
      · exact .inr hd

/-! ### How often the sets can change -/

/-- The number of members of all sets together. -/
def total (blocks : List BlockId) (doms : DominatorTable) : Nat :=
  (blocks.map fun b => (doms.of b).size).sum

theorem total_lt {blocks : List BlockId} (hbelow : Below doms doms') (hb : b ∈ blocks)
    (hne : doms.of b ≠ doms'.of b) : total blocks doms < total blocks doms' := by
  refine List.sum_lt_sum _ _ (fun x _ => OrderedSet.size_le_length (hbelow x)) ⟨b, hb, ?_⟩
  obtain ⟨d, hd, hnot⟩ : ∃ d ∈ doms'.of b, d ∉ doms.of b := by
    by_contra hall
    push Not at hall
    exact hne (OrderedSet.ext fun d => ⟨hbelow b d, hall d⟩)
  exact OrderedSet.size_lt_of_ssubset (hbelow b) hd hnot

/-- To begin with, each set holds no more than everything there is. -/
theorem total_candidates_le (g : Graph) (h : BlockId) (inner : DominatorTable) :
    let blocks := OrderedSet.ofList (region g h)
    total blocks.toList (candidates blocks inner h) ≤
      blocks.size * (inner.values.foldl OrderedSet.union blocks).size := by
  intro blocks
  refine (List.sum_le_card_nsmul _ (inner.values.foldl OrderedSet.union blocks).size ?_).trans
    (by simp [OrderedSet.size])
  rintro n hn
  obtain ⟨b, hb, rfl⟩ := List.mem_map.1 hn
  have hb : b ∈ region g h := OrderedSet.mem_ofList.1 hb
  refine OrderedSet.size_le_length fun d hd => mem_everything.2 ?_
  rw [OrderedSet.mem_ofList]
  rcases (mem_candidates hb).1 hd with ⟨rfl, rfl⟩ | ⟨-, hd⟩
  · exact .inl hb
  · exact hd

/-- Tables that list the same blocks and have the same sets are equal. -/
theorem Shrinking.eq_of_of (hs : Shrinking g constant h inner doms)
    (hs' : Shrinking g constant h inner doms')
    (heq : ∀ b ∈ region g h, doms.of b = doms'.of b) : doms = doms' := by
  refine OrderedMap.ext fun b => ?_
  by_cases hb : b ∈ region g h
  · obtain ⟨s, hb₁⟩ := (hs.listed b).2 hb
    obtain ⟨s', hb₂⟩ := (hs'.listed b).2 hb
    have := heq b hb
    rw [of_eq, of_eq, hb₁, hb₂, Option.getD_some, Option.getD_some] at this
    rw [hb₁, hb₂, this]
  · have hnone : ∀ {m : DominatorTable}, Shrinking g constant h inner m → m.get? b = none := by
      intro m hm
      by_contra hsome
      exact hb ((hm.listed b).1 (Option.ne_none_iff_exists'.1 hsome))
    rw [hnone hs, hnone hs']

/-- **The sweeps come to an end** before the members of the sets are used up. -/
theorem Shrinking.settles {blocks : List BlockId} (hblocks : ∀ b, b ∈ blocks ↔ b ∈ region g h)
    {sweeps : Nat} (hs : Shrinking g constant h inner doms) (htotal : total blocks doms < sweeps) :
    ∃ r, settle (Bounded.sweep g constant inner h blocks) sweeps doms = some r ∧ Below r doms := by
  induction sweeps generalizing doms with
  | zero => omega
  | succ sweeps ih =>
    obtain ⟨hnext, hbelow⟩ := hs.sweep fun b hb => (hblocks b).1 hb
    rw [settle]
    split
    · exact ⟨_, rfl, hbelow⟩
    · next hne =>
      obtain ⟨b, hb, hb'⟩ : ∃ b ∈ region g h,
          (Bounded.sweep g constant inner h blocks doms).of b ≠ doms.of b := by
        by_contra hall
        push Not at hall
        exact hne (hnext.eq_of_of hs hall)
      have hlt := total_lt hbelow ((hblocks b).2 hb) hb'
      obtain ⟨r, hr, hle⟩ := ih hnext (by omega)
      exact ⟨r, hr, hle.trans hbelow⟩

/-! ### Regions and runs -/

/-- All that the table lists are blocks. -/
def ListsBlocks (g : Graph) (m : DominatorTable) : Prop := ∀ b, ∀ d ∈ m.of b, d ∈ g.ids

theorem listsBlocks_latchDominators (hg : g.Checked) (hh : g.IsStart o h)
    (hinner : ListsBlocks g inner) (hdoms : ListsBlocks g doms)
    (hd : d ∈ latchDominators g constant inner doms h) : d ∈ g.ids := by
  cases o with
  | none =>
    rw [latchDominators, hg.loopOf_start hh] at hd
    exact absurd hd OrderedSet.not_mem_empty
  | some l =>
    obtain ⟨hl, rfl⟩ := hh
    obtain ⟨L, hL⟩ := Graph.exists_loop hl
    obtain ⟨y, hy⟩ := hg.retreats_header hL
    rw [← Graph.header_eq hL] at hy
    rcases latchDominators_cases hg hl hy hd with (⟨-, hd⟩ | ⟨c, -, -, hd | ⟨-, hd⟩⟩) |
      ⟨x, -, -, c, -, -, -, hd⟩
    · exact hdoms _ d hd
    · exact hdoms _ d hd
    · exact hinner _ d hd
    · exact hinner _ d hd

section Runs

variable (hg : g.Checked) (hlimit : ((g.size * g.size + 1 : Nat) : Int) ≤ limit.toInt)
include hg hlimit

/-- **No region meets the limit.** -/
theorem exists_ofRegion (hh : g.IsStart o h)
    (hinner : ∀ x, g.place x < g.place h → inner.of x = ∅) (hlists : ListsBlocks g inner) :
    ∃ m, ofRegion g constant limit h inner = .ok m ∧ ListsBlocks g m := by
  have hregion := hg.mem_ids_of_mem_region hh
  have hblocks : ∀ b, b ∈ (OrderedSet.ofList (region g h)).toList ↔ b ∈ region g h := fun b =>
    OrderedSet.mem_ofList
  have hs := shrinking_candidates hg hh constant hinner
  have hstart : ListsBlocks g (candidates (OrderedSet.ofList (region g h)) inner h) := by
    intro b d hd
    obtain ⟨s, hb, -⟩ := DominatorTable.mem_of.1 hd
    rcases (mem_candidates ((hs.listed b).1 ⟨s, hb⟩)).1 hd with ⟨-, rfl⟩ | ⟨-, hd | ⟨x, hd⟩⟩
    · exact hg.start_mem_ids hh
    · exact hregion d hd
    · exact hlists x d hd
  have hsize : ∀ s : BlockSet, (∀ d ∈ s, d ∈ g.ids) → s.size ≤ g.size := fun s hs => by
    rw [← g.length_ids]
    exact OrderedSet.size_le_length hs
  have htotal : total (OrderedSet.ofList (region g h)).toList
      (candidates (OrderedSet.ofList (region g h)) inner h) ≤ g.size * g.size := by
    refine (total_candidates_le g h inner).trans (Nat.mul_le_mul (hsize _ fun b hb => ?_)
      (hsize _ fun d hd => ?_))
    · exact hregion b (OrderedSet.mem_ofList.1 hb)
    · rcases mem_everything.1 hd with hd | ⟨x, hd⟩
      · exact hregion d (OrderedSet.mem_ofList.1 hd)
      · exact hlists x d hd
  have hrounds : g.size * g.size < limit.toInt.toNat := by omega
  obtain ⟨doms, hsettle, hbelow⟩ := hs.settles hblocks (htotal.trans_lt hrounds)
  have hdoms : ListsBlocks g doms := fun b d hd => hstart b d (hbelow b d hd)
  obtain ⟨m, hm⟩ : ∃ m, ofRegion g constant limit h inner = .ok m := by
    simp only [ofRegion, hsettle]
    exact ⟨_, rfl⟩
  refine ⟨m, hm, fun e d hd => ?_⟩
  obtain ⟨doms', hsettle', hends⟩ := ofRegion_eq_ok hm
  cases hsettle.symm.trans hsettle'
  obtain ⟨s, he, hd⟩ := DominatorTable.mem_of.1 hd
  obtain ⟨-, rfl⟩ := (hends e s).1 he
  rcases OrderedSet.mem_union.1 hd with hd | hd
  · exact hdoms e d hd
  · exact listsBlocks_latchDominators hg hh hlists hdoms hd

omit hg hlimit in
theorem exists_innerTable {analyse : BlockId → Outcome DominatorTable} {headers : List BlockId}
    (h : ∀ x ∈ headers, ∃ m, analyse x = .ok m) :
    ∃ table, innerTable analyse headers = .ok table := by
  have step : ∀ (table : Option DominatorTable), ∀ x ∈ headers, True →
      ∃ table', addInner analyse table x = .ok table' ∧ True := by
    intro table x hx _
    obtain ⟨m, hm⟩ := h x hx
    cases table with
    | none => exact ⟨none, rfl, trivial⟩
    | some table =>
      refine ⟨if m.isEmpty then none else some (table.insert x (sharedByAll m)), ?_, trivial⟩
      simp only [addInner, hm]
      rfl
  obtain ⟨table, htable, -⟩ := Outcome.exists_foldlM step trivial
  exact ⟨table, htable⟩

/-- **No run meets the limit**: the loops inside a region first, then the region. -/
theorem exists_run (constant : ConstantBounds) (fuel : Nat) (hh : g.IsStart o h) :
    ∃ m, run g constant limit fuel h = .ok m ∧ ListsBlocks g m := by
  have hempty : ListsBlocks g ∅ := fun b d hd => absurd hd OrderedSet.not_mem_empty
  induction fuel generalizing o h with
  | zero => exact ⟨∅, rfl, hempty⟩
  | succ fuel ih =>
    have hheaders : ∀ x ∈ (region g h).filter (isInner g h), ∃ l, g.IsStart (some l) x := by
      intro x hx
      obtain ⟨-, l, hl, rfl⟩ := hg.isInner_iff.1 (List.mem_filter.1 hx).2
      exact ⟨l, hl, rfl⟩
    obtain ⟨table, htable⟩ := exists_innerTable fun x hx => (hheaders x hx).elim fun l hx =>
      (ih hx).imp fun _ => And.left
    rw [run, htable]
    cases table with
    | none => exact ⟨∅, rfl, hempty⟩
    | some inner =>
      obtain ⟨hinner, hnone⟩ := foldlM_addInner htable
      refine exists_ofRegion hg hlimit hh (fun x => of_innerTable_before hg hh htable)
        fun x d hd => ?_
      by_cases hx : x ∈ (region g h).filter (isInner g h)
      · obtain ⟨l, hxl⟩ := hheaders x hx
        obtain ⟨m, hm, hne, he⟩ := hinner x hx
        obtain ⟨m', hm', hlists⟩ := ih hxl
        cases hm.symm.trans hm'
        rw [he, sharedByAll, OrderedSet.mem_interAll] at hd
        obtain ⟨s, hs⟩ := List.exists_mem_of_ne_nil _ hd.1
        obtain ⟨e, he⟩ := OrderedMap.mem_values_iff.1 hs
        exact hlists e d (DominatorTable.mem_of.2 ⟨s, he, hd.2 s hs⟩)
      · rw [hnone x hx] at hd
        exact absurd hd OrderedSet.not_mem_empty

end Runs
end Bounded

/-- **The sweeps of the bounded analysis never meet the limit.** -/
theorem exists_boundedDominators {g : Graph} {limit : Int64} (hg : g.Checked)
    (hlimit : ((g.size * g.size + 1 : Nat) : Int) ≤ limit.toInt) (constant : ConstantBounds) :
    ∃ m, g.boundedDominators constant limit g.entry = .ok m := by
  obtain ⟨m, hm, -⟩ := Bounded.exists_run (o := none) hg hlimit constant (g.loops.length + 1) rfl
  exact ⟨m, hm⟩

end ConstantTime
