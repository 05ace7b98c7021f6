/-
# The table of a region

The sweeps end when one changes nothing; then every set is what its block's
predecessors make of it.  A sweep writes the blocks of the region only, and the
start keeps the set it was given, itself: what comes over its own predecessors
comes from before the region.

`Table` collects what is known of the answer for a region from the tables of its
inner loops; `exists_table` reads it off a run.
-/

import ConstantTime.Proofs.Dominance.Merge
import ConstantTime.Proofs.Outcome

namespace ConstantTime
namespace Bounded

variable {g : Graph} {constant : ConstantBounds} {inner doms : DominatorTable}
  {o : Option LoopId} {b d e h p x : BlockId}

/-! ### Sweeps -/

theorem settle_induction {step : DominatorTable → DominatorTable} {P : DominatorTable → Prop}
    (hstep : ∀ doms, P doms → P (step doms)) {n : Nat} {r : DominatorTable} (hP : P doms)
    (h : settle step n doms = some r) : P r ∧ step r = r := by
  induction n generalizing doms with
  | zero => simp [settle] at h
  | succ n ih =>
    simp only [settle] at h
    split at h
    · next heq =>
      cases h
      exact ⟨hstep doms hP, by rw [heq, heq]⟩
    · exact ih (hstep doms hP) h

theorem of_eq (m : DominatorTable) (b : BlockId) : m.of b = (m.get? b).getD ∅ := rfl

theorem of_insert {m : DominatorTable} {s : BlockSet} :
    DominatorTable.of (m.insert b s) x = if x = b then s else m.of x := OrderedMap.getD_insert

/-- In a sweep that changes nothing every block has what it is refined to. -/
theorem of_eq_refine {blocks : List BlockId} (hnodup : blocks.Nodup)
    (h : sweep g constant inner p blocks doms = doms) (hb : b ∈ blocks) :
    doms.of b = refine g constant inner p doms b := by
  have hkeep := foldl_eq_self (fun (m : DominatorTable) b => m.get? b) hnodup
    (f := fun doms b => doms.insert b (refine g constant inner p doms b)) ?_ ?_ (s := doms) ?_ b hb
  · have := congrArg (fun m => DominatorTable.of m b) hkeep
    simp only [of_insert, if_true] at this
    exact this.symm
  · intro s k _ x _ hne
    exact (OrderedMap.get?_insert).trans (if_neg hne)
  · intro s k _ hk
    refine OrderedMap.insert_eq_self (hk.symm.trans ?_)
    exact (OrderedMap.get?_insert).trans (if_pos rfl)
  · intro k _
    exact congrArg (fun m => OrderedMap.get? m k) h

/-- Only the blocks of the region have sets, and the start has only itself. -/
structure Confined (g : Graph) (h : BlockId) (doms : DominatorTable) : Prop where
  outside : ∀ b, b ∉ region g h → doms.get? b = none
  start : ∀ d ∈ doms.of h, d = h

theorem confined_candidates (hg : g.Checked) (hh : g.IsStart o h) (inner : DominatorTable) :
    Confined g h (candidates (OrderedSet.ofList (region g h)) inner h) := by
  constructor
  · intro b hb
    have hne : b ≠ h := fun he => hb (he ▸ (hg.region_closed hh).1)
    rw [candidates, OrderedMap.get?_insert, if_neg hne, OrderedMap.ofList,
      OrderedMap.get?_insertAll_of_notMem]
    · rfl
    · rw [List.map_map]
      simpa [OrderedSet.mem_toList] using hb
  · intro d hd
    rw [candidates, of_insert, if_pos rfl] at hd
    simpa using hd

/-- What comes over the predecessors of the start adds nothing. -/
theorem mem_refine_start (hg : g.Checked)
    (hinner : ∀ x, g.place x < g.place h → inner.of x = ∅) (hs : ∀ d ∈ doms.of h, d = h)
    (hd : d ∈ refine g constant inner h doms h) : d = h := by
  have key : ∀ (ps : List BlockId) (shared : BlockSet), (∀ p ∈ ps, p ∈ outerPreds g h) →
      (∀ d ∈ shared, d = h) → ∀ d ∈ ps.foldl (arrive g constant inner h doms h) shared, d = h := by
    intro ps
    induction ps with
    | nil => exact fun _ _ hshared => hshared
    | cons p ps ih =>
      intro shared hps hshared
      refine ih _ (fun x hx => hps x (List.mem_cons_of_mem _ hx)) fun d hd => ?_
      cases hleft : leftOf g h h p with
      | none => exact hshared d (mem_arrive_of_none hleft hd).1
      | some c =>
        rcases (mem_arrive_of_some hleft hd).1 with hd | ⟨-, hd⟩
        · exact hshared d hd
        · -- The loop that is left lies before the start.
          obtain ⟨hsucc, hfwd⟩ := (mem_outerPreds hg).1 (hps p List.mem_cons_self)
          have hcp : g.Within c p := within_of_leftOf hg hleft
          have hlt : ¬ g.place h ≤ g.place p := fun hle => hfwd ⟨hsucc, hle⟩
          have := hg.place_header_le hcp
          rw [hinner (g.header c) (by omega)] at hd
          simp at hd
  rw [refine, OrderedSet.mem_insert] at hd
  rcases hd with hd | hd
  · exact hd
  · exact key _ _ (fun _ hp => hp) hs d hd

theorem Confined.sweep (hg : g.Checked)
    (hinner : ∀ x, g.place x < g.place h → inner.of x = ∅) {blocks : List BlockId}
    (hblocks : ∀ b ∈ blocks, b ∈ region g h) (hdoms : Confined g h doms) :
    Confined g h (sweep g constant inner h blocks doms) := by
  rw [Bounded.sweep]
  induction blocks generalizing doms with
  | nil => exact hdoms
  | cons b blocks ih =>
    refine ih (fun x hx => hblocks x (List.mem_cons_of_mem _ hx)) ⟨fun x hx => ?_, fun d hd => ?_⟩
    · have hne : x ≠ b := fun he => hx (he ▸ hblocks b List.mem_cons_self)
      rw [OrderedMap.get?_insert, if_neg hne]
      exact hdoms.outside x hx
    · rw [of_insert] at hd
      split at hd
      · next heq =>
        subst heq
        exact mem_refine_start hg hinner hdoms.start hd
      · exact hdoms.start d hd

/-- **Everything there is**: the blocks of the region and what is known of inner loops. -/
theorem mem_everything {blocks : BlockSet} :
    e ∈ inner.values.foldl OrderedSet.union blocks ↔ e ∈ blocks ∨ ∃ x, e ∈ inner.of x := by
  have hunion : ∀ (ss : List BlockSet) (s : BlockSet),
      e ∈ ss.foldl OrderedSet.union s ↔ e ∈ s ∨ ∃ s' ∈ ss, e ∈ s' := by
    intro ss
    induction ss with
    | nil => simp
    | cons s' ss ih =>
      intro s
      rw [List.foldl_cons, ih, OrderedSet.mem_union, List.exists_mem_cons_iff, or_assoc]
  have hvalues : (∃ s ∈ inner.values, e ∈ s) ↔ ∃ x, e ∈ inner.of x := by
    simp only [OrderedMap.mem_values_iff, DominatorTable.mem_of]
    constructor
    · rintro ⟨s, ⟨x, hx⟩, he⟩
      exact ⟨x, s, hx, he⟩
    · rintro ⟨x, s, hx, he⟩
      exact ⟨s, ⟨x, hx⟩, he⟩
  rw [hunion, hvalues]

/-- The start has itself, and every other block of the region everything. -/
theorem mem_candidates (hb : b ∈ region g h) :
    e ∈ (candidates (OrderedSet.ofList (region g h)) inner h).of b ↔
      (b = h ∧ e = h) ∨ (b ≠ h ∧ (e ∈ region g h ∨ ∃ x, e ∈ inner.of x)) := by
  rw [candidates, of_insert]
  split
  · next he => simp [he]
  · next hne =>
    have hrow : (OrderedMap.ofList ((OrderedSet.ofList (region g h)).toList.map fun b =>
        (b, inner.values.foldl OrderedSet.union (OrderedSet.ofList (region g h))))).get? b =
          some (inner.values.foldl OrderedSet.union (OrderedSet.ofList (region g h))) := by
      rw [OrderedMap.get?_ofList]
      · simpa [OrderedSet.mem_toList] using hb
      · rw [List.map_map]
        exact (List.map_id _).symm ▸ OrderedSet.nodup_toList _
    rw [of_eq, hrow, Option.getD_some, mem_everything, OrderedSet.mem_ofList]
    simp [hne]

/-! ### The tables of the inner loops -/

/-- One inner loop. -/
def addInner (analyse : BlockId → Outcome DominatorTable) (table : Option DominatorTable)
    (h : BlockId) : Outcome (Option DominatorTable) :=
  match table with
  | none => .ok none
  | some table => do
    let result ← analyse h
    return if result.isEmpty then none else some (table.insert h (sharedByAll result))

section Inner

variable {analyse : BlockId → Outcome DominatorTable} {headers : List BlockId}
  {first table : DominatorTable}

theorem foldlM_addInner_none : headers.foldlM (addInner analyse) none = .ok none := by
  induction headers with
  | nil => rfl
  | cons x xs ih =>
    rw [List.foldlM_cons]
    exact ih

theorem foldlM_addInner (h : headers.foldlM (addInner analyse) (some first) = .ok (some table)) :
    (∀ x ∈ headers, ∃ m, analyse x = .ok m ∧ m.isEmpty = false ∧ table.of x = sharedByAll m) ∧
      ∀ x ∉ headers, table.of x = first.of x := by
  induction headers generalizing first with
  | nil =>
    cases h
    simp
  | cons y ys ih =>
    rw [List.foldlM_cons] at h
    cases hy : analyse y with
    | error f =>
      have hstep : addInner analyse (some first) y = .error f := by simp only [addInner, hy]; rfl
      rw [hstep] at h
      cases h
    | ok m =>
      have hstep : addInner analyse (some first) y = .ok (if m.isEmpty then none
          else some (first.insert y (sharedByAll m))) := by simp only [addInner, hy]; rfl
      rw [hstep] at h
      have hrest : ys.foldlM (addInner analyse) (if m.isEmpty then none
          else some (first.insert y (sharedByAll m))) = .ok (some table) := h
      cases hm : m.isEmpty with
      | true =>
        rw [hm, if_pos rfl, foldlM_addInner_none] at hrest
        cases hrest
      | false =>
        rw [hm, if_neg Bool.false_ne_true] at hrest
        obtain ⟨h₁, h₂⟩ := ih hrest
        refine ⟨fun x hx => ?_, fun x hx => ?_⟩
        · by_cases hxs : x ∈ ys
          · exact h₁ x hxs
          · obtain rfl : x = y := by simpa [hxs] using hx
            exact ⟨m, hy, hm, by rw [h₂ x hxs, of_insert, if_pos rfl]⟩
        · rw [List.mem_cons, not_or] at hx
          rw [h₂ x hx.2, of_insert, if_neg hx.1]

/-- No loop before the start is inside. -/
theorem notMem_inner_before (hg : g.Checked) (hh : g.IsStart o h)
    (hx : g.place x < g.place h) : x ∉ (region g h).filter (isInner g h) := by
  intro hmem
  have := hg.place_region hh (List.mem_filter.1 hmem).1
  omega

/-- Nothing is known of a loop before the start. -/
theorem of_innerTable_before (hg : g.Checked) (hh : g.IsStart o h)
    (htable : innerTable analyse ((region g h).filter (isInner g h)) = .ok (some inner))
    (hx : g.place x < g.place h) : inner.of x = ∅ :=
  (foldlM_addInner htable).2 x (notMem_inner_before hg hh hx)

/-- There is no table if an inner loop has no answer. -/
theorem exists_isEmpty_of_addInner (h : headers.foldlM (addInner analyse) (some first) = .ok none) :
    ∃ x ∈ headers, ∃ m, analyse x = .ok m ∧ m.isEmpty = true := by
  induction headers generalizing first with
  | nil => cases h
  | cons y ys ih =>
    obtain ⟨table, hy, hrest⟩ := Outcome.bind_eq_ok.1 ((List.foldlM_cons ..).symm.trans h)
    obtain ⟨m, hm, htable⟩ := Outcome.bind_eq_ok.1 hy
    rw [Outcome.pure_eq_ok] at htable
    cases hempty : m.isEmpty with
    | true => exact ⟨y, List.mem_cons_self, m, hm, hempty⟩
    | false =>
      rw [hempty, if_neg Bool.false_ne_true] at htable
      obtain ⟨x, hx, hxm⟩ := ih (htable ▸ hrest)
      exact ⟨x, List.mem_cons_of_mem _ hx, hxm⟩

end Inner

/-- **What a region is answered from**: a table of sets that the predecessors
confirm, and the ends with their sets. -/
structure Confirmed (g : Graph) (constant : ConstantBounds) (h : BlockId)
    (inner doms m : DominatorTable) : Prop where
  start : ∀ d ∈ doms.of h, d = h
  refined : ∀ b d, d ∈ doms.of b → b ∈ region g h ∧ d ∈ refine g constant inner h doms b
  ends : ∀ e s, m.get? e = some s ↔ e ∈ (region g h).flatMap (endsAt g h) ∧
    s = (doms.of e).union (latchDominators g constant inner doms h)

/-- The answer for a region is read off the sets that the sweeps end with. -/
theorem ofRegion_eq_ok {limit : Int64} {m : DominatorTable}
    (hm : ofRegion g constant limit h inner = .ok m) :
    ∃ doms, settle (sweep g constant inner h (OrderedSet.ofList (region g h)).toList)
        limit.toInt.toNat (candidates (OrderedSet.ofList (region g h)) inner h) = some doms ∧
      ∀ e s, m.get? e = some s ↔ e ∈ (region g h).flatMap (endsAt g h) ∧
        s = (doms.of e).union (latchDominators g constant inner doms h) := by
  simp only [ofRegion] at hm
  split at hm
  · cases hm
  · next doms hsettle =>
    cases hm
    refine ⟨doms, hsettle, fun e s => ?_⟩
    rw [OrderedMap.get?_ofList]
    · simp only [List.mem_map, Prod.mk.injEq, OrderedSet.mem_toList, OrderedSet.mem_ofList]
      constructor
      · rintro ⟨x, hx, rfl, rfl⟩
        exact ⟨hx, rfl⟩
      · rintro ⟨he, rfl⟩
        exact ⟨e, he, rfl, rfl⟩
    · rw [List.map_map]
      exact (List.map_id _).symm ▸ OrderedSet.nodup_toList _

theorem exists_confirmed (hg : g.Checked) (hh : g.IsStart o h) {limit : Int64} {m : DominatorTable}
    (hinner : ∀ x, g.place x < g.place h → inner.of x = ∅)
    (hm : ofRegion g constant limit h inner = .ok m) :
    ∃ doms, Confirmed g constant h inner doms m := by
  have hblocks : ∀ b, b ∈ (OrderedSet.ofList (region g h)).toList ↔ b ∈ region g h := fun b =>
    OrderedSet.mem_ofList
  obtain ⟨doms, hsettle, hends⟩ := ofRegion_eq_ok hm
  obtain ⟨hconf, hfix⟩ := settle_induction
    (fun doms hdoms => Confined.sweep hg hinner (fun b hb => (hblocks b).1 hb) hdoms)
    (confined_candidates hg hh inner) hsettle
  refine ⟨doms, hconf.start, fun b d hd => ?_, hends⟩
  have hb : b ∈ region g h := by
    by_contra hb
    rw [of_eq, hconf.outside b hb] at hd
    simp at hd
  refine ⟨hb, ?_⟩
  rw [← of_eq_refine (OrderedSet.nodup_toList _) hfix ((hblocks b).2 hb)]
  exact hd

/-- **The answer for a region**, with the answers for its inner loops. -/
structure Table (g : Graph) (constant : ConstantBounds) (limit : Int64) (fuel : Nat)
    (h : BlockId) (inner doms m : DominatorTable) : Prop
    extends Confirmed g constant h inner doms m where
  analysed : ∀ x d, d ∈ inner.of x →
    ∃ r, run g constant limit fuel x = .ok r ∧ r.isEmpty = false ∧ d ∈ sharedByAll r

/-- What a run that answers has found: the inner loops with what their ends share,
and from these the answer. -/
structure Answered (g : Graph) (constant : ConstantBounds) (limit : Int64) (fuel : Nat)
    (h : BlockId) (inner m : DominatorTable) : Prop where
  analysed : ∀ x ∈ (region g h).filter (isInner g h),
    ∃ r, run g constant limit fuel x = .ok r ∧ r.isEmpty = false ∧ inner.of x = sharedByAll r
  other : ∀ x ∉ (region g h).filter (isInner g h), inner.of x = ∅
  result : ofRegion g constant limit h inner = .ok m

theorem exists_answered {limit : Int64} {fuel : Nat} {m : DominatorTable}
    (hrun : run g constant limit fuel h = .ok m) (hm : m.isEmpty = false) :
    ∃ fuel' inner, fuel = fuel' + 1 ∧ Answered g constant limit fuel' h inner m := by
  have hempty : (∅ : DominatorTable).isEmpty = true := rfl
  cases fuel with
  | zero =>
    cases hrun
    rw [hempty] at hm
    cases hm
  | succ fuel =>
    obtain ⟨table, htable, hrest⟩ := Outcome.bind_eq_ok.1 hrun
    cases table with
    | none =>
      cases hrest
      rw [hempty] at hm
      cases hm
    | some inner =>
      obtain ⟨hinner, hnone⟩ := foldlM_addInner htable
      exact ⟨fuel, inner, rfl, hinner, hnone, hrest⟩

/-- Nothing is known of a loop before the start. -/
theorem Answered.before (hg : g.Checked) (hh : g.IsStart o h) {limit : Int64} {fuel : Nat}
    {m : DominatorTable} (ha : Answered g constant limit fuel h inner m)
    (hx : g.place x < g.place h) : inner.of x = ∅ :=
  ha.other x (notMem_inner_before hg hh hx)

/-- The loops directly inside have been analysed. -/
theorem Answered.analysed_child (hg : g.Checked) (hh : g.IsStart o h) {limit : Int64} {fuel : Nat}
    {m : DominatorTable} {c : LoopId} (ha : Answered g constant limit fuel h inner m)
    (hc : g.IsChild o c) : ∃ r, run g constant limit fuel (g.header c) = .ok r ∧
      r.isEmpty = false ∧ inner.of (g.header c) = sharedByAll r :=
  ha.analysed (g.header c) (List.mem_filter.2
    ⟨hg.mem_region_of_isNode hh (hg.header_ids hc.1) (.inr ⟨c, hc, rfl⟩),
      hg.isInner_header hc.1 (hg.header_child_ne hh hc)⟩)

/-- **A run that answers has such a table.** -/
theorem exists_table (hg : g.Checked) (hh : g.IsStart o h) {limit : Int64} {fuel : Nat}
    {m : DominatorTable} (hrun : run g constant limit fuel h = .ok m) (hm : m.isEmpty = false) :
    ∃ fuel' inner doms, fuel = fuel' + 1 ∧ Table g constant limit fuel' h inner doms m := by
  obtain ⟨fuel, inner, rfl, ha⟩ := exists_answered hrun hm
  obtain ⟨doms, hconf⟩ := exists_confirmed hg hh (fun x => ha.before hg hh) ha.result
  refine ⟨fuel, inner, doms, rfl, hconf, fun x d hd => ?_⟩
  by_cases hx : x ∈ (region g h).filter (isInner g h)
  · obtain ⟨r, hr, hne, he⟩ := ha.analysed x hx
    exact ⟨r, hr, hne, he ▸ hd⟩
  · rw [ha.other x hx] at hd
    exact absurd hd OrderedSet.not_mem_empty

end Bounded
end ConstantTime
