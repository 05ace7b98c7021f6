/-
# The way up from a loop

A loop is one deeper than its parent, so the loops around a block have the
depths 1, 2, … and each is found by its depth (`Checked.ancestorAt_eq_some`,
`Checked.outermostInner_eq_some`).  `loopsAround` climbs from parent to parent
(`Checked.isChain_loopsAround`); the loops that an edge leaves are the first of
them (`Checked.loopsAround_split`).

The other way round, `innerFirst` walks down from the outermost loops and lists
every loop once (`Checked.mem_innerFirst`, `Checked.nodup_innerFirst`).
-/

import ConstantTime.Proofs.Graph.Nesting

namespace ConstantTime

namespace Graph

variable {g : Graph} {l : LoopId}

theorem climb_succ (h : l < g.loops.length) (depth : Int) (fuel : Nat) :
    g.climb depth (fuel + 1) l =
      if depth < g.loopDepth (some l) then (g.parent (some l)).bind (g.climb depth fuel)
      else some l := by
  obtain ⟨L, hL⟩ := exists_loop h
  rw [climb, hL]
  simp [loopDepth, parent, hL]

theorem isChain_withAncestors (g : Graph) (fuel : Nat) (o : Option LoopId) :
    (g.withAncestors fuel o).IsChain fun l m => g.parent (some l) = some m := by
  induction fuel generalizing o with
  | zero => exact .nil
  | succ fuel ih =>
    cases o with
    | none => exact .nil
    | some l =>
      rw [withAncestors]
      refine List.isChain_cons.2 ⟨fun m hm => ?_, ih _⟩
      cases hp : g.parent (some l) with
      | none => cases fuel <;> simp [hp, withAncestors] at hm
      | some p =>
        cases fuel with
        | zero => simp [withAncestors] at hm
        | succ fuel =>
          rw [hp, withAncestors, List.head?_cons, Option.mem_some_iff] at hm
          rw [hm]

/-- **The loops around a block go from parent to parent.** -/
theorem isChain_loopsAround (g : Graph) (b : BlockId) :
    (g.loopsAround b).IsChain fun l m => g.parent (some l) = some m :=
  isChain_withAncestors ..

theorem head?_loopsAround (g : Graph) (b : BlockId) : (g.loopsAround b).head? = g.loopOf b := by
  unfold loopsAround
  cases g.loopOf b <;> rfl

theorem filter_append_of_pairwise {r : LoopId → LoopId → Prop} (keep : LoopId → Bool)
    {ls : List LoopId} (h : ls.Pairwise r)
    (hr : ∀ l m, r l m → keep l = false → keep m = false) :
    ∃ rest, ls = ls.filter keep ++ rest ∧ ∀ l ∈ rest, keep l = false := by
  induction ls with
  | nil => exact ⟨[], rfl, by simp⟩
  | cons l ls ih =>
    obtain ⟨hl, hls⟩ := List.pairwise_cons.1 h
    cases hk : keep l with
    | true =>
      obtain ⟨rest, he, hrest⟩ := ih hls
      exact ⟨rest, by rw [List.filter_cons_of_pos hk, List.cons_append, ← he], hrest⟩
    | false =>
      have hall : ∀ m ∈ l :: ls, keep m = false := by
        intro m hm
        rcases List.mem_cons.1 hm with rfl | hm
        · exact hk
        · exact hr l m (hl m hm) hk
      refine ⟨l :: ls, ?_, hall⟩
      rw [List.filter_eq_nil_iff.2 fun m hm => by simp [hall m hm], List.nil_append]

theorem mem_topLoops : l ∈ g.topLoops ↔ l < g.loops.length ∧ g.parent (some l) = none := by
  rw [topLoops, List.mem_filter, List.mem_range]
  refine and_congr_right fun h => ?_
  obtain ⟨L, hL⟩ := exists_loop h
  simp [parent, hL]

end Graph

namespace Graph.Checked

variable {g : Graph} (hg : g.Checked) {l m p q : LoopId} {b u v x : BlockId}
include hg

theorem parent_lt (h : l < g.loops.length) (hp : g.parent (some l) = some p) :
    p < g.loops.length := lt_of_within (hg.parent_eq_some h hp).2.1

theorem loopDepth_parent (h : l < g.loops.length) (hp : g.parent (some l) = some p) :
    g.loopDepth (some l) = g.loopDepth (some p) + 1 := by
  rw [hg.loopDepth_eq h, hg.loopDepth_eq (hg.parent_lt h hp),
    (hg.around_header_perm h hp).length_eq, List.length_cons]

theorem loopDepth_pos (h : l < g.loops.length) : 0 < g.loopDepth (some l) := by
  rw [hg.loopDepth_eq h]
  exact List.length_pos_of_mem (mem_around.2 (hg.within_header h))

theorem loopDepth_le (h : l < g.loops.length) : g.loopDepth (some l) ≤ g.loops.length := by
  rw [hg.loopDepth_eq h]
  exact (List.length_filter_le ..).trans (Nat.le_of_eq List.length_range)

theorem loopDepth_of_parent_none (h : l < g.loops.length) (hp : g.parent (some l) = none) :
    g.loopDepth (some l) = 1 := by
  rw [hg.loopDepth_eq h, hg.around_header_of_parent_none h hp, List.length_singleton]

theorem loopDepth_le_of_within (hl : l < g.loops.length) (h : g.Within m (g.header l)) :
    g.loopDepth (some m) ≤ g.loopDepth (some l) := by
  by_cases he : m = l
  · rw [he]
  · exact Nat.le_of_lt (hg.loopDepth_lt h hl he)

/-- Two loops around a loop of the same depth are the same. -/
theorem eq_of_loopDepth_eq (h : g.Within m b) (h' : g.Within l b)
    (hd : g.loopDepth (some m) = g.loopDepth (some l)) : m = l := by
  by_contra hne
  rcases hg.within_header_or h h' with hw | hw
  · exact absurd hd (Nat.ne_of_lt (hg.loopDepth_lt hw (lt_of_within h') hne))
  · exact absurd hd.symm (Nat.ne_of_lt (hg.loopDepth_lt hw (lt_of_within h) (Ne.symm hne)))

/-! ### Ancestors by depth -/

theorem climb_eq {fuel : Nat} (hl : l < g.loops.length) (h : g.Within m (g.header l))
    (hf : g.loopDepth (some l) < g.loopDepth (some m) + fuel) :
    g.climb (g.loopDepth (some m)) fuel l = some m := by
  induction fuel generalizing l with
  | zero => exact absurd hf (Nat.not_lt.2 (hg.loopDepth_le_of_within hl h))
  | succ fuel ih =>
    rw [climb_succ hl]
    by_cases he : m = l
    · rw [if_neg (by rw [he]; omega), he]
    · have hlt := hg.loopDepth_lt h hl he
      rw [if_pos (by omega)]
      -- the loop lies strictly inside `m`, so it has a parent, which lies inside `m`
      cases hp : g.parent (some l) with
      | none => exact absurd (hg.parent_eq_none hl hp h) he
      | some p =>
        have hd := hg.loopDepth_parent hl hp
        exact ih (hg.parent_lt hl hp) ((hg.parent_eq_some hl hp).2.2 m he h) (by omega)

theorem ancestorAt_eq (hl : l < g.loops.length) (h : g.Within m (g.header l)) :
    g.ancestorAt (some l) (g.loopDepth (some m)) = some m := by
  have hle := hg.loopDepth_le hl
  rw [ancestorAt, Option.bind_some, hg.climb_eq hl h (by omega)]
  obtain ⟨M, hM⟩ := exists_loop (lt_of_within h)
  simp [Option.filter, loopDepth, hM]

theorem climb_eq_some {fuel : Nat} {depth : Int} (hl : l < g.loops.length)
    (h : g.climb depth fuel l = some m) : g.Within m (g.header l) := by
  induction fuel generalizing l with
  | zero => cases h
  | succ fuel ih =>
    rw [climb_succ hl] at h
    split at h
    · obtain ⟨p, hp, hm⟩ := Option.bind_eq_some_iff.1 h
      exact hg.within_trans (ih (hg.parent_lt hl hp) hm) (hg.parent_eq_some hl hp).2.1
    · cases h
      exact hg.within_header hl

/-- **The loop of a depth around a loop.** -/
theorem ancestorAt_eq_some {depth : Int} (hl : l < g.loops.length) :
    g.ancestorAt (some l) depth = some m ↔
      g.Within m (g.header l) ∧ (g.loopDepth (some m) : Int) = depth := by
  constructor
  · intro h
    rw [ancestorAt, Option.bind_some, Option.filter_eq_some_iff] at h
    have hw := hg.climb_eq_some hl h.1
    obtain ⟨M, hM⟩ := exists_loop (lt_of_within hw)
    exact ⟨hw, by simpa [hM, loopDepth] using h.2⟩
  · rintro ⟨hw, rfl⟩
    exact hg.ancestorAt_eq hl hw

/-- **The loop directly inside a loop (or the function) that holds a block.** -/
theorem outermostInner_eq_some {o : Option LoopId} (ho : ∀ l, o = some l → l < g.loops.length) :
    g.outermostInner o b = some m ↔ g.Within m b ∧ g.parent (some m) = o := by
  unfold outermostInner
  cases hb : g.loopOf b with
  | none => simp [hg.loopOf_eq_none.1 hb m]
  | some i =>
    obtain ⟨hib, hmin⟩ := hg.loopOf_eq_some.1 hb
    have hi := lt_of_within hib
    have hpar : ∀ (hm : m < g.loops.length), g.parent (some m) = o →
        (g.loopDepth (some m) : Int) = g.loopDepth o + 1 := by
      rintro hm rfl
      cases hp : g.parent (some m) with
      | none => rw [hg.loopDepth_of_parent_none hm hp]; simp [loopDepth]
      | some p => rw [hg.loopDepth_parent hm hp]; simp
    dsimp only
    split
    · next he =>
      -- nothing lies between a block and its innermost loop
      subst he
      simp only [reduceCtorEq, false_iff, not_and]
      intro hmb hp
      have hm := lt_of_within hmb
      obtain ⟨hne, hw, -⟩ := hg.parent_eq_some hm hp
      exact hne (hg.within_antisymm hw (hmin m hmb))
    · rw [Option.filter_eq_some_iff, hg.ancestorAt_eq_some hi, decide_eq_true_eq]
      constructor
      · rintro ⟨⟨hw, -⟩, hp⟩
        exact ⟨hg.within_trans hw hib, hp⟩
      · rintro ⟨hmb, hp⟩
        exact ⟨⟨hmin m hmb, hpar (lt_of_within hmb) hp⟩, hp⟩

/-! ### The chain of loops around a block -/

/-- **An edge leaves the innermost loops first.** -/
theorem loopsAround_split (u v : BlockId) :
    ∃ rest, g.loopsAround u = g.loopsLeft u v ++ rest ∧
      ∀ l ∈ rest, g.Within l u ∧ g.Within l v := by
  obtain ⟨rest, he, hrest⟩ := filter_append_of_pairwise (fun l => !g.contains (some l) v)
    (hg.pairwise_loopsAround u) fun l m hw hl => by
      rw [contains_eq, Bool.not_eq_false', decide_eq_true_eq] at hl ⊢
      exact hg.within_trans hw hl
  refine ⟨rest, he, fun l hl => ⟨?_, by simpa [contains_eq] using hrest l hl⟩⟩
  exact hg.mem_loopsAround.1 (he ▸ List.mem_append_right _ hl)

/-! ### All loops, inner ones first -/

theorem children_eq {L : Loop} (h : g.loop? l = some L) :
    L.children = (List.range g.loops.length).filter fun m => g.parent (some m) = some l := by
  rw [loop?, hg.loops_eq_nest, Loops.nest, List.getElem?_map, List.getElem?_zipIdx, Option.map_map,
    Option.map_eq_some_iff] at h
  obtain ⟨b, -, rfl⟩ := h
  simp only [Function.comp_apply, hg.parents_getElem?, hg.unplaced_length, Nat.zero_add]

theorem loopsBelow_succ (h : l < g.loops.length) (fuel : Nat) : g.loopsBelow (fuel + 1) l =
    ((List.range g.loops.length).filter fun m => g.parent (some m) = some l).flatMap
      (g.loopsBelow fuel) ++ [l] := by
  obtain ⟨L, hL⟩ := exists_loop h
  rw [loopsBelow, hL, Option.map_some, Option.getD_some, hg.children_eq hL]

theorem within_of_mem_loopsBelow {fuel : Nat} (hl : l < g.loops.length)
    (hm : m ∈ g.loopsBelow fuel l) : g.Within l (g.header m) := by
  induction fuel generalizing l with
  | zero =>
    rw [loopsBelow, List.mem_singleton] at hm
    rw [hm]
    exact hg.within_header hl
  | succ fuel ih =>
    rw [hg.loopsBelow_succ hl, List.mem_append, List.mem_flatMap] at hm
    rcases hm with ⟨c, hc, hm⟩ | hm
    · rw [List.mem_filter, List.mem_range, decide_eq_true_eq] at hc
      exact hg.within_trans (hg.parent_eq_some hc.1 hc.2).2.1 (ih hc.1 hm)
    · rw [List.mem_singleton.1 hm]
      exact hg.within_header hl

theorem lt_of_mem_loopsBelow {fuel : Nat} (hl : l < g.loops.length)
    (hm : m ∈ g.loopsBelow fuel l) : m < g.loops.length := by
  induction fuel generalizing l with
  | zero =>
    rw [loopsBelow, List.mem_singleton] at hm
    rwa [hm]
  | succ fuel ih =>
    rw [hg.loopsBelow_succ hl, List.mem_append, List.mem_flatMap] at hm
    rcases hm with ⟨c, hc, hm⟩ | hm
    · rw [List.mem_filter, List.mem_range] at hc
      exact ih hc.1 hm
    · rwa [List.mem_singleton.1 hm]

/-- Loops with the same parent share no block. -/
theorem eq_of_parent_eq (hm : m < g.loops.length) (hq : q < g.loops.length)
    (hp : g.parent (some m) = g.parent (some q)) (h : g.Within m b) (h' : g.Within q b) :
    m = q := by
  refine hg.eq_of_loopDepth_eq h h' ?_
  cases hpq : g.parent (some q) with
  | none =>
    rw [hg.loopDepth_of_parent_none hm (hp.trans hpq), hg.loopDepth_of_parent_none hq hpq]
  | some p => rw [hg.loopDepth_parent hm (hp.trans hpq), hg.loopDepth_parent hq hpq]

theorem pairwise_flatMap_loopsBelow {fuel : Nat} {ls : List LoopId} (hls : ls.Nodup)
    (hlt : ∀ l ∈ ls, l < g.loops.length)
    (hpar : ∀ l ∈ ls, ∀ m ∈ ls, g.parent (some l) = g.parent (some m))
    (h : ∀ l ∈ ls, (g.loopsBelow fuel l).Pairwise fun x y => ¬ g.Within x (g.header y)) :
    (ls.flatMap (g.loopsBelow fuel)).Pairwise fun x y => ¬ g.Within x (g.header y) := by
  refine List.pairwise_flatMap.2 ⟨h, ?_⟩
  refine hls.imp_of_mem fun {l m} hl hm hne x hx y hy hxy => hne ?_
  exact hg.eq_of_parent_eq (hlt l hl) (hlt m hm) (hpar l hl m hm)
    (hg.within_trans (hg.within_of_mem_loopsBelow (hlt l hl) hx) hxy)
    (hg.within_of_mem_loopsBelow (hlt m hm) hy)

theorem pairwise_loopsBelow {fuel : Nat} (hl : l < g.loops.length) :
    (g.loopsBelow fuel l).Pairwise fun x y => ¬ g.Within x (g.header y) := by
  induction fuel generalizing l with
  | zero => exact List.pairwise_singleton _ l
  | succ fuel ih =>
    have hmem : ∀ c ∈ (List.range g.loops.length).filter (fun m => g.parent (some m) = some l),
        c < g.loops.length ∧ g.parent (some c) = some l := by
      intro c hc
      simpa using hc
    rw [hg.loopsBelow_succ hl]
    refine List.pairwise_append.2 ⟨?_, List.pairwise_singleton _ l, ?_⟩
    · refine hg.pairwise_flatMap_loopsBelow (List.nodup_range.filter _) (fun c hc => (hmem c hc).1)
        (fun c hc d hd => ?_) fun c hc => ih (hmem c hc).1
      rw [(hmem c hc).2, (hmem d hd).2]
    · intro x hx y hy hxy
      rw [List.mem_singleton.1 hy] at hxy
      obtain ⟨c, hc, hxc⟩ := List.mem_flatMap.1 hx
      obtain ⟨hlt, hp⟩ := hmem c hc
      obtain ⟨hne, hw, -⟩ := hg.parent_eq_some hlt hp
      exact hne (hg.within_antisymm hw
        (hg.within_trans (hg.within_of_mem_loopsBelow hlt hxc) hxy))

/-- **No loop is listed before one inside it.** -/
theorem pairwise_innerFirst : g.innerFirst.Pairwise fun x y => ¬ g.Within x (g.header y) :=
  hg.pairwise_flatMap_loopsBelow (List.nodup_range.filter _) (fun _ h => (mem_topLoops.1 h).1)
    (fun l hl m hm => by rw [(mem_topLoops.1 hl).2, (mem_topLoops.1 hm).2])
    fun _ h => hg.pairwise_loopsBelow (mem_topLoops.1 h).1

theorem lt_of_mem_innerFirst (hl : l ∈ g.innerFirst) : l < g.loops.length := by
  obtain ⟨t, ht, hlt⟩ := List.mem_flatMap.1 hl
  exact hg.lt_of_mem_loopsBelow (mem_topLoops.1 ht).1 hlt

theorem nodup_innerFirst : g.innerFirst.Nodup := by
  refine hg.pairwise_innerFirst.imp_of_mem fun {l m} hl _ hlm he => hlm ?_
  exact he ▸ hg.within_header (hg.lt_of_mem_innerFirst hl)

/-- Between a loop and one around it lies a child of the latter. -/
theorem exists_child (hm : m < g.loops.length) (h : g.Within l (g.header m)) (hne : l ≠ m) :
    ∃ c, g.parent (some c) = some l ∧ g.Within c (g.header m) := by
  induction hn : g.loopDepth (some m) generalizing m with
  | zero => exact absurd hn (Nat.ne_of_gt (hg.loopDepth_pos hm))
  | succ n ih =>
    cases hp : g.parent (some m) with
    | none => exact absurd (hg.parent_eq_none hm hp h) hne
    | some p =>
      have hd := hg.loopDepth_parent hm hp
      obtain ⟨-, hw, hmin⟩ := hg.parent_eq_some hm hp
      by_cases he : l = p
      · exact ⟨m, by rw [hp, he], hg.within_header hm⟩
      · obtain ⟨c, hc, hcw⟩ := ih (hg.parent_lt hm hp) (hmin l hne h) he (by omega)
        exact ⟨c, hc, hg.within_trans hcw hw⟩

theorem exists_top (hm : m < g.loops.length) :
    ∃ t, g.parent (some t) = none ∧ g.Within t (g.header m) := by
  induction hn : g.loopDepth (some m) generalizing m with
  | zero => exact absurd hn (Nat.ne_of_gt (hg.loopDepth_pos hm))
  | succ n ih =>
    cases hp : g.parent (some m) with
    | none => exact ⟨m, hp, hg.within_header hm⟩
    | some p =>
      have hd := hg.loopDepth_parent hm hp
      obtain ⟨t, ht, htw⟩ := ih (hg.parent_lt hm hp) (by omega)
      exact ⟨t, ht, hg.within_trans htw (hg.parent_eq_some hm hp).2.1⟩

theorem mem_loopsBelow {fuel : Nat} (hm : m < g.loops.length) (h : g.Within l (g.header m))
    (hf : g.loopDepth (some m) ≤ g.loopDepth (some l) + fuel) : m ∈ g.loopsBelow fuel l := by
  have hl := lt_of_within h
  induction fuel generalizing l with
  | zero =>
    rw [loopsBelow, List.mem_singleton]
    by_contra hne
    have := hg.loopDepth_lt h hm (Ne.symm hne)
    omega
  | succ fuel ih =>
    rw [hg.loopsBelow_succ hl, List.mem_append, List.mem_flatMap]
    by_cases he : l = m
    · exact .inr (by simp [he])
    · obtain ⟨c, hc, hcw⟩ := hg.exists_child hm h he
      have hlt := lt_of_within hcw
      have hd := hg.loopDepth_parent hlt hc
      exact .inl ⟨c, by simpa using ⟨hlt, hc⟩, ih hcw (by omega) hlt⟩

/-- **Every loop is listed.** -/
theorem mem_innerFirst (hm : m < g.loops.length) : m ∈ g.innerFirst := by
  obtain ⟨t, ht, htw⟩ := hg.exists_top hm
  refine List.mem_flatMap.2 ⟨t, mem_topLoops.2 ⟨lt_of_within htw, ht⟩, ?_⟩
  have := hg.loopDepth_le hm
  exact hg.mem_loopsBelow hm htw (by omega)

end Graph.Checked
end ConstantTime
