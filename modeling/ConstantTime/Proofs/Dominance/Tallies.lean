/-
# How tallies come about

The tally of a node of a region is what the edges into it agree on, with the node
itself.  Over an edge comes what is known at its source; if the source is an inner
loop with a constant bound, also what that loop contributes when it is left
(`leaving`).

The work on a region goes on until no node is queued.  A node is queued whenever
its tally is written, so at the end every edge has been followed with the last
tally of its source: the tally of its target holds nothing but the target and what
the edge brings (`Drained.flows`).  The start is in every tally, so no tally is
empty and taken for unwritten (`Drained.own`).
-/

import ConstantTime.Dominance.ConstantLoop
import ConstantTime.Proofs.Graph.Closure
import ConstantTime.Proofs.Graph.Passes

namespace ConstantTime

/-! ### Tallies as maps -/

namespace Tally

variable {a b t : Tally} {ts : List Tally} {d : BlockId} {v : Visits}

theorem get?_meet : (a.meet b).get? d = some v ↔ a.get? d = some v ∧ b.get? d = some v := by
  rw [meet, OrderedMap.get?_filterKeys, decide_eq_true_eq]
  constructor
  · rintro ⟨ha, he⟩
    exact ⟨ha, he ▸ ha⟩
  · rintro ⟨ha, hb⟩
    exact ⟨ha, ha.trans hb.symm⟩

theorem get?_updatedBy : (a.updatedBy b).get? d = (b.get? d).or (a.get? d) :=
  OrderedMap.get?_insertAll_entries

theorem get?_updatedBy_eq_some : (a.updatedBy b).get? d = some v ↔
    b.get? d = some v ∨ b.get? d = none ∧ a.get? d = some v := by
  rw [get?_updatedBy, Option.or_eq_some_iff]

/-- What all tallies of a list agree on. -/
theorem get?_meetAll : (meetAll ts).get? d = some v ↔ ts ≠ [] ∧ ∀ t ∈ ts, t.get? d = some v := by
  have key : ∀ (rest : List Tally) (t : Tally), (rest.foldl meet t).get? d = some v ↔
      t.get? d = some v ∧ ∀ t' ∈ rest, t'.get? d = some v := by
    intro rest
    induction rest with
    | nil => simp
    | cons t' rest ih =>
      intro t
      rw [List.foldl_cons, ih, get?_meet, List.forall_mem_cons, and_assoc]
  cases ts with
  | nil => simp [meetAll]
  | cons t rest => simp [meetAll, key]

theorem mem_blocks : d ∈ t.blocks ↔ ∃ v, t.get? d = some v := by
  rw [blocks, OrderedSet.mem_ofList, OrderedMap.mem_keys_iff, Option.isSome_iff_exists]

end Tally

namespace ConstantLoop

variable {g : Graph} {constant : ConstantBounds} {known : Regions}
  {exits : BlockId → BlockId → Tally} {T : OrderedMap BlockId Tally} {o : Option LoopId}
  {c l : LoopId} {current d h n s u x y : BlockId} {v : Visits} {w w' : Work}

/-! ### What leaving a node contributes -/

/-- What is known on leaving the node `n` for `y`, given the tallies of the nodes
and what inner loops contribute. -/
def leaving (g : Graph) (constant : ConstantBounds) (exits : BlockId → BlockId → Tally)
    (T : OrderedMap BlockId Tally) (h n y : BlockId) : Tally :=
  if n ≠ h && g.isHeader n && constant n then (T.getD n ∅).updatedBy (exits n y) else T.getD n ∅

theorem leaving_insert {new : Tally} (hns : n ≠ s) :
    leaving g constant exits (T.insert s new) h n y = leaving g constant exits T h n y := by
  rw [leaving, leaving, OrderedMap.getD_insert, if_neg hns]

theorem leaving_of_level (hg : g.Checked) (hh : g.IsStart o h) (hn : g.loopOf n = o) :
    leaving g constant exits T h n y = T.getD n ∅ := by
  unfold leaving
  by_cases hne : n = h
  · rw [if_neg (by simp [hne])]
  · rw [if_neg (by simp [Graph.isHeader, hg.headedBy_of_level hh hn hne])]

theorem leaving_of_child (hg : g.Checked) (hh : g.IsStart o h) (hc : g.IsChild o c) :
    leaving g constant exits T h (g.header c) y =
      if constant (g.header c) then (T.getD (g.header c) ∅).updatedBy (exits (g.header c) y)
      else T.getD (g.header c) ∅ := by
  have hne := hg.header_child_ne hh hc
  unfold leaving
  simp [hne, Graph.isHeader, hg.headedBy_header hc.1]

/-- What a block of a loop contributes is what its node contributes. -/
theorem contribution_eq (hg : g.Checked) (hx : g.Within l x) :
    contribution g constant known exits (g.header l) x y =
      leaving g constant exits (nodesOf known (g.header l)) (g.header l)
        (g.nodeIn (some l) x) y := by
  have hl := Graph.lt_of_within hx
  have hh : g.IsStart (some l) (g.header l) := ⟨hl, rfl⟩
  unfold contribution
  rw [hg.depth_header hl, hg.headedBy_header hl]
  rcases hg.level_or_child (o := some l) hx with hlevel | ⟨c, hc, hcx⟩
  · rw [if_pos (Graph.Checked.depth_of_level hlevel), Graph.Checked.nodeIn_of_level hlevel,
      leaving_of_level hg hh hlevel]
  · have hdeep : g.depth x ≠ g.loopDepth (some l) := by
      have h₁ := hg.loopDepth_le_depth hcx
      have h₂ := hg.loopDepth_child hc
      omega
    rw [if_neg hdeep, hg.regionNode_of_child hc hcx, hg.nodeIn_of_child hc hcx,
      leaving_of_child hg hh hc]

/-- The tallies hold blocks of the region only. -/
def Local (g : Graph) (o : Option LoopId) (T : OrderedMap BlockId Tally) : Prop :=
  ∀ u t, T.get? u = some t → ∀ d v, t.get? d = some v → g.Inside o d

/-- What an inner loop contributes is in that loop. -/
def ExitsLocal (g : Graph) (exits : BlockId → BlockId → Tally) : Prop :=
  ∀ l < g.loops.length, ∀ y d v, (exits (g.header l) y).get? d = some v → g.Within l d

theorem get?_getD_empty (h : (T.getD n ∅).get? d = some v) :
    ∃ t, T.get? n = some t ∧ t.get? d = some v := by
  unfold OrderedMap.getD at h
  cases hn : T.get? n with
  | none =>
    rw [hn, Option.getD_none] at h
    simp at h
  | some t =>
    rw [hn, Option.getD_some] at h
    exact ⟨t, rfl, h⟩

theorem leaving_inside (hg : g.Checked) (hh : g.IsStart o h) (hT : Local g o T)
    (hexits : ExitsLocal g exits) (hn : g.IsNode o n)
    (hd : (leaving g constant exits T h n y).get? d = some v) : g.Inside o d := by
  have hnode : ∀ {d v}, (T.getD n ∅).get? d = some v → g.Inside o d := fun hd => by
    obtain ⟨t, ht, hd⟩ := get?_getD_empty hd
    exact hT n t ht _ _ hd
  rcases hn with hlevel | ⟨c, hc, rfl⟩
  · rw [leaving_of_level hg hh hlevel] at hd
    exact hnode hd
  · rw [leaving_of_child hg hh hc] at hd
    split at hd
    · rcases Tally.get?_updatedBy_eq_some.1 hd with hd | ⟨-, hd⟩
      · exact hg.inside_of_child hc (hexits c hc.1 y d v hd)
      · exact hnode hd
    · exact hnode hd

/-- The start stays in a tally when a node is left. -/
theorem leaving_start (hg : g.Checked) (hh : g.IsStart o h) (hexits : ExitsLocal g exits)
    (hn : g.IsNode o n) {t : Tally} (ht : T.get? n = some t) (hown : t.get? h = some .once) :
    (leaving g constant exits T h n y).get? h = some .once := by
  have hnode : (T.getD n ∅).get? h = some .once := by
    rw [OrderedMap.getD, ht]
    exact hown
  rcases hn with hlevel | ⟨c, hc, rfl⟩
  · rwa [leaving_of_level hg hh hlevel]
  · rw [leaving_of_child hg hh hc]
    split
    · refine Tally.get?_updatedBy_eq_some.2 (.inr ⟨?_, hnode⟩)
      by_contra hsome
      obtain ⟨v, hv⟩ := Option.ne_none_iff_exists'.1 hsome
      exact hg.start_not_in_child hh hc (hexits c hc.1 y h v hv)
    · exact hnode

/-- The header of an inner loop without a constant bound does not come from a node
whose tally does not hold it. -/
theorem leaving_variable (hg : g.Checked) (hh : g.IsStart o h) (hexits : ExitsLocal g exits)
    (hn : g.IsNode o n) (hc : g.IsChild o c) (hconst : constant (g.header c) = false)
    (hT : ∀ t, T.get? n = some t → t.get? (g.header c) = none) :
    (leaving g constant exits T h n y).get? (g.header c) = none := by
  have hnode : (T.getD n ∅).get? (g.header c) = none := by
    by_contra hsome
    obtain ⟨v, hv⟩ := Option.ne_none_iff_exists'.1 hsome
    obtain ⟨t, ht, hv⟩ := get?_getD_empty hv
    rw [hT t ht] at hv
    cases hv
  rcases hn with hlevel | ⟨c', hc', rfl⟩
  · rwa [leaving_of_level hg hh hlevel]
  · rw [leaving_of_child hg hh hc']
    split
    · next hconst' =>
      rw [Tally.get?_updatedBy, hnode, Option.or_none]
      by_contra hsome
      obtain ⟨v, hv⟩ := Option.ne_none_iff_exists'.1 hsome
      -- another loop holds no header of this one
      have hin := hexits c' hc'.1 y _ v hv
      rw [hg.child_unique hc hc' (hg.within_header hc.1) hin, hconst'] at hconst
      cases hconst
    · exact hnode

/-! ### What a loop contributes -/

theorem mem_sourcesOf (hg : g.Checked) (hl : l < g.loops.length) :
    x ∈ sourcesOf g (g.header l) y ↔ g.Within l x ∧ y ∈ g.succs x ∧ ¬ g.Within l y := by
  obtain ⟨L, hL⟩ := Graph.exists_loop hl
  simp only [sourcesOf, hg.headedBy_header hl, Option.bind_some, hL, List.mem_map, List.mem_filter,
    decide_eq_true_eq]
  constructor
  · rintro ⟨⟨x, t⟩, ⟨he, rfl⟩, rfl⟩
    exact (hg.mem_exits hL).1 he
  · intro hx
    exact ⟨⟨x, y⟩, ⟨(hg.mem_exits hL).2 hx, rfl⟩, rfl⟩

/-- A full round: what all ways back to the header agree on. -/
theorem get?_roundTally (hg : g.Checked) (hl : l < g.loops.length) :
    (roundTally g constant known exits (g.header l)).get? d = some v ↔
      ∀ x, g.Retreats x (g.header l) →
        (leaving g constant exits (nodesOf known (g.header l)) (g.header l)
          (g.nodeIn (some l) x) (g.header l)).get? d = some v := by
  obtain ⟨L, hL⟩ := Graph.exists_loop hl
  have hlatch : ∀ x, x ∈ L.latches ↔ g.Retreats x (g.header l) := fun x => by
    rw [hg.mem_latches hL, Graph.header_eq hL]
  simp only [roundTally, hg.headedBy_header hl, Option.bind_some, hL, Tally.get?_meetAll,
    List.forall_mem_map, hlatch]
  constructor
  · rintro ⟨-, hall⟩ x hx
    rw [← contribution_eq hg (hg.within_of_retreats hl hx)]
    exact hall x hx
  · intro hall
    obtain ⟨u, hu⟩ := hg.retreats_header hL
    refine ⟨?_, fun x hx => ?_⟩
    · rw [ne_eq, List.map_eq_nil_iff]
      exact List.ne_nil_of_mem ((hlatch u).2 (by rwa [Graph.header_eq hL]))
    · rw [contribution_eq hg (hg.within_of_retreats hl hx)]
      exact hall x hx

/-- The last round: what all ways out to `y` agree on. -/
def lastTally (g : Graph) (constant : ConstantBounds) (known : Regions)
    (exits : BlockId → BlockId → Tally) (h y : BlockId) : Tally :=
  Tally.meetAll ((sourcesOf g h y).map fun s => contribution g constant known exits h s y)

theorem get?_lastTally (hg : g.Checked) (hx : g.Within l x) (hs : y ∈ g.succs x)
    (hy : ¬ g.Within l y) :
    (lastTally g constant known exits (g.header l) y).get? d = some v ↔
      ∀ x, g.Within l x → y ∈ g.succs x →
        (leaving g constant exits (nodesOf known (g.header l)) (g.header l)
          (g.nodeIn (some l) x) y).get? d = some v := by
  have hl := Graph.lt_of_within hx
  simp only [lastTally, Tally.get?_meetAll, List.forall_mem_map, mem_sourcesOf hg hl]
  constructor
  · rintro ⟨-, hall⟩ x hx hs
    rw [← contribution_eq hg hx]
    exact hall x ⟨hx, hs, hy⟩
  · intro hall
    constructor
    · rw [ne_eq, List.map_eq_nil_iff]
      exact List.ne_nil_of_mem ((mem_sourcesOf hg hl).2 ⟨hx, hs, hy⟩)
    · rintro x ⟨hx, hs, -⟩
      rw [contribution_eq hg hx]
      exact hall x hx hs

/-- How often the last round visits a block, if that is known: as the tally says, or
not at all if the block leads to no way out. -/
def lastVisits (g : Graph) (constant : ConstantBounds) (known : Regions)
    (exits : BlockId → BlockId → Tally) (h y b : BlockId) : Option Visits :=
  match (lastTally g constant known exits h y).get? b with
  | some m => some m
  | none =>
    match g.regionNode b (g.headedBy h) with
    | none => none
    | some node =>
      if reachesAny known h node
        ((sourcesOf g h y).filterMap fun s => g.regionNode s (g.headedBy h)) then none
      else some .never

/-- **The entries of a loop that is left.** -/
theorem get?_exitTally {fuel : Nat} :
    (exitTally g constant known (fuel + 1) h y).get? d = some v ↔
      ∃ n, (roundTally g constant known (exitTally g constant known fuel) h).get? d = some n ∧
        ∃ m, lastVisits g constant known (exitTally g constant known fuel) h y d = some m ∧
          v = .looped h n m := by
  have hlist : exitTally g constant known (fuel + 1) h y = .ofList
      ((roundTally g constant known (exitTally g constant known fuel) h).entries.filterMap
        fun e => ((lastVisits g constant known (exitTally g constant known fuel) h y e.1).map
          (Visits.looped h e.2)).map (e.1, ·)) := by
    rw [exitTally]
    dsimp only
    congr 1
    refine List.filterMap_congr fun e _ => ?_
    unfold lastVisits lastTally
    cases (Tally.meetAll ((sourcesOf g h y).map fun s =>
        contribution g constant known (exitTally g constant known fuel) h s y)).get? e.1 with
    | some m => rfl
    | none =>
      cases g.regionNode e.1 (g.headedBy h) with
      | none => rfl
      | some node =>
        dsimp only
        split <;> rfl
  rw [hlist, OrderedMap.get?_ofList_entries_filterMap
    (f := fun b n => (lastVisits g constant known (exitTally g constant known fuel) h y b).map
      (Visits.looped h n))]
  simp only [Option.map_eq_some_iff, eq_comm (a := v)]

/-- What the analysed loops know is about their own blocks. -/
def KnownLocal (g : Graph) (known : Regions) : Prop :=
  ∀ l < g.loops.length, Local g (some l) (nodesOf known (g.header l))

/-- A full round of a loop visits blocks of the loop only. -/
theorem within_of_roundTally (hg : g.Checked) (hknown : KnownLocal g known)
    (hexits : ExitsLocal g exits) (hl : l < g.loops.length)
    (hd : (roundTally g constant known exits (g.header l)).get? d = some v) : g.Within l d := by
  obtain ⟨L, hL⟩ := Graph.exists_loop hl
  obtain ⟨u, hu⟩ := hg.retreats_header hL
  rw [← Graph.header_eq hL] at hu
  have hul : g.Inside (some l) u := hg.within_of_retreats hl hu
  exact leaving_inside hg ⟨hl, rfl⟩ (hknown l hl) hexits (hg.isNode_nodeIn hul)
    ((get?_roundTally hg hl).1 hd u hu)

theorem exitsLocal_exitTally (hg : g.Checked) (hknown : KnownLocal g known)
    (constant : ConstantBounds) (fuel : Nat) :
    ExitsLocal g (exitTally g constant known fuel) := by
  induction fuel with
  | zero =>
    intro l _ y d v hd
    simp [exitTally] at hd
  | succ fuel ih =>
    intro l hl y d v hd
    obtain ⟨n, hn, -⟩ := get?_exitTally.1 hd
    exact within_of_roundTally hg hknown ih hl hn

/-! ### Following an edge -/

/-- What an edge brings, taken together with the tally before, if there is one. -/
def merged (before : Option Tally) (out : Tally) : Tally :=
  match before with
  | some t => if t.isEmpty then out else t.meet out
  | none => out

/-- The tally of a block, given the one before and what an edge brings. -/
def arriving (g : Graph) (constant : ConstantBounds) (before : Option Tally) (out : Tally)
    (s : BlockId) : Tally :=
  if !g.isHeader s || constant s then (merged before out).insert s .once else merged before out

section Arriving

variable {before : Option Tally} {out : Tally}
  (hbefore : ∀ t, before = some t → t.get? h = some .once)
include hbefore

theorem get?_merged : (merged before out).get? d = some v ↔
    out.get? d = some v ∧ ∀ t, before = some t → t.get? d = some v := by
  cases before with
  | none => simp [merged]
  | some t =>
    have hne : t.isEmpty = false := by
      have := OrderedMap.get?_eq_some_iff.1 (hbefore t rfl)
      unfold OrderedMap.isEmpty
      rw [List.isEmpty_eq_false_iff]
      exact List.ne_nil_of_mem this
    simp only [merged, hne, Bool.false_eq_true, if_false, Tally.get?_meet, Option.some_inj,
      forall_eq']
    exact and_comm

theorem get?_arriving (hd : (arriving g constant before out s).get? d = some v) :
    (d = s ∧ v = .once ∧ (g.isHeader s = true → constant s = true)) ∨
      (out.get? d = some v ∧ ∀ t, before = some t → t.get? d = some v) := by
  unfold arriving at hd
  split at hd
  · next hs =>
    rw [OrderedMap.get?_insert] at hd
    split at hd
    · next he =>
      cases hd
      refine .inl ⟨he, rfl, fun hhead => ?_⟩
      simpa [hhead] using hs
    · exact .inr ((get?_merged hbefore).1 hd)
  · exact .inr ((get?_merged hbefore).1 hd)

theorem get?_arriving_start (hne : h ≠ s) (hout : out.get? h = some .once) :
    (arriving g constant before out s).get? h = some .once := by
  have hmerged := (get?_merged hbefore).2 ⟨hout, hbefore⟩
  unfold arriving
  split
  · rwa [OrderedMap.get?_insert, if_neg hne]
  · exact hmerged

end Arriving

/-- **What following an edge does.** -/
theorem follow_eq_ok (hf : follow g constant known h current w s = .ok w') :
    w'.queue = enqueue w.queue s ∧
      w'.tallies = w.tallies.insert s (arriving g constant (w.tallies.get? s)
        (leaving g constant (exitTally g constant known (g.loops.length + 1)) w.tallies h current s)
        s) ∧
      (∀ x ∈ w.inner, x ∈ w'.inner) ∧ (g.isHeader s = true → s ∈ w'.inner) ∧
      ∀ x ∈ w'.inner, x ∈ w.inner ∨ x = s ∧ ∀ e, known.get? s ≠ some (.error e) := by
  unfold follow at hf
  dsimp only at hf
  split at hf
  · next hnew =>
    simp only [Bool.and_eq_true, decide_eq_true_eq] at hnew
    split at hf
    · cases hf
    · next hknown =>
      cases hf
      refine ⟨rfl, rfl, fun x hx => List.mem_append_left _ hx, fun _ => by simp, fun x hx => ?_⟩
      rcases List.mem_append.1 hx with hx | hx
      · exact .inl hx
      · exact .inr ⟨List.mem_singleton.1 hx, hknown⟩
  · next hold =>
    cases hf
    refine ⟨rfl, rfl, fun x hx => hx, fun hhead => ?_, fun x hx => .inl hx⟩
    simpa [hhead] using hold

/-! ### The work on a region -/

/-- The tally of `s` holds nothing but `s` itself and what comes over the edge from
`u`. -/
def Flows (g : Graph) (constant : ConstantBounds) (exits : BlockId → BlockId → Tally)
    (h : BlockId) (T : OrderedMap BlockId Tally) (u s : BlockId) : Prop :=
  ∃ t, T.get? s = some t ∧ ∀ d v, t.get? d = some v →
    (d = s ∧ v = .once ∧ (g.isHeader s = true → constant s = true)) ∨
      (leaving g constant exits T h u s).get? d = some v

section Flows

variable {new : Tally} (hus : u ≠ s)
include hus

/-- The edge that was followed. -/
theorem flows_insert_self
    (hnew : ∀ d v, new.get? d = some v →
      (d = s ∧ v = .once ∧ (g.isHeader s = true → constant s = true)) ∨
        (leaving g constant exits T h u s).get? d = some v) :
    Flows g constant exits h (T.insert s new) u s := by
  refine ⟨new, by rw [OrderedMap.get?_insert, if_pos rfl], fun d v hd => ?_⟩
  rw [leaving_insert hus]
  exact hnew d v hd

/-- Another edge: the tally that is written has only lost entries, but for its own
block. -/
theorem Flows.insert (hflow : Flows g constant exits h T u x)
    (hnew : ∀ d v, new.get? d = some v →
      (d = s ∧ v = .once ∧ (g.isHeader s = true → constant s = true)) ∨
        ∀ t, T.get? s = some t → t.get? d = some v) :
    Flows g constant exits h (T.insert s new) u x := by
  obtain ⟨t, ht, hflow⟩ := hflow
  by_cases hxs : x = s
  · subst hxs
    refine flows_insert_self hus fun d v hd => ?_
    rcases hnew d v hd with hown | hold
    · exact .inl hown
    · exact hflow d v (hold t ht)
  · refine ⟨t, by rw [OrderedMap.get?_insert, if_neg hxs, ht], fun d v hd => ?_⟩
    rw [leaving_insert hus]
    exact hflow d v hd

end Flows

/-- The state of the work on the region of `h`.  The edges from `current` to the
blocks of `todo` are still to be followed, and those from queued blocks. -/
structure Draining (g : Graph) (constant : ConstantBounds) (known : Regions) (o : Option LoopId)
    (h : BlockId) (w : Work) (current : BlockId) (todo : List BlockId) : Prop where
  start : w.tallies.get? h = some ((∅ : Tally).insert h .once)
  node : ∀ u t, w.tallies.get? u = some t → g.IsNode o u
  own : ∀ u t, w.tallies.get? u = some t → t.get? h = some .once
  inside : Local g o w.tallies
  queued : ∀ u ∈ w.queue, ∃ t, w.tallies.get? u = some t
  flows : ∀ u t, w.tallies.get? u = some t → ∀ s ∈ g.regionSuccs u h,
    u ∈ w.queue ∨ (u = current ∧ s ∈ todo) ∨
      Flows g constant (exitTally g constant known (g.loops.length + 1)) h w.tallies u s
  met : ∀ u t, w.tallies.get? u = some t → u ≠ h → g.isHeader u = true → u ∈ w.inner
  sound : ∀ s ∈ w.inner, ∀ e, known.get? s ≠ some (.error e)

/-- What is known when the work on a region is done. -/
structure Drained (g : Graph) (constant : ConstantBounds) (known : Regions) (o : Option LoopId)
    (h : BlockId) (T : OrderedMap BlockId Tally) : Prop where
  start : T.get? h = some ((∅ : Tally).insert h .once)
  own : ∀ u t, T.get? u = some t → t.get? h = some .once
  inside : Local g o T
  flows : ∀ u t, T.get? u = some t → ∀ s ∈ g.regionSuccs u h,
    Flows g constant (exitTally g constant known (g.loops.length + 1)) h T u s
  sound : ∀ u t, T.get? u = some t → u ≠ h → g.isHeader u = true →
    ∀ e, known.get? u ≠ some (.error e)

theorem draining_start (hg : g.Checked) (hh : g.IsStart o h) :
    Draining g constant known o h
      { tallies := (∅ : OrderedMap BlockId Tally).insert h ((∅ : Tally).insert h .once),
        queue := [h] } h [] := by
  -- the only tally is that of the start
  have hall : ∀ {P : BlockId → Tally → Prop}, P h ((∅ : Tally).insert h .once) →
      ∀ u t, ((∅ : OrderedMap BlockId Tally).insert h ((∅ : Tally).insert h .once)).get? u = some t →
        P u t :=
    OrderedMap.forall_get?_insert (by simp)
  refine ⟨by simp, hall (hg.isNode_start hh), hall (by simp), ?_, by simp, ?_, ?_, by simp⟩
  · refine hall (OrderedMap.forall_get?_insert (by simp) ?_)
    exact hg.inside_of_level (hg.loopOf_start hh)
  · exact hall fun s _ => .inl (by simp)
  · exact hall fun hne => absurd rfl hne

theorem Draining.drained (hw : Draining g constant known o h w current []) (hq : w.queue = []) :
    Drained g constant known o h w.tallies := by
  refine ⟨hw.start, hw.own, hw.inside, fun u t hu s hs => ?_, fun u t hu hne hhead =>
    hw.sound u (hw.met u t hu hne hhead)⟩
  rcases hw.flows u t hu s hs with hmem | ⟨-, hnil⟩ | hflow
  · rw [hq] at hmem
    simp at hmem
  · simp at hnil
  · exact hflow

/-- Taking the first block from the queue: its edges are to be followed. -/
theorem Draining.pop {rest : List BlockId} (hw : Draining g constant known o h w current [])
    (hq : w.queue = n :: rest) :
    Draining g constant known o h { w with queue := rest } n (g.regionSuccs n h) := by
  refine ⟨hw.start, hw.node, hw.own, hw.inside, fun u hu => hw.queued u ?_, ?_, hw.met, hw.sound⟩
  · rw [hq]
    exact List.mem_cons_of_mem _ hu
  · intro u t hu s hs
    rcases hw.flows u t hu s hs with hmem | ⟨-, hnil⟩ | hflow
    · rw [hq] at hmem
      rcases List.mem_cons.1 hmem with rfl | hmem
      · exact .inr (.inl ⟨rfl, hs⟩)
      · exact .inl hmem
    · simp at hnil
    · exact .inr (.inr hflow)

/-- Spreading tallies over inner loops does not change those of blocks outside. -/
theorem get?_foldl_spread (hg : g.Checked) {b : BlockId} (hb : g.loopOf b = none)
    (inner : List BlockId) (T : OrderedMap BlockId Tally) :
    (inner.foldl (spread g constant known) T).get? b = T.get? b := by
  induction inner generalizing T with
  | nil => rfl
  | cons h inner ih =>
    rw [List.foldl_cons, ih]
    unfold spread
    dsimp only
    split
    · rfl
    · next L hL =>
      obtain ⟨l, -, hL⟩ := Option.bind_eq_some_iff.1 hL
      refine OrderedMap.get?_insertAll_of_notMem fun hmem => hg.loopOf_eq_none.1 hb l ?_
      rw [List.map_map, List.mem_map] at hmem
      obtain ⟨x, hx, rfl⟩ := hmem
      rcases List.mem_cons.1 hx with rfl | hx
      · rw [← Graph.header_eq hL]
        exact hg.within_header (List.getElem?_eq_some_iff.1 hL).1
      · rw [OrderedSet.mem_toList, OrderedSet.mem_erase] at hx
        exact (Graph.within_iff_mem hL).2 (by tauto)

section Drain

variable (hg : g.Checked) (hh : g.IsStart o h)
  (hexits : ExitsLocal g (exitTally g constant known (g.loops.length + 1)))
include hg hh hexits

/-- **Following an edge.** -/
theorem Draining.follow {todo : List BlockId}
    (hw : Draining g constant known o h w current (s :: todo))
    (hcurrent : ∃ t, w.tallies.get? current = some t) (hs : s ∈ g.regionSuccs current h)
    (hf : ConstantLoop.follow g constant known h current w s = .ok w') :
    Draining g constant known o h w' current todo ∧ ∃ t, w'.tallies.get? current = some t := by
  obtain ⟨hqueue, htallies, hinner, hmet, hsound⟩ := follow_eq_ok hf
  obtain ⟨tallies, queue, inner⟩ := w'
  obtain ⟨t₀, ht₀⟩ := hcurrent
  have hnode := hw.node current t₀ ht₀
  obtain ⟨hsnode, hsne, -⟩ := hg.isNode_of_mem_regionSuccs hh hnode hs
  have hbefore : ∀ t, w.tallies.get? s = some t → t.get? h = some .once := fun t => hw.own s t
  subst htallies
  refine ⟨⟨?_, ?_, ?_, ?_, ?_, ?_, ?_, ?_⟩, OrderedMap.exists_get?_insert fun _ => ⟨t₀, ht₀⟩⟩
  · rw [OrderedMap.get?_insert, if_neg hsne.symm]
    exact hw.start
  · exact OrderedMap.forall_get?_insert hw.node hsnode
  · exact OrderedMap.forall_get?_insert hw.own (get?_arriving_start hbefore hsne.symm
      (leaving_start hg hh hexits hnode ht₀ (hw.own current t₀ ht₀)))
  · refine OrderedMap.forall_get?_insert hw.inside fun d v hd => ?_
    rcases get?_arriving hbefore hd with ⟨rfl, -, -⟩ | ⟨hd, -⟩
    · exact hg.inside_of_isNode hsnode
    · exact leaving_inside hg hh hw.inside hexits hnode hd
  · intro u hu
    rw [hqueue, mem_enqueue] at hu
    exact OrderedMap.exists_get?_insert fun hus => hw.queued u (hu.resolve_right hus)
  · intro u t hu x hx
    rw [hqueue, mem_enqueue]
    by_cases hus : u = s
    · exact .inl (.inr hus)
    rw [OrderedMap.get?_insert, if_neg hus] at hu
    rcases hw.flows u t hu x hx with hq | ⟨rfl, htodo⟩ | hflow
    · exact .inl (.inl hq)
    · rcases List.mem_cons.1 htodo with rfl | htodo
      · exact .inr (.inr (flows_insert_self hus fun d v hd =>
          (get?_arriving hbefore hd).imp_right And.left))
      · exact .inr (.inl ⟨rfl, htodo⟩)
    · exact .inr (.inr (hflow.insert hus fun d v hd =>
        (get?_arriving hbefore hd).imp_right And.right))
  · exact OrderedMap.forall_get?_insert (P := fun u _ => u ≠ h → g.isHeader u = true → u ∈ inner)
      (fun u t hu hne hhead => hinner u (hw.met u t hu hne hhead)) fun _ => hmet
  · intro x hx
    rcases hsound x hx with hx | ⟨rfl, hx⟩
    · exact hw.sound x hx
    · exact hx

/-- Following several edges. -/
theorem Draining.foldlM {todo : List BlockId}
    (hw : Draining g constant known o h w current todo)
    (hcurrent : ∃ t, w.tallies.get? current = some t) (hs : ∀ s ∈ todo, s ∈ g.regionSuccs current h)
    (hf : todo.foldlM (ConstantLoop.follow g constant known h current) w = .ok w') :
    Draining g constant known o h w' current [] := by
  induction todo generalizing w with
  | nil =>
    cases hf
    exact hw
  | cons s todo ih =>
    rw [List.foldlM_cons] at hf
    cases hfirst : ConstantLoop.follow g constant known h current w s with
    | error e => rw [hfirst] at hf; cases hf
    | ok w₁ =>
      rw [hfirst] at hf
      obtain ⟨hw₁, hcurrent₁⟩ := hw.follow hg hh hexits hcurrent (hs s (by simp)) hfirst
      exact ih hw₁ hcurrent₁ (fun x hx => hs x (List.mem_cons_of_mem _ hx)) hf

/-- **The whole work.** -/
theorem Draining.drain {steps : Nat} (hw : Draining g constant known o h w current [])
    (hf : ConstantLoop.drain g constant known h steps w = .ok (some w')) :
    Drained g constant known o h w'.tallies := by
  induction steps generalizing w current with
  | zero =>
    unfold ConstantLoop.drain at hf
    split at hf
    · next hq =>
      cases hf
      exact hw.drained hq
    · cases hf
  | succ steps ih =>
    unfold ConstantLoop.drain at hf
    split at hf
    · next hq =>
      cases hf
      exact hw.drained hq
    · next first rest hq =>
      dsimp only at hf
      cases hfold : (g.regionSuccs first h).foldlM (ConstantLoop.follow g constant known h first)
          { w with queue := rest } with
      | error e => rw [hfold] at hf; cases hf
      | ok w₁ =>
        rw [hfold] at hf
        exact ih ((hw.pop hq).foldlM hg hh hexits (hw.queued first (by rw [hq]; simp))
          (fun s hs => hs) hfold) hf

/-- **What is known about an analysed region.** -/
theorem analyse_eq_ok {limit : Int64} {r : Region}
    (hr : analyse g constant limit known h = .ok r) :
    Drained g constant known o h r.nodes ∧ r.reach = .ofStart g h ∧
      ∀ b, g.loopOf b = none → r.blocks.get? b = r.nodes.get? b := by
  unfold analyse at hr
  dsimp only at hr
  generalize hsteps : (if stepLimit g limit < 0 then 0 else _ + 1) = steps at hr
  cases hd : ConstantLoop.drain g constant known h steps
      { tallies := (∅ : OrderedMap BlockId Tally).insert h ((∅ : Tally).insert h .once),
        queue := [h] } with
  | error e => rw [hd] at hr; cases hr
  | ok w? =>
    rw [hd] at hr
    cases w? with
    | none => cases hr
    | some w =>
      cases hr
      refine ⟨Draining.drain hg hh hexits (draining_start hg hh) hd, rfl, fun b hb => ?_⟩
      exact get?_foldl_spread hg hb w.inner w.tallies

end Drain

/-! ### What the tallies of a region hold -/

section Drained

variable (hg : g.Checked) (hh : g.IsStart o h) (hd : Drained g constant known o h T)
include hg hh hd

/-- Every node has a tally. -/
theorem Drained.complete (hid : n ∈ g.ids) (hn : g.IsNode o n) : ∃ t, T.get? n = some t :=
  hg.node_induction hh (P := fun n => ∃ t, T.get? n = some t) ⟨_, hd.start⟩
    (fun u s ⟨t, ht⟩ hs => (hd.flows u t ht s hs).imp fun _ => And.left) hid hn

/-- The loops directly inside have not failed. -/
theorem Drained.no_error (hc : g.IsChild o c) : ∀ e, known.get? (g.header c) ≠ some (.error e) := by
  obtain ⟨t, ht⟩ := hd.complete hg hh (hg.header_ids hc.1) (.inr ⟨c, hc, rfl⟩)
  exact hd.sound _ t ht (hg.header_child_ne hh hc) (hg.isHeader_iff.2 ⟨c, hc.1, rfl⟩)

/-- **What a node knows came over each edge to it**, but for itself. -/
theorem Drained.over {t : Tally} (hy : g.Inside o y) (hny : g.IsNode o y) (hne : y ≠ h)
    (hs : y ∈ g.succs x) (hfwd : ¬ g.Retreats x y) (ht : T.get? y = some t)
    (htd : t.get? d = some v) :
    d = y ∨ (leaving g constant (exitTally g constant known (g.loops.length + 1)) T h
      (g.nodeIn o x) y).get? d = some v := by
  have hx := hg.inside_of_succ hh hy hne hs
  rcases hg.edge_cases hh hx hs hy hne with ⟨c, hc, hcx, hcy⟩ | ⟨-, hsucc⟩
  · -- the only node in an inner loop is its header
    have hhead : y = g.header c := by
      rw [← hg.nodeIn_of_isNode hny, hg.nodeIn_of_child hc hcy]
    subst hhead
    exact absurd (hg.retreats_of_within hcx hs) hfwd
  · obtain ⟨t', ht'⟩ := hd.complete hg hh
      (hg.nodeIn_mem_ids (Shape.mem_ids_of_mem_succs hs) hx) (hg.isNode_nodeIn hx)
    obtain ⟨t₁, ht₁, hflow⟩ := hd.flows _ t' ht' y hsucc
    cases ht.symm.trans ht₁
    exact (hflow d v htd).imp_left And.left

/-- **The header of an inner loop without a constant bound is in no tally.** -/
theorem Drained.get?_of_variable (hexits : ExitsLocal g (exitTally g constant known (g.loops.length + 1)))
    (hc : g.IsChild o c) (hconst : constant (g.header c) = false) (hid : n ∈ g.ids)
    (hn : g.IsNode o n) {t : Tally} (ht : T.get? n = some t) : t.get? (g.header c) = none := by
  suffices hnone : g.IsNode o n ∧ ∃ t, T.get? n = some t ∧ t.get? (g.header c) = none by
    obtain ⟨-, t', ht', hnone⟩ := hnone
    cases ht.symm.trans ht'
    exact hnone
  refine hg.node_induction hh (P := fun n => g.IsNode o n ∧ ∃ t, T.get? n = some t ∧
    t.get? (g.header c) = none) ⟨hg.isNode_start hh, _, hd.start, ?_⟩ ?_ hid hn
  · simp [hg.header_child_ne hh hc]
  · rintro u s ⟨hu, t, ht, hnone⟩ hs
    refine ⟨(hg.isNode_of_mem_regionSuccs hh hu hs).1, ?_⟩
    obtain ⟨t', ht', hflow⟩ := hd.flows u t ht s hs
    refine ⟨t', ht', ?_⟩
    by_contra hsome
    obtain ⟨v, hv⟩ := Option.ne_none_iff_exists'.1 hsome
    rcases hflow _ v hv with ⟨rfl, -, hvar⟩ | hleave
    · rw [hvar (hg.isHeader_iff.2 ⟨c, hc.1, rfl⟩)] at hconst
      cases hconst
    · rw [leaving_variable hg hh hexits hu hc hconst fun t' ht' => by
        cases ht.symm.trans ht'
        exact hnone] at hleave
      cases hleave

end Drained

end ConstantLoop
end ConstantTime
