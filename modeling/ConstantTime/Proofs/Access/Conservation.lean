/-
# Conservation of compensation

"Single-Path Constant-Time Transformation Engine", §4.4 (contract B) and §8.

The walk of `compensate` treats every edge once, in the order of the sources.
What it reads at an edge is not written afterwards: an amount carried into a
block is written along forward edges, whose sources come before the block, and
what is put off at a header likewise.  So the state after the walk obeys one law
for each edge (`Checked.amount_to_end`, `Checked.amount_add_pending`), in terms
of what is *pending* at a block: the amount carried into it, and what was put
off at every loop around it.  Along a path the pending amounts cancel, whatever
its back edges, and the amounts on its edges are the accesses of its blocks.
-/

import ConstantTime.Access.Compensation
import ConstantTime.Proofs.Graph.Crossing
import ConstantTime.Proofs.Word

namespace ConstantTime

/-- The edges of a graph, by the place of the source. -/
def Graph.edges (g : Graph) : List FlowEdge :=
  g.order.flatMap fun u => (g.succs u).map fun v => ⟨u, v⟩

namespace EdgeAmounts

/-- The amounts on the edges of a path, added up. -/
def onPath (c : EdgeAmounts) : List BlockId → Int64
  | u :: v :: rest => c.on u v + c.onPath (v :: rest)
  | _ => 0

/-! ### The walk edge by edge -/

namespace Carry

variable {g : Graph} {count : AccessCounts} {c : Carry} {e : FlowEdge} {x : BlockId}

/-- What the walk does at one edge. -/
def step (g : Graph) (count : AccessCounts) (c : Carry) (e : FlowEdge) : Carry :=
  c.along g count e.source (c.incoming.getD e.source 0 + count e.source) e.target

/-- The amount carried along an edge. -/
def carried (c : Carry) (g : Graph) (count : AccessCounts) (u v : BlockId) : Int64 :=
  c.incoming.getD u 0 + count u + c.released g u v

@[simp] theorem put_incoming (c : Carry) (a b : BlockId) (n : Int64) :
    (c.put a b n).incoming = c.incoming := by
  unfold put
  split <;> rfl

@[simp] theorem put_postponed (c : Carry) (a b : BlockId) (n : Int64) :
    (c.put a b n).postponed = c.postponed := by
  unfold put
  split <;> rfl

theorem put_on (c : Carry) (a b : BlockId) (n : Int64) (h : c.amounts.on a b = 0) :
    (c.put a b n).amounts.on a b = n := by
  unfold put
  split
  · next hn => rw [h, hn]
  · rw [on, OrderedMap.getD_insert, if_pos rfl]

theorem put_on_of_ne (c : Carry) {a b a' b' : BlockId} (n : Int64)
    (h : (⟨a', b'⟩ : FlowEdge) ≠ ⟨a, b⟩) :
    (c.put a b n).amounts.on a' b' = c.amounts.on a' b' := by
  unfold put
  split
  · rfl
  · rw [on, OrderedMap.getD_insert, if_neg h]
    rfl

/-- **What one edge writes.**  A back edge and an edge to an end write an amount;
an edge to a block where ways meet writes an amount and carries nothing on; an
edge to the header of a loop puts off; any other edge carries on. -/
theorem step_cases (g : Graph) (count : AccessCounts) (c : Carry) (u v : BlockId) :
    (g.isBackEdge u v = true ∧ c.step g count ⟨u, v⟩ = c.put u v (c.carried g count u v)) ∨
    (g.isBackEdge u v = false ∧ g.succs v = [] ∧
      c.step g count ⟨u, v⟩ = c.put u v (c.carried g count u v + count v)) ∨
    (g.isBackEdge u v = false ∧ g.succs v ≠ [] ∧ 1 < waysIn g v ∧
      c.step g count ⟨u, v⟩ = { c.put u v (c.carried g count u v) with
        incoming := c.incoming.insert v 0 }) ∨
    (g.isBackEdge u v = false ∧ g.succs v ≠ [] ∧ waysIn g v ≤ 1 ∧ g.isHeader v = true ∧
      c.step g count ⟨u, v⟩ = { c with
        postponed := c.postponed.insert v (c.carried g count u v)
        incoming := c.incoming.insert v 0 }) ∨
    (g.isBackEdge u v = false ∧ g.succs v ≠ [] ∧ waysIn g v ≤ 1 ∧ g.isHeader v = false ∧
      c.step g count ⟨u, v⟩ = { c with
        incoming := c.incoming.insert v (c.carried g count u v) }) := by
  unfold step along
  dsimp only
  rw [← carried]
  cases hb : g.isBackEdge u v
  · by_cases he : g.succs v = []
    · simp [he]
    · by_cases hw : 1 < waysIn g v
      · simp [he, hw]
      · cases hh : g.isHeader v <;> simp [he, hw] <;> omega
  · simp

/-- Only a forward edge into a block writes what is carried into it or put off
at it. -/
theorem step_frame (h : e.target = x → g.isBackEdge e.source x = true) :
    (c.step g count e).incoming.getD x 0 = c.incoming.getD x 0 ∧
      (c.step g count e).postponed.getD x 0 = c.postponed.getD x 0 := by
  obtain ⟨u, v⟩ := e
  by_cases hx : x = v
  · have hb := h hx.symm
    rw [hx] at hb
    rcases step_cases g count c u v with ⟨-, hs⟩ | ⟨hf, -⟩ | ⟨hf, -⟩ | ⟨hf, -⟩ | ⟨hf, -⟩
    · rw [hs, put_incoming, put_postponed]
      exact ⟨rfl, rfl⟩
    all_goals exact absurd hb (by simp [hf])
  · rcases step_cases g count c u v with
      ⟨-, hs⟩ | ⟨-, -, hs⟩ | ⟨-, -, -, hs⟩ | ⟨-, -, -, -, hs⟩ | ⟨-, -, -, -, hs⟩ <;>
    simp [hs, OrderedMap.getD_insert, hx]

theorem step_on_of_ne {a b : BlockId} (h : e ≠ ⟨a, b⟩) :
    (c.step g count e).amounts.on a b = c.amounts.on a b := by
  obtain ⟨u, v⟩ := e
  rcases step_cases g count c u v with
    ⟨-, hs⟩ | ⟨-, -, hs⟩ | ⟨-, -, -, hs⟩ | ⟨-, -, -, -, hs⟩ | ⟨-, -, -, -, hs⟩ <;>
  simp only [hs, put_on_of_ne c _ h.symm]

/-- Nothing is carried past a block where ways meet, or into a loop. -/
theorem step_incoming_zero (h : 1 < waysIn g x ∨ g.isHeader x = true)
    (hc : c.incoming.getD x 0 = 0) : (c.step g count e).incoming.getD x 0 = 0 := by
  obtain ⟨u, v⟩ := e
  by_cases hx : x = v
  · subst hx
    rcases step_cases g count c u x with
      ⟨-, hs⟩ | ⟨-, -, hs⟩ | ⟨-, -, -, hs⟩ | ⟨-, -, -, -, hs⟩ | ⟨-, -, hw, hh, -⟩
    · rwa [hs, put_incoming]
    · rwa [hs, put_incoming]
    · rw [hs, OrderedMap.getD_insert, if_pos rfl]
    · rw [hs, OrderedMap.getD_insert, if_pos rfl]
    · rcases h with h | h
      · omega
      · exact absurd h (by simp [hh])
  · rw [(step_frame fun he => absurd he.symm hx).1, hc]

/-- Nothing is put off where ways meet. -/
theorem step_postponed_zero (h : 1 < waysIn g x) (hc : c.postponed.getD x 0 = 0) :
    (c.step g count e).postponed.getD x 0 = 0 := by
  obtain ⟨u, v⟩ := e
  by_cases hx : x = v
  · subst hx
    rcases step_cases g count c u x with
      ⟨-, hs⟩ | ⟨-, -, hs⟩ | ⟨-, -, -, hs⟩ | ⟨-, -, hw, -⟩ | ⟨-, -, hw, -⟩
    · rwa [hs, put_postponed]
    · rwa [hs, put_postponed]
    · rwa [hs, put_postponed]
    all_goals omega
  · rw [(step_frame fun he => absurd he.symm hx).2, hc]

/-- What every edge of a list keeps is kept by the walk along the list. -/
theorem foldl_step_induction {P : Carry → Prop} {es : List FlowEdge} (hc : P c)
    (h : ∀ e ∈ es, ∀ c, P c → P (c.step g count e)) : P (es.foldl (step g count) c) := by
  induction es generalizing c with
  | nil => exact hc
  | cons e es ih =>
    exact ih (h e (by simp) c hc) fun e' he' => h e' (List.mem_cons_of_mem _ he')

theorem foldl_step_frame {es : List FlowEdge}
    (h : ∀ e ∈ es, e.target = x → g.isBackEdge e.source x = true) :
    (es.foldl (step g count) c).incoming.getD x 0 = c.incoming.getD x 0 ∧
      (es.foldl (step g count) c).postponed.getD x 0 = c.postponed.getD x 0 := by
  refine foldl_step_induction (P := fun c' => c'.incoming.getD x 0 = c.incoming.getD x 0 ∧
    c'.postponed.getD x 0 = c.postponed.getD x 0) ⟨rfl, rfl⟩ fun e he c' hc' => ?_
  rw [(step_frame (h e he)).1, (step_frame (h e he)).2]
  exact hc'

theorem foldl_step_on {es : List FlowEdge} {a b : BlockId} (h : ⟨a, b⟩ ∉ es) :
    (es.foldl (step g count) c).amounts.on a b = c.amounts.on a b := by
  refine foldl_step_induction (P := fun c' => c'.amounts.on a b = c.amounts.on a b) rfl
    fun e he c' hc' => ?_
  rw [step_on_of_ne (fun hne => h (hne ▸ he)), hc']

theorem released_eq (c : Carry) (g : Graph) (u v : BlockId) :
    c.released g u v = g.leftSum (fun l => c.postponed.getD (g.header l) 0) u v := by
  unfold released Graph.leftSum Graph.header
  rw [List.sum_eq_foldl, List.foldl_map]

end Carry
end EdgeAmounts

/-! ### The state after the walk -/

open EdgeAmounts

namespace Graph

/-- The state of the walk when all edges have been treated. -/
def carry (g : Graph) (count : AccessCounts) : Carry := g.edges.foldl (Carry.step g count) {}

/-- What is pending at a block: the amount carried into it and what was put off
at the loops around it. -/
def pending (g : Graph) (count : AccessCounts) (b : BlockId) : Int64 :=
  (g.carry count).incoming.getD b 0 +
    g.aroundSum (fun l => (g.carry count).postponed.getD (g.header l) 0) b

variable {g : Graph} {count : AccessCounts} {u v : BlockId}

theorem incoming_zero {x : BlockId} (h : 1 < waysIn g x ∨ g.isHeader x = true) :
    (g.carry count).incoming.getD x 0 = 0 :=
  Carry.foldl_step_induction (P := fun c => c.incoming.getD x 0 = 0) rfl
    fun _ _ _ hc => Carry.step_incoming_zero h hc

theorem postponed_zero {x : BlockId} (h : 1 < waysIn g x) :
    (g.carry count).postponed.getD x 0 = 0 :=
  Carry.foldl_step_induction (P := fun c => c.postponed.getD x 0 = 0) rfl
    fun _ _ _ hc => Carry.step_postponed_zero h hc

namespace Checked

variable (hg : g.Checked)
include hg

theorem compensate_eq (count : AccessCounts) : compensate g count = (g.carry count).amounts := by
  unfold compensate carry edges
  rw [List.foldl_flatMap]
  congr 2
  funext c u
  rw [List.foldl_map, Carry.from]
  -- the edges out of a block do not write what is carried into it
  have key : ∀ (vs : List BlockId) (n : Int64) (c : Carry), (∀ v ∈ vs, v ∈ g.succs u) →
      n = c.incoming.getD u 0 + count u →
      vs.foldl (Carry.along g count u n) c =
        vs.foldl (fun c v => c.step g count ⟨u, v⟩) c := by
    intro vs
    induction vs with
    | nil => exact fun _ _ _ _ => rfl
    | cons v vs ih =>
      intro n c hvs hn
      rw [List.foldl_cons, List.foldl_cons]
      have hstep : Carry.along g count u n c v = c.step g count ⟨u, v⟩ := by rw [hn]; rfl
      rw [hstep]
      refine ih n _ (fun v' hv' => hvs v' (List.mem_cons_of_mem _ hv')) ?_
      rw [(Carry.step_frame fun he => ?_).1, hn]
      have hv := hvs v List.mem_cons_self
      rw [show v = u from he] at hv
      exact hg.isBackEdge_iff.2 ⟨hv, Nat.le_refl _⟩
  exact key _ _ c (fun v hv => hv) rfl

theorem mem_edges : (⟨u, v⟩ : FlowEdge) ∈ g.edges ↔ v ∈ g.succs u := by
  simp only [edges, List.mem_flatMap, List.mem_map, FlowEdge.mk.injEq]
  constructor
  · rintro ⟨u', -, v', hv, rfl, rfl⟩
    exact hv
  · exact fun hv => ⟨u, hg.mem_order_iff.2 (Shape.mem_ids_of_mem_succs hv), v, hv, rfl, rfl⟩

theorem pairwise_edges :
    g.edges.Pairwise fun e e' => e ≠ e' ∧ g.place e.source ≤ g.place e'.source := by
  unfold edges
  rw [List.pairwise_flatMap]
  constructor
  · intro u _
    rw [List.pairwise_map]
    exact (hg.wellFormed.nodup_succs u).imp fun hne => ⟨by simpa using hne, Nat.le_refl _⟩
  · refine List.pairwise_iff_forall_sublist.2 fun {u u'} hs e he e' he' => ?_
    have hlt := place_lt_of_sublist hg.nodup_order hs
    obtain ⟨v, -, rfl⟩ := List.mem_map.1 he
    obtain ⟨v', -, rfl⟩ := List.mem_map.1 he'
    refine ⟨fun h => ?_, Nat.le_of_lt hlt⟩
    rw [(FlowEdge.mk.inj h).1] at hlt
    exact absurd hlt (Nat.lt_irrefl _)

/-- A block with one way in has one predecessor that is not a latch. -/
theorem eq_of_waysIn_le_one {u' : BlockId} (hw : waysIn g v ≤ 1) (hu : v ∈ g.succs u)
    (hb : g.isBackEdge u v = false) (hu' : v ∈ g.succs u') (hb' : g.isBackEdge u' v = false) :
    u = u' := by
  have hmem : ∀ {x}, v ∈ g.succs x → g.isBackEdge x v = false →
      x ∈ (g.preds v).filter (fun p => !g.isBackEdge p v) := fun hx hbx =>
    List.mem_filter.2 ⟨hg.wellFormed.mem_preds_iff.2 hx, by rw [hbx]; rfl⟩
  have h := hmem hu hb
  have h' := hmem hu' hb'
  unfold waysIn at hw
  generalize (g.preds v).filter (fun p => !g.isBackEdge p v) = ps at hw h h'
  match ps, hw with
  | [p], _ => rw [List.mem_singleton.1 h, List.mem_singleton.1 h']

/-- **The walk at one edge.**  Some state `c` stands before the edge.  What it
reads there is what the walk ends with, nothing is on the edge yet, and what the
edge writes stays: the amount on it and, if it is the only way into its target,
what it carries on or puts off. -/
theorem exists_before (count : AccessCounts) (hv : v ∈ g.succs u) : ∃ c : Carry,
    c.carried g count u v = (g.carry count).carried g count u v ∧
    c.amounts.on u v = 0 ∧
    (g.carry count).amounts.on u v = (c.step g count ⟨u, v⟩).amounts.on u v ∧
    (g.isBackEdge u v = false → waysIn g v ≤ 1 →
      (g.carry count).incoming.getD v 0 = (c.step g count ⟨u, v⟩).incoming.getD v 0 ∧
      (g.carry count).postponed.getD v 0 = (c.step g count ⟨u, v⟩).postponed.getD v 0) := by
  obtain ⟨pre, post, hsplit⟩ := List.append_of_mem (hg.mem_edges.2 hv)
  have hpair := hg.pairwise_edges
  rw [hsplit] at hpair
  obtain ⟨-, hrest, hpre⟩ := List.pairwise_append.1 hpair
  obtain ⟨hpost, -⟩ := List.pairwise_cons.1 hrest
  have hedge : ∀ e ∈ post, e.target ∈ g.succs e.source := fun e he =>
    hg.mem_edges.1 (hsplit ▸ List.mem_append_right _ (List.mem_cons_of_mem _ he))
  have hcarry : ∀ c, c = pre.foldl (Carry.step g count) {} →
      g.carry count = (⟨u, v⟩ :: post).foldl (Carry.step g count) c := by
    rintro c rfl
    rw [carry, hsplit, List.foldl_append]
  -- from the edge on, no edge leads forward to a block that is not after its source
  have hback : ∀ x, g.place x ≤ g.place u →
      ∀ e ∈ (⟨u, v⟩ : FlowEdge) :: post, e.target = x → g.isBackEdge e.source x = true := by
    rintro x hx e he rfl
    refine hg.isBackEdge_iff.2 ?_
    rcases List.mem_cons.1 he with rfl | he
    · exact ⟨hv, hx⟩
    · exact ⟨hedge e he, hx.trans (hpost e he).2⟩
  refine ⟨pre.foldl (Carry.step g count) {}, ?_, ?_, ?_, ?_⟩
  · unfold Carry.carried
    rw [Carry.released_eq, Carry.released_eq, hcarry _ rfl,
      (Carry.foldl_step_frame (hback u (Nat.le_refl _))).1, leftSum, leftSum]
    congr 2
    refine List.map_congr_left fun l hl => ?_
    exact (Carry.foldl_step_frame (hback _ (hg.place_header_le (hg.mem_loopsLeft.1 hl).1))).2.symm
  · rw [Carry.foldl_step_on fun h => (hpre _ h _ List.mem_cons_self).1 rfl]
    rfl
  · rw [hcarry _ rfl, List.foldl_cons, Carry.foldl_step_on fun h => (hpost _ h).1 rfl]
  · intro hb hw
    rw [hcarry _ rfl, List.foldl_cons]
    refine Carry.foldl_step_frame fun e he het => ?_
    by_contra hf
    -- a second forward edge into `v` would be a second way in
    refine (hpost e he).1 ?_
    obtain ⟨s, t⟩ := e
    subst het
    rw [hg.eq_of_waysIn_le_one hw hv hb (hedge _ he) (by simpa using hf)]

/-! ### The law of an edge -/

/-- What an edge that enters no loop carries, and what is put off beyond it. -/
theorem carried_of_stay (count : AccessCounts) (h : ∀ l, g.Within l v → g.Within l u) :
    (g.carry count).carried g count u v +
      g.aroundSum (fun l => (g.carry count).postponed.getD (g.header l) 0) v =
    g.pending count u + count u := by
  have hlaw := hg.aroundSum_of_stay (fun l => (g.carry count).postponed.getD (g.header l) 0) h
  rw [Carry.carried, pending, Carry.released_eq, ← hlaw]
  grind

/-- What an edge that enters a loop carries, and what is put off beyond it. -/
theorem carried_of_enter (count : AccessCounts) (hv : v ∈ g.succs u) (hf : g.isBackEdge u v = false)
    (hh : g.isHeader v = true) :
    (g.carry count).carried g count u v +
      g.aroundSum (fun l => (g.carry count).postponed.getD (g.header l) 0) v =
    g.pending count u + count u + (g.carry count).postponed.getD v 0 := by
  obtain ⟨l, hl, rfl⟩ := hg.isHeader_iff.1 hh
  have hnr : ¬ g.Retreats u (g.header l) := by
    rw [← hg.isBackEdge_iff, hf]
    simp
  have hlaw := hg.aroundSum_of_enter (fun l => (g.carry count).postponed.getD (g.header l) 0)
    (hg.within_header hl) (hg.not_within_of_forward hv hnr) fun l' hne hl' =>
      hg.within_of_edge hv hl' fun e => absurd (hg.header_inj (lt_of_within hl') hl e) hne
  rw [Carry.carried, pending, Carry.released_eq]
  grind

/-- **An edge to an end takes everything.** -/
theorem amount_to_end (hv : v ∈ g.succs u) (he : g.succs v = []) :
    (compensate g count).on u v = g.pending count u + count u + count v := by
  obtain ⟨c, hread, hzero, hon, -⟩ := hg.exists_before count hv
  have hlaw := hg.carried_of_stay count (u := u) (v := v)
    fun l hl => absurd hl (hg.not_within_end he l)
  rw [aroundSum, hg.around_end he, List.map_nil, List.sum_nil, add_zero] at hlaw
  rw [hg.compensate_eq, hon]
  rcases Carry.step_cases g count c u v with
    ⟨hb, -⟩ | ⟨-, -, hs⟩ | ⟨-, hne, -⟩ | ⟨-, hne, -⟩ | ⟨-, hne, -⟩
  · obtain ⟨l, L, hL, rfl⟩ := hg.exists_loop_of_retreats (hg.isBackEdge_iff.1 hb)
    rw [← header_eq hL] at he
    exact absurd (hg.within_header (List.getElem?_eq_some_iff.1 hL).1) (hg.not_within_end he l)
  · rw [hs, Carry.put_on _ _ _ _ hzero, hread, hlaw]
  all_goals exact absurd he hne

/-- **Any other edge passes on what it does not take.** -/
theorem amount_add_pending (count : AccessCounts) (hv : v ∈ g.succs u) (he : g.succs v ≠ []) :
    (compensate g count).on u v + g.pending count v = g.pending count u + count u := by
  obtain ⟨c, hread, hzero, hon, hkeep⟩ := hg.exists_before count hv
  rw [hg.compensate_eq, hon, pending]
  have hstay (h : g.isBackEdge u v = true ∨ g.isHeader v = false) :=
    hg.carried_of_stay count (u := u) (v := v) fun l hl =>
      hg.within_of_edge hv hl fun hlv => by
        rcases h with hb | hh
        · exact hg.isBackEdge_iff.1 hb
        · have := hg.isHeader_iff.2 ⟨l, lt_of_within hl, hlv⟩
          exact absurd this (by simp [hh])
  rcases Carry.step_cases g count c u v with
    ⟨hb, hs⟩ | ⟨-, hend, -⟩ | ⟨hf, -, hw, hs⟩ | ⟨hf, -, hw, hh, hs⟩ | ⟨hf, -, hw, hh, hs⟩
  · -- a back edge takes what is carried; nothing is ever carried into a header
    obtain ⟨l, L, hL, hlv⟩ := hg.exists_loop_of_retreats (hg.isBackEdge_iff.1 hb)
    have hh : g.isHeader v = true :=
      hg.isHeader_iff.2 ⟨l, (List.getElem?_eq_some_iff.1 hL).1, (header_eq hL).trans hlv⟩
    rw [hs, Carry.put_on _ _ _ _ hzero, hread, incoming_zero (.inr hh), zero_add, hstay (.inl hb)]
  · exact absurd hend he
  · -- where ways meet, nothing is carried on and nothing put off
    have hput : (c.step g count ⟨u, v⟩).amounts.on u v = c.carried g count u v := by
      rw [hs]
      exact Carry.put_on _ _ _ _ hzero
    rw [hput, hread, incoming_zero (.inl hw), zero_add]
    cases hh : g.isHeader v with
    | false => exact hstay (.inr hh)
    | true => rw [hg.carried_of_enter count hv hf hh, postponed_zero hw, add_zero]
  · -- at a header everything is put off
    have hlaw := hg.carried_of_enter count hv hf hh
    have hput : (g.carry count).postponed.getD v 0 = (g.carry count).carried g count u v := by
      rw [(hkeep hf hw).2, hs, ← hread]
      simp [OrderedMap.getD_insert]
    rw [show (c.step g count ⟨u, v⟩).amounts.on u v = 0 by rw [hs]; exact hzero,
      incoming_zero (.inr hh)]
    grind
  · -- elsewhere everything is carried on
    have hlaw := hstay (.inr hh)
    have hput : (g.carry count).incoming.getD v 0 = (g.carry count).carried g count u v := by
      rw [(hkeep hf hw).1, hs, ← hread]
      simp [OrderedMap.getD_insert]
    rw [show (c.step g count ⟨u, v⟩).amounts.on u v = 0 by rw [hs]; exact hzero, hput]
    grind

/-! ### Along a path -/

theorem pending_entry : g.pending count g.entry = 0 := by
  have hno : ∀ u, g.entry ∉ g.succs u := fun u hu => by
    have := hg.wellFormed.mem_preds_iff.2 hu
    rw [hg.preds_entry] at this
    simp at this
  have hin : (g.carry count).incoming.getD g.entry 0 = 0 :=
    (Carry.foldl_step_frame fun e he het => absurd (hg.mem_edges.1 he) (het ▸ hno _)).1
  rw [pending, hin, aroundSum, hg.around_entry]
  rfl

theorem onPath_eq {p : List BlockId} {e : BlockId} (hp : g.IsPath u p e) (he : g.succs e = [])
    (hu : g.succs u ≠ []) :
    (compensate g count).onPath p = g.pending count u + (p.map count).sum := by
  induction p generalizing u with
  | nil => exact absurd rfl hp.ne_nil
  | cons w q ih =>
    rcases hp.eq_single_or_cons with ⟨-, rfl⟩ | ⟨v, q', hq', hv, hq⟩
    · exact absurd he hu
    · cases hq'
      by_cases hve : g.succs v = []
      · -- the path ends here
        rcases hq.eq_single_or_cons with ⟨rfl, rfl⟩ | ⟨y, _, -, hy, -⟩
        · simp only [onPath, hg.amount_to_end hv hve, List.map_cons, List.map_nil, List.sum_cons,
            List.sum_nil]
          grind
        · rw [hve] at hy
          simp at hy
      · have hrest := ih hq hve
        have hlaw := hg.amount_add_pending count hv hve
        obtain ⟨q'', rfl⟩ : ∃ q'', q = v :: q'' := by
          cases q with
          | nil => exact absurd rfl hq.ne_nil
          | cons w q'' => exact ⟨q'', by rw [Option.some.inj hq.head]⟩
        rw [onPath, hrest, List.map_cons, List.sum_cons]
        grind

/-- Of several blocks the entry is not an end. -/
theorem succs_entry_ne_nil (hsize : 2 ≤ g.size) : g.succs g.entry ≠ [] := by
  -- a second block is reached from the entry
  have h1 : (1 : BlockId) ∈ g.ids := Shape.mem_ids.2 ⟨by decide, by lia⟩
  obtain ⟨q, hq, -⟩ := hg.exists_ascending h1
  rcases hq.eq_single_or_cons with ⟨-, h⟩ | ⟨v, -, -, hv, -⟩
  · exact absurd h (by simp [Shape.entry])
  · exact List.ne_nil_of_mem hv

/-- Along a path from the entry to an end nothing stays pending. -/
theorem onPath_compensate (hsize : 2 ≤ g.size) {p : List BlockId} {e : BlockId}
    (hp : g.IsPath g.entry p e) (he : g.succs e = []) :
    (compensate g count).onPath p = (p.map count).sum := by
  rw [hg.onPath_eq hp he (hg.succs_entry_ne_nil hsize), hg.pending_entry, zero_add]

end Checked
end Graph

/-- **Conservation of compensation.**  On every path from the entry to an end,
however often it takes a back edge, the amounts on the edges add up to the
accesses of the blocks, modulo 2^64. -/
theorem compensate_conserves {g : Graph} (hg : g.Accepted) (hsize : 2 ≤ g.size)
    (count : AccessCounts) {p : List BlockId} {e : BlockId} (hp : g.IsPath g.entry p e)
    (he : g.succs e = []) :
    (compensate g count).onPath p = (p.map count).sum :=
  hg.checked.onPath_compensate hsize hp he

/-- A path that goes round a loop of three accesses twice before it leaves. -/
theorem compensate_conserves_twice_round :
    let g := Graph.drawn 4 [(0, 1), (1, 2), (2, 1), (2, 3)] (by decide +kernel)
    (compensate g fun b => Int64.ofInt b).onPath [0, 1, 2, 1, 2, 3] = 9 := by
  intro g
  have h := compensate_conserves (g := g) (Graph.accepted_drawn _) (by decide +kernel)
    (fun b => Int64.ofInt b) (p := [0, 1, 2, 1, 2, 3]) (e := 3)
    ⟨by decide +kernel, by decide +kernel, by decide +kernel⟩ (by decide +kernel)
  rw [h]
  decide +kernel

end ConstantTime
