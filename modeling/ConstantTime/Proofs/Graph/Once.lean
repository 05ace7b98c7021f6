/-
# Paths that take no back edge twice

A path on which no block is met twice takes no back edge that leads back to a
block on every path to it (`Checked.not_retreats_of_nodup`), and in particular
none if it starts at the entry.  So the first block that a path from the entry
meets again is a header, come to over a back edge, and the way round from it takes
no other back edge.

Paths without a repeated back edge are bounded in length
(`Checked.length_le_of_once`), and they are enough to know how paths to the ends
add up: if those all add up to the same total, then every way round adds nothing,
and so does every path (`Checked.weigh_eq_of_once`).

A search through such paths is bounded by a budget that each step of it spends
from; `search_cases` says what the search has seen when some of it is left.
-/

import ConstantTime.Proofs.Graph.Loops
import Mathlib.Algebra.BigOperators.Group.List.Basic

namespace ConstantTime

/-! ### The edges of a path -/

/-- The edges that a path takes. -/
def edgesOn : List BlockId → List FlowEdge
  | u :: v :: rest => ⟨u, v⟩ :: edgesOn (v :: rest)
  | _ => []

section Edges

variable {u v x : BlockId} {p q : List BlockId} {e : FlowEdge}

@[simp] theorem edgesOn_nil : edgesOn [] = [] := rfl

@[simp] theorem edgesOn_singleton : edgesOn [x] = [] := rfl

@[simp] theorem edgesOn_cons_cons : edgesOn (u :: v :: p) = ⟨u, v⟩ :: edgesOn (v :: p) := rfl

/-- A path cut at a block. -/
theorem edgesOn_append : edgesOn (p ++ x :: q) = edgesOn (p ++ [x]) ++ edgesOn (x :: q) := by
  induction p with
  | nil => simp
  | cons y p ih => cases p <;> simp_all

theorem edgesOn_snoc (h : q.getLast? = some u) : edgesOn (q ++ [v]) = edgesOn q ++ [⟨u, v⟩] := by
  obtain ⟨q, rfl⟩ : ∃ r, q = r ++ [u] := List.getLast?_eq_some_iff.1 h
  rw [List.append_assoc, List.singleton_append, edgesOn_append]
  rfl

theorem map_target_edgesOn (p : List BlockId) : (edgesOn p).map FlowEdge.target = p.tail := by
  induction p with
  | nil => rfl
  | cons x p ih => cases p <;> simp_all

theorem nodup_edgesOn (h : p.tail.Nodup) : (edgesOn p).Nodup :=
  .of_map FlowEdge.target (map_target_edgesOn p ▸ h)

theorem target_mem_tail (h : e ∈ edgesOn p) : e.target ∈ p.tail :=
  map_target_edgesOn p ▸ List.mem_map_of_mem h

theorem mem_edgesOn : ⟨u, v⟩ ∈ edgesOn p ↔ ∃ q r, p = q ++ u :: v :: r := by
  constructor
  · intro h
    induction p with
    | nil => simp at h
    | cons x p ih =>
      cases p with
      | nil => simp at h
      | cons y p =>
        rw [edgesOn_cons_cons, List.mem_cons] at h
        rcases h with h | h
        · cases h
          exact ⟨[], p, rfl⟩
        · obtain ⟨q, r, he⟩ := ih h
          exact ⟨x :: q, r, by rw [he, List.cons_append]⟩
  · rintro ⟨q, r, rfl⟩
    rw [edgesOn_append]
    simp

theorem mem_edgesOn_mono (hq : q <:+: p) (h : e ∈ edgesOn q) : e ∈ edgesOn p := by
  obtain ⟨before, after, rfl⟩ := hq
  obtain ⟨u, v⟩ := e
  obtain ⟨q, r, rfl⟩ := mem_edgesOn.1 h
  exact mem_edgesOn.2 ⟨before ++ q, r ++ after, by simp⟩

/-- **The first block that is met again.** -/
theorem exists_first_again (h : ¬ p.Nodup) :
    ∃ q x r s, p = q ++ x :: r ++ x :: s ∧ (q ++ x :: r).Nodup := by
  induction p using List.reverseRecOn with
  | nil => exact absurd List.nodup_nil h
  | append_singleton p y ih =>
    by_cases hp : p.Nodup
    · have hy : y ∈ p := by
        by_contra hy
        refine h (List.nodup_append.2 ⟨hp, List.nodup_singleton y, fun a ha b hb => ?_⟩)
        rw [List.mem_singleton.1 hb]
        exact fun hab => hy (hab ▸ ha)
      obtain ⟨q, r, rfl⟩ := List.append_of_mem hy
      exact ⟨q, y, r, [], rfl, hp⟩
    · obtain ⟨q, x, r, s, rfl, hnodup⟩ := ih hp
      exact ⟨q, x, r, s ++ [y], by simp, hnodup⟩

end Edges

/-! ### Weights -/

section Weights

variable {A : Type} [AddCommGroup A] (w : BlockId → BlockId → A) {p q : List BlockId} {x : BlockId}

/-- The weights of the edges that a path takes, added up. -/
def weigh (p : List BlockId) : A := ((edgesOn p).map fun e => w e.source e.target).sum

theorem weigh_append : weigh w (p ++ x :: q) = weigh w (p ++ [x]) + weigh w (x :: q) := by
  simp only [weigh]
  rw [edgesOn_append, List.map_append, List.sum_append]

/-- A path cut before and after a way round. -/
theorem weigh_detour {r s : List BlockId} : weigh w (q ++ x :: r ++ x :: s) =
    weigh w (q ++ [x]) + (weigh w (x :: r ++ [x]) + weigh w (x :: s)) := by
  have hinner : weigh w (x :: (r ++ x :: s)) = weigh w (x :: r ++ [x]) + weigh w (x :: s) :=
    weigh_append w (p := x :: r)
  rw [List.append_assoc, List.cons_append, weigh_append, hinner]

end Weights

/-! ### Back edges -/

namespace Graph

/-- The back edges that a path takes. -/
def backEdgesOn (g : Graph) (p : List BlockId) : List FlowEdge :=
  (edgesOn p).filter fun e => g.isBackEdge e.source e.target

/-- The back edges of a graph. -/
def backEdges (g : Graph) : List FlowEdge :=
  g.loops.flatMap fun l => l.latches.map fun u => ⟨u, l.header⟩

variable {g : Graph} {u v x y h : BlockId} {p q : List BlockId}

theorem backEdgesOn_append :
    g.backEdgesOn (p ++ x :: q) = g.backEdgesOn (p ++ [x]) ++ g.backEdgesOn (x :: q) := by
  rw [backEdgesOn, edgesOn_append, List.filter_append]
  rfl

theorem backEdgesOn_snoc (hq : q.getLast? = some u) : g.backEdgesOn (q ++ [v]) =
    g.backEdgesOn q ++ if g.isBackEdge u v then [⟨u, v⟩] else [] := by
  rw [backEdgesOn, edgesOn_snoc hq, List.filter_append]
  cases hb : g.isBackEdge u v <;> simp [backEdgesOn, hb]

theorem length_backEdges :
    g.backEdges.length = g.loops.foldl (fun n l => n + l.latches.length) 0 := by
  rw [backEdges, List.length_flatMap]
  simp [List.sum_eq_foldl, List.foldl_map]

namespace Checked

variable (hg : g.Checked)
include hg

/-- **No way back without a repetition.**  A path that meets no block twice takes no
back edge to a block that its start is on every path to. -/
theorem not_retreats_of_nodup (hp : g.IsPath h p x) (hnodup : p.Nodup)
    (he : ⟨u, v⟩ ∈ edgesOn p) (hv : g.OnEveryPath h v) : ¬ g.Retreats u v := by
  intro hr
  obtain ⟨q, r, rfl⟩ := mem_edgesOn.1 he
  obtain ⟨hq, -⟩ := hp.of_append
  -- the block is not on the way to its predecessor
  have hvq : v ∉ q ++ [u] := by
    intro hmem
    rw [List.append_cons] at hnodup
    exact (List.nodup_append.1 hnodup).2.2 v hmem v List.mem_cons_self rfl
  have hvh : v ≠ h := fun hvh => hvq (hvh ▸ List.mem_of_mem_head? (by simp [hq.head]))
  -- nor is it on a way from the entry to the start
  obtain ⟨a, ha, hasc, -⟩ := hg.exists_ascending (hg.wellFormed.isBlock_of_mem_succs hr.1)
  obtain ⟨b, c, rfl, hb, hc⟩ := ha.split (hv a ha)
  have hvb : v ∉ b ++ [h] := by
    have hlast : v ∈ c := by
      have := hc.last_mem
      rw [List.mem_cons] at this
      exact this.resolve_left hvh
    rw [List.append_cons] at hasc
    exact fun hmem => Nat.lt_irrefl _ ((List.pairwise_append.1 hasc).2.2 v hmem v hlast)
  have hmem := hg.onEveryPath_of_retreats hr _ (hb.append hq)
  rcases List.mem_append.1 hmem with hmem | hmem
  · exact hvb hmem
  · exact hvq (List.mem_of_mem_tail hmem)

/-- A path from the entry that meets no block twice takes no back edge. -/
theorem backEdgesOn_eq_nil (hp : g.IsPath g.entry p x) (hnodup : p.Nodup) :
    g.backEdgesOn p = [] := by
  refine List.filter_eq_nil_iff.2 fun e he hb => ?_
  exact hg.not_retreats_of_nodup hp hnodup he
    (fun q hq => List.mem_of_mem_head? (by simp [hq.head])) (hg.isBackEdge_iff.1 hb)

/-- Places do not fall on the way. -/
theorem place_le_of_forward (hp : g.IsPath h p x) (hforward : g.backEdgesOn p = []) :
    g.place h ≤ g.place x := by
  induction hn : p.length generalizing p x with
  | zero => exact absurd (List.length_eq_zero_iff.1 hn) hp.ne_nil
  | succ n ih =>
    rcases hp.eq_single_or_snoc with ⟨-, rfl⟩ | ⟨u, q, rfl, hs, hq⟩
    · exact Nat.le_refl _
    rw [backEdgesOn_snoc hq.last, List.append_eq_nil_iff] at hforward
    have hle := ih hq hforward.1 (by simpa using hn)
    have hlt : ¬ g.place x ≤ g.place u := fun hle => by
      have : g.isBackEdge u x = true := hg.isBackEdge_iff.2 ⟨hs, hle⟩
      simp [this] at hforward
    omega

theorem mem_backEdges_of_isBackEdge (hb : g.isBackEdge u v = true) : ⟨u, v⟩ ∈ g.backEdges := by
  obtain ⟨l, L, hL, rfl⟩ := hg.exists_loop_of_retreats (hg.isBackEdge_iff.1 hb)
  refine List.mem_flatMap.2 ⟨L, List.mem_of_getElem? hL, List.mem_map.2 ⟨u, ?_, rfl⟩⟩
  exact (hg.mem_latches hL).2 (hg.isBackEdge_iff.1 hb)

/-- Between two back edges a path climbs. -/
theorem length_le (hp : g.IsPath g.entry p x) :
    p.length ≤ (g.backEdgesOn p).length * g.size + g.place x + 1 := by
  refine hp.snoc_induction (motive := fun p x =>
    p.length ≤ (g.backEdgesOn p).length * g.size + g.place x + 1) (by simp) ?_
  intro p u v hp hs ih
  rw [backEdgesOn_snoc hp.last, List.length_append, List.length_append, List.length_singleton]
  cases hb : g.isBackEdge u v with
  | false =>
    have hlt : ¬ g.place v ≤ g.place u := fun hle => by
      rw [hg.isBackEdge_iff.2 ⟨hs, hle⟩] at hb
      cases hb
    simp only [Bool.false_eq_true, if_false, List.length_nil, Nat.add_zero]
    omega
  | true =>
    have hu := hg.place_lt_size (Shape.mem_ids_of_mem_succs hs)
    simp only [if_true, List.length_singleton, Nat.succ_mul]
    omega

/-- **Paths without a repeated back edge are not long.** -/
theorem length_le_of_once (hp : g.IsPath g.entry p x) (hx : x ∈ g.ids)
    (honce : (g.backEdgesOn p).Nodup) : p.length ≤ (g.backEdges.length + 1) * g.size := by
  have hsub : g.backEdgesOn p ⊆ g.backEdges := fun e he =>
    hg.mem_backEdges_of_isBackEdge (List.mem_filter.1 he).2
  have hcount := Nat.mul_le_mul_right g.size (honce.length_le_of_subset hsub)
  have hlen := hg.length_le hp
  have hplace := hg.place_lt_size hx
  rw [Nat.succ_mul]
  omega

end Checked

/-! ### Totals -/

section Totals

variable {A : Type} [AddCommGroup A] {w : BlockId → BlockId → A} {t : A} {r s : List BlockId}
  {e : BlockId}

/-- The paths to the ends that take no back edge twice have the same total. -/
def AddUpOnce (g : Graph) (w : BlockId → BlockId → A) (t : A) : Prop :=
  ∀ p e, g.IsPath g.entry p e → g.succs e = [] → (g.backEdgesOn p).Nodup → weigh w p = t

variable (hg : g.Checked)
include hg

/-- A way round takes one back edge. -/
theorem Checked.backEdgesOn_round (hp : g.IsPath g.entry (q ++ x :: r) u)
    (hnodup : (q ++ x :: r).Nodup) (hs : x ∈ g.succs u) :
    g.backEdgesOn (x :: r ++ [x]) = [⟨u, x⟩] := by
  have hnone := hg.backEdgesOn_eq_nil hp hnodup
  rw [backEdgesOn_append, List.append_eq_nil_iff] at hnone
  obtain ⟨-, hr⟩ := hp.of_append
  have hback : g.isBackEdge u x = true :=
    hg.isBackEdge_iff.2 ⟨hs, hg.place_le_of_forward hr hnone.2⟩
  rw [backEdgesOn_snoc hr.last, hnone.2, hback]
  rfl

/-- **A way round adds nothing**: with and without it a path comes to the same end. -/
theorem Checked.weigh_round (h : g.AddUpOnce w t) (hp : g.IsPath g.entry (q ++ x :: r) u)
    (hnodup : (q ++ x :: r).Nodup) (hs : x ∈ g.succs u) (hend : g.IsPath x s e)
    (he : g.succs e = []) : weigh w (x :: r ++ [x]) = 0 := by
  obtain ⟨f, hf, hfnodup, -⟩ := hend.exists_nodup
  obtain ⟨f, rfl⟩ := hf.eq_cons
  obtain ⟨hq, hr⟩ := hp.of_append
  have hround : g.IsPath x (x :: r ++ [x]) x := hr.snoc hs
  have hqnone : g.backEdgesOn (q ++ [x]) = [] := by
    have := hg.backEdgesOn_eq_nil hp hnodup
    rw [backEdgesOn_append, List.append_eq_nil_iff] at this
    exact this.1
  have honce : (g.backEdgesOn (x :: f)).Nodup := (nodup_edgesOn hfnodup.tail).filter _
  have hdirect : weigh w (q ++ x :: f) = t := by
    have hpath : g.IsPath g.entry (q ++ x :: f) e := by simpa using hq.append hf
    refine h _ _ hpath he ?_
    rw [backEdgesOn_append, hqnone, List.nil_append]
    exact honce
  have hdetour : weigh w (q ++ x :: r ++ x :: f) = t := by
    have hpath : g.IsPath g.entry (q ++ x :: r ++ x :: f) e := by
      simpa using (hq.append hround).append hf
    have hqr : g.backEdgesOn (q ++ x :: r ++ [x]) = [⟨u, x⟩] := by
      rw [List.append_assoc, List.cons_append, backEdgesOn_append, hqnone, List.nil_append,
        ← List.cons_append, hg.backEdgesOn_round hp hnodup hs]
    refine h _ _ hpath he ?_
    rw [backEdgesOn_append, hqr, List.singleton_append]
    refine List.nodup_cons.2 ⟨fun hmem => ?_, honce⟩
    -- the path to the end does not come back to where the way round starts
    exact (List.nodup_cons.1 hfnodup).1 (target_mem_tail (List.mem_filter.1 hmem).1)
  rw [weigh_append] at hdirect
  rw [weigh_detour] at hdetour
  have hsum := hdetour.trans hdirect.symm
  rwa [add_right_inj, add_eq_right] at hsum

/-- **All paths to the ends have the total** that those without a repeated back edge
have. -/
theorem Checked.weigh_eq_of_once (h : g.AddUpOnce w t) (hp : g.IsPath g.entry p e)
    (he : g.succs e = []) : weigh w p = t := by
  induction hn : p.length using Nat.strong_induction_on generalizing p with
  | _ n ih =>
    subst hn
    by_cases honce : (g.backEdgesOn p).Nodup
    · exact h p e hp he honce
    -- cut out the way round to the first block that is met again
    have hnodup : ¬ p.Nodup := fun hnodup => honce ((nodup_edgesOn hnodup.tail).filter _)
    obtain ⟨q, x, r, s, rfl, hqr⟩ := exists_first_again hnodup
    obtain ⟨hfirst, hend⟩ := hp.of_append
    obtain ⟨u, hqu, hs⟩ : ∃ u, g.IsPath g.entry (q ++ x :: r) u ∧ x ∈ g.succs u := by
      rcases hfirst.eq_single_or_snoc with ⟨hone, -⟩ | ⟨u, q', hsplit, hs, hq'⟩
      · have := congrArg List.length hone
        simp only [List.length_append, List.length_cons, List.length_nil] at this
        omega
      · rw [List.append_cancel_right hsplit]
        exact ⟨u, hq', hs⟩
    have hround := hg.weigh_round h hqu hqr hs hend he
    have hshort : weigh w (q ++ x :: s) = t := by
      have hpath : g.IsPath g.entry (q ++ x :: s) e := by
        simpa using hqu.of_append.1.append hend
      exact ih _ (by simp only [List.length_append, List.length_cons]; omega) hpath rfl
    calc weigh w (q ++ x :: r ++ x :: s)
        = weigh w (q ++ [x]) + (weigh w (x :: r ++ [x]) + weigh w (x :: s)) := weigh_detour w
      _ = weigh w (q ++ x :: s) := by rw [hround, zero_add, ← weigh_append]
      _ = t := hshort

end Totals
end Graph

/-! ### Searching with a budget -/

section Search

variable {α β : Type}

/-- What a search has seen that tries one thing after another until it has found
something: it spends from the budget, what it finds it has found at one of them, and
if it finds nothing it has tried all that are not skipped, each within the budget. -/
theorem search_cases (skip : α → Bool) (f : Nat → α → Nat × Option β)
    (hspend : ∀ n a, (f n a).1 ≤ n) (xs : List α) (n : Nat) :
    let result := xs.foldl (fun acc a => if acc.2.isSome || skip a then acc else f acc.1 a)
      (n, none)
    result.1 ≤ n ∧
      (∀ found, result.2 = some found → ∃ a ∈ xs, skip a = false ∧
        ∃ m ≤ n, (f m a).2 = some found) ∧
      (result.2 = none → ∀ a ∈ xs, skip a = false →
        ∃ m ≤ n, (f m a).2 = none ∧ result.1 ≤ (f m a).1) := by
  induction xs using List.reverseRecOn with
  | nil => simp
  | append_singleton xs a ih =>
    rw [List.foldl_append, List.foldl_cons, List.foldl_nil]
    set before := xs.foldl (fun acc a => if acc.2.isSome || skip a then acc else f acc.1 a)
      (n, none) with hbefore
    obtain ⟨hle, hfound, hnone⟩ := ih
    by_cases hstop : (before.2.isSome || skip a) = true
    · rw [if_pos hstop]
      refine ⟨hle, fun found h => ?_, fun h b hb hskip => ?_⟩
      · obtain ⟨b, hb, rest⟩ := hfound found h
        exact ⟨b, List.mem_append_left _ hb, rest⟩
      · rcases List.mem_append.1 hb with hb | hb
        · exact hnone h b hb hskip
        · rw [List.mem_singleton.1 hb] at hskip
          simp [h, hskip] at hstop
    · rw [if_neg hstop]
      simp only [Bool.or_eq_true, not_or, Bool.not_eq_true, Option.isSome_eq_false_iff,
        Option.isNone_iff_eq_none] at hstop
      have hspent := hspend before.1 a
      refine ⟨hspent.trans hle, fun found h => ?_, fun h b hb hskip => ?_⟩
      · exact ⟨a, by simp, hstop.2, before.1, hle, h⟩
      · rcases List.mem_append.1 hb with hb | hb
        · obtain ⟨m, hm, hnb, hmb⟩ := hnone hstop.1 b hb hskip
          exact ⟨m, hm, hnb, hspent.trans hmb⟩
        · rw [List.mem_singleton.1 hb]
          exact ⟨before.1, hle, h, Nat.le_refl _⟩

end Search
end ConstantTime
