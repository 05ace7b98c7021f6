/-
# Blocks that need no twins

"Single-Path Constant-Time Transformation Engine", §12.5.

Under the opposite predicates every access gets a twin, except in the blocks of a
pseudo-root that are known to execute a fixed number of times before the end.  They
do, on all paths that keep the bounds of the loops (`skipped_fixed`): the bound of a
constant loop is one number of visits of its header, and a formula is then one
number of visits of the block.

This number may be none.  A loop whose bound allows one visit of the header, or none,
is entered and left without going round, and a block that is only passed on the way
round is not executed.  So a skipped block is executed at least once if and only if
some path to the end passes it and goes round no loop but those with a bound of two
visits or more.  That such a path is enough is seen by counting on this path, which
need not keep any bound: what is visited there has a formula that is not zero when
the other loops are gone round (`Visits.times_pos`).
-/

import ConstantTime.Proofs.Access.Bracket
import ConstantTime.Proofs.Dominance.FixedVisits
import ConstantTime.Proofs.Run.Dossier

namespace ConstantTime

/-- A formula that is not zero stays so if loops that are gone round still are. -/
theorem Visits.times_pos {N M : BlockId → Nat} (h : ∀ b, 2 ≤ M b → 2 ≤ N b) {v : Visits}
    (hv : 0 < v.times M) : 0 < v.times N := by
  induction v with
  | once => exact Nat.one_pos
  | never => exact absurd hv (lt_irrefl 0)
  | looped b round last ihround ihlast =>
    rw [times] at hv ⊢
    rcases Nat.add_pos_iff_pos_or_pos.1 hv with hfull | hlast
    · have hb := h b (by have := Nat.pos_of_mul_pos_right hfull; omega)
      exact Nat.add_pos_left (Nat.mul_pos (by omega) (ihround (Nat.pos_of_mul_pos_left hfull))) _
    · exact Nat.add_pos_right _ (ihlast hlast)
  | eachRound b round ih => exact ih hv

namespace Graph

/-- The path goes back to the header `h` over a back edge. -/
def Repeats (g : Graph) (p : List BlockId) (h : BlockId) : Prop :=
  ∃ u, [u, h] <:+: p ∧ g.isBackEdge u h = true

variable {g : Graph} {bound : LoopBounds} {constant : ConstantBounds} {l : LoopId} {h : BlockId}
  {p q stay : List BlockId} {a b e : BlockId}

namespace Checked

variable (hg : g.Checked)
include hg

/-- Without going round, a stay in a loop visits its header once. -/
theorem count_header_le_one (hp : g.IsPath a p b) (hsub : stay <:+: p)
    (hin : ∀ x ∈ stay, g.Within l x) (hrepeats : ¬ g.Repeats p (g.header l)) :
    stay.count (g.header l) ≤ 1 := by
  by_contra htwo
  -- the second visit comes over an edge from inside the loop
  have hsplit : [g.header l, g.header l].Sublist stay :=
    List.replicate_sublist_iff.2 (show 2 ≤ stay.count (g.header l) by omega)
  obtain ⟨front, back, rfl, hfront, hback⟩ := List.cons_sublist_iff.1 hsplit
  obtain ⟨ys, zs, rfl⟩ := List.append_of_mem (List.singleton_sublist.1 hback)
  obtain ⟨xs, u, hlast⟩ : ∃ xs u, front ++ ys = xs ++ [u] := by
    obtain ⟨xs, u, he⟩ := (List.eq_nil_or_concat (front ++ ys)).resolve_left
      (List.ne_nil_of_mem (List.mem_append_left ys hfront))
    exact ⟨xs, u, by rw [he, List.concat_eq_append]⟩
  have hstay : front ++ (ys ++ g.header l :: zs) = xs ++ [u, g.header l] ++ zs := by
    rw [← List.append_assoc, hlast]
    simp
  rw [hstay] at hsub hin
  have hinfix : [u, g.header l] <:+: p := (List.infix_append xs _ zs).trans hsub
  have hu : g.Within l u := hin u (by simp)
  refine hrepeats ⟨u, hinfix, ?_⟩
  exact hg.isBackEdge_iff.2 (hg.retreats_of_within hu (hp.succ_of_infix hinfix))

/-- **Going round a loop** makes two visits of its header in one stay, which its bound has
to allow. -/
theorem two_le_of_repeats (hp : g.IsPath g.entry p b) (hkeeps : g.KeepsBounds bound p)
    (hrepeats : g.Repeats p h) : 2 ≤ (bound h).max.toInt := by
  obtain ⟨u, ⟨xs, ys, rfl⟩, hback⟩ := hrepeats
  obtain ⟨l, L, hL, rfl⟩ := hg.exists_loop_of_retreats (hg.isBackEdge_iff.1 hback)
  have hl := (List.getElem?_eq_some_iff.1 hL).1
  have hretreats := hg.isBackEdge_iff.1 hback
  rw [← header_eq hL] at hretreats hp hkeeps ⊢
  -- the stay around the edge, before it and after it
  obtain ⟨before, first, hbefore, hne, hfirst, hout⟩ :=
    Shape.IsPath.exists_stretch_to (P := g.Within l) (hg.within_of_retreats hl hretreats) xs
  obtain ⟨last, after, hafter, hne', hlast, hout'⟩ :=
    Shape.IsPath.exists_stretch_from (P := g.Within l) (hg.within_header hl) ys
  have hsplit : xs ++ [u, g.header l] ++ ys = before ++ (first ++ last) ++ after := by
    calc xs ++ [u, g.header l] ++ ys = (xs ++ [u]) ++ (g.header l :: ys) := by simp
      _ = before ++ (first ++ last) ++ after := by rw [hbefore, hafter]; simp
  rw [hsplit] at hp hkeeps
  -- it is entered at the header, and comes back to it
  have hpath : g.IsPath g.entry (before ++ first ++ (last ++ after)) b := by simpa using hp
  have henter := hg.header_mem_stay hpath hne hfirst hout
  have hreturn : g.header l ∈ last := by
    obtain ⟨y, rest, rfl⟩ := List.exists_cons_of_ne_nil hne'
    obtain ⟨rfl, -⟩ := List.cons.inj hafter
    exact List.mem_cons_self
  have hcount : 2 ≤ (first ++ last).count (g.header l) := by
    rw [List.count_append]
    exact Nat.add_le_add (List.count_pos_iff.2 henter) (List.count_pos_iff.2 hreturn)
  have hmax := (hkeeps l before (first ++ last) after rfl (by simp [hne])
    (fun b hb => (List.mem_append.1 hb).elim (hfirst b) (hlast b)) hout hout').2
  omega

end Checked

/-- On a path that keeps its bounds the header of a constant loop is visited as often as
its bound says, at least once. -/
theorem KeepsBounds.regular (hconst : ∀ h, constant h = true → (bound h).min = (bound h).max)
    (hkeeps : g.KeepsBounds bound p) :
    g.Regular constant (fun h => (max (bound h).min.toInt 1).toNat)
      (fun h => (max (bound h).min.toInt 1).toNat) p := by
  rintro l hl x stay y ⟨xs, ys, rfl⟩ hx hne hin hy
  obtain ⟨hleast, hmost⟩ := hkeeps l (xs ++ [x]) stay (y :: ys) (by simp) hne hin
    (by simpa using hx) (by simpa using hy)
  rw [← hconst _ hl] at hmost
  dsimp only
  omega

/-- Another path visits a header once where it does not go round, and at most as often as
it is long. -/
theorem Checked.regular_of_repeats (hg : g.Checked) (hp : g.IsPath a p b)
    (hconst : ∀ h, constant h = true → (bound h).min = (bound h).max)
    (hrepeats : ∀ h, g.Repeats p h → 2 ≤ (bound h).max.toInt) :
    g.Regular constant (fun _ => 0)
      (fun h => if (bound h).min.toInt < 2 then 1 else p.length) p := by
  rintro l hl x stay y ⟨xs, ys, rfl⟩ hx hne hin hy
  have hsub : stay <:+: xs ++ x :: (stay ++ [y]) ++ ys := ⟨xs ++ [x], [y] ++ ys, by simp⟩
  refine ⟨Nat.zero_le _, ?_⟩
  dsimp only
  split
  · next hmax =>
    rw [hconst _ hl] at hmax
    exact hg.count_header_le_one hp hsub hin fun h => absurd (hrepeats _ h) (by omega)
  · exact List.count_le_length.trans hsub.length_le

/-- **A constant-loop dominator of the end executes a fixed number of times**, and at least
once if and only if some path to the end passes it and goes round loops only whose
bound allows it. -/
theorem Checked.exists_count (hg : g.Checked) {limit : Int64} {endOnly : Bool} {m : DominatorTable}
    (hconst : ∀ h, constant h = true → (bound h).min = (bound h).max)
    (hm : g.constantLoopDominators constant limit endOnly g.entry = .ok m) (he : g.succs e = [])
    (hb : b ∈ m.of e) :
    ∃ k, ∀ p, g.IsPath g.entry p e → g.KeepsBounds bound p → p.count b = k ∧
      (0 < k ↔ ∃ q, g.IsPath g.entry q e ∧ b ∈ q ∧
        ∀ h, g.Repeats q h → 2 ≤ (bound h).max.toInt) := by
  obtain ⟨v, hv⟩ := exists_visits hg hm (hg.not_within_end he) hb
  refine ⟨v.times fun h => (max (bound h).min.toInt 1).toNat, fun p hp hkeeps => ?_⟩
  obtain ⟨⟨hleast, hmost⟩, -⟩ := hv _ _ p hp (hkeeps.regular hconst)
  have hcount := Nat.le_antisymm hmost hleast
  refine ⟨hcount, fun hpos => ?_, ?_⟩
  · exact ⟨p, hp, List.count_pos_iff.1 (hcount ▸ hpos), fun h => hg.two_le_of_repeats hp hkeeps⟩
  · rintro ⟨q, hq, hbq, hrepeats⟩
    have hmost := (hv _ _ q hq (hg.regular_of_repeats hq hconst hrepeats)).1.2
    refine Visits.times_pos (fun h hh => ?_) ((List.count_pos_iff.2 hbq).trans_le hmost)
    split at hh <;> omega

end Graph

theorem Dossier.bound_of_isConstant {d : Dossier} {h : BlockId} (hc : d.isConstant h = true) :
    (d.bound h).min = (d.bound h).max := by
  unfold isConstant at hc
  unfold bound OrderedMap.getD
  cases hb : d.bounds.get? h with
  | none => simp [hb] at hc
  | some b => simpa [hb, Bound.isConstant] using hc

/-- **A block that needs no twins executes a fixed number of times.**  Let `b` be a block
whose accesses the whole analysis of a function leaves out of the opposite cost.  All paths
from the entry to the end that keep the bounds of the loops visit `b` equally often; they
visit it at all if and only if some path from the entry to the end passes `b` and goes
round only loops whose bound is at least two. -/
theorem skipped_fixed {f : FunctionDescription} {config : Config} {d : Dossier} {g : Graph}
    {b e : BlockId} (hd : d = (Pipeline.standard.run f config).dossier) (hg : d.graph = some g)
    (he : g.end? = some e) (hb : (Pass.accessProblem d g).isSkipped b = true) :
    ∃ k, ∀ p, g.IsPath g.entry p e → g.KeepsBounds d.bound p → p.count b = k ∧
      (0 < k ↔ ∃ q, g.IsPath g.entry q e ∧ b ∈ q ∧
        ∀ h, g.Repeats q h → 2 ≤ (d.bound h).max.toInt) := by
  have hfollows : d.Follows f := hd ▸ Pipeline.follows_standard f config
  have haccepted := FunctionDescription.graph_accepted (hfollows.graph g hg).1
  -- the block is listed for the end
  obtain ⟨-, hb⟩ := Bool.and_eq_true_iff.1 hb
  obtain ⟨doms, hdoms, hb⟩ := (Option.any_eq_true _ _).1 hb
  simp only [Pass.accessProblem, he, Option.bind_some, Option.map_eq_some_iff] at hdoms
  obtain ⟨m, hm, rfl⟩ := hdoms
  obtain ⟨g', hg', hdominators⟩ := hfollows.constantLoop m hm
  cases hg.symm.trans hg'
  exact haccepted.checked.exists_count (fun h => Dossier.bound_of_isConstant) hdominators
    (Shape.end?_eq_some he).2 (of_decide_eq_true hb)

/-- A pseudo-root with a loop whose bound allows one visit of its header `h`: the body
`b` leads back to the header only. -/
def FunctionDescription.onceRound : FunctionDescription where
  name := "f"
  pseudoRoot := true
  blocks := some [some { name := "a", succs := ["h"], accesses := some 0 },
    some { name := "h", succs := ["b", "e"], accesses := some 1, bound := some ⟨1, 1⟩ },
    some { name := "b", succs := ["h"], accesses := some 1 },
    some { name := "e", accesses := some 0 }]

/-- What the whole analysis knows of `onceRound`. -/
def Dossier.onceRound : Dossier := (Pipeline.standard.run .onceRound {}).dossier

/-- The graph of `onceRound`: the blocks `a`, `h`, `b` and `e` are numbered in this order. -/
def Graph.onceRound : Graph := Dossier.onceRound.graph.get (by decide +kernel)

/-- The access in the body of `onceRound` gets no twin, but no path that keeps the bound
executes the body: it could only be executed by going round the loop. -/
theorem skipped_fixed_once_round :
    Dossier.onceRound.graph = some .onceRound ∧ Graph.onceRound.end? = some 3 ∧
      (Pass.accessProblem .onceRound .onceRound).isSkipped 2 = true ∧
      (∀ p, Graph.onceRound.IsPath Graph.onceRound.entry p 3 →
        Graph.onceRound.KeepsBounds Dossier.onceRound.bound p → p.count 2 = 0) ∧
      ¬ ∃ q, Graph.onceRound.IsPath Graph.onceRound.entry q 3 ∧ 2 ∈ q ∧
        ∀ h, Graph.onceRound.Repeats q h → 2 ≤ (Dossier.onceRound.bound h).max.toInt := by
  have hg : Dossier.onceRound.graph = some .onceRound := (Option.some_get _).symm
  have hend : Graph.onceRound.end? = some 3 := by decide +kernel
  have hskipped : (Pass.accessProblem .onceRound .onceRound).isSkipped 2 = true := by
    decide +kernel
  have hd : Dossier.onceRound = (Pipeline.standard.run .onceRound {}).dossier := rfl
  obtain ⟨k, hk⟩ := skipped_fixed hd hg hend hskipped
  -- entering and leaving the loop keeps its bound
  have hpath : Graph.onceRound.IsPath Graph.onceRound.entry [0, 1, 3] 3 :=
    ⟨by decide +kernel, by decide +kernel, by decide +kernel⟩
  obtain ⟨hzero, hiff⟩ := hk [0, 1, 3] hpath (by decide +kernel)
  obtain rfl : k = 0 := hzero.symm
  exact ⟨hg, hend, hskipped, fun p hp hkeeps => (hk p hp hkeeps).1,
    fun hq => lt_irrefl 0 (hiff.2 hq)⟩

end ConstantTime
