/-
# What checking compensation decides

"Single-Path Constant-Time Transformation Engine", §12.5.

The check walks the paths to the ends that take no back edge twice.  What it
reports is such a path that does not add up (`walk_sound`); if it reports nothing
and its budget lasts, every such path adds up (`walk_complete`), since none of them
is longer than the walk goes.  Accesses less compensation are a weight on the edges,
and so the paths that repeat back edges add up as well (`verify_iff_conserves`): the
check decides conservation on all paths, for any amounts.
-/

import ConstantTime.Proofs.Access.Conservation
import ConstantTime.Proofs.Graph.Once

namespace ConstantTime
namespace EdgeAmounts

variable {c : EdgeAmounts} {g : Graph} {count : AccessCounts}
  {fuel budget : Nat} {taken : List FlowEdge} {performed compensated : Int64}
  {b e s : BlockId} {before p q r : List BlockId}

/-! ### Totals of a path -/

theorem onPath_eq_weigh (c : EdgeAmounts) (p : List BlockId) : c.onPath p = weigh c.on p := by
  induction p with
  | nil => rfl
  | cons u p ih =>
    cases p with
    | nil => rfl
    | cons v p => rw [onPath, ih]; rfl

/-- The accesses of a path are those of its first block and a weight on the edges. -/
theorem sum_eq_weigh (count : AccessCounts) (b : BlockId) (p : List BlockId) :
    ((b :: p).map count).sum = count b + weigh (fun _ v => count v) (b :: p) := by
  have htargets : ((edgesOn (b :: p)).map fun e => count e.target) = p.map count := by
    have := congrArg (List.map count) (map_target_edgesOn (b :: p))
    rwa [List.map_map] at this
  rw [weigh, htargets, List.map_cons, List.sum_cons]

/-- What a path performs beyond what is made up for is a weight on the edges. -/
theorem conserves_iff (hp : g.IsPath g.entry p e) : c.onPath p = (p.map count).sum ↔
    weigh (fun u v => c.on u v - count v) p = count g.entry := by
  obtain ⟨p, rfl⟩ := hp.eq_cons
  have hsum : weigh (fun u v => c.on u v - count v) (g.entry :: p) +
      weigh (fun _ v => count v) (g.entry :: p) = weigh c.on (g.entry :: p) := by
    simp only [weigh, ← List.sum_map_add, sub_add_cancel]
  rw [onPath_eq_weigh, sum_eq_weigh, ← hsum, add_left_inj]

/-! ### The walk -/

/-- The walk goes on from one successor, with what is left of the budget. -/
def walkOn (c : EdgeAmounts) (g : Graph) (count : AccessCounts) (fuel : Nat)
    (taken : List FlowEdge) (performed compensated : Int64) (b : BlockId) (before : List BlockId)
    (budget : Nat) (s : BlockId) : Nat × Option (List BlockId × Int64 × Int64) :=
  walk c g count fuel budget (if g.isBackEdge b s then ⟨b, s⟩ :: taken else taken)
    (performed + count s) (compensated + c.on b s) (s :: b :: before)

/-- The walk passes over a successor. -/
def skips (g : Graph) (taken : List FlowEdge) (b s : BlockId) : Bool :=
  g.isBackEdge b s && decide (⟨b, s⟩ ∈ taken)

theorem walk_succ : walk c g count (fuel + 1) (budget + 1) taken performed compensated
    (b :: before) =
      if (g.succs b).isEmpty then
        (budget, if addsUp (b :: before) performed compensated then none
          else some (b :: before, performed, compensated))
      else
        (g.succs b).foldl (fun acc s =>
          if acc.2.isSome || skips g taken b s then acc
          else walkOn c g count fuel taken performed compensated b before acc.1 s)
          (budget + 1, none) := by
  rw [walk]
  rfl

/-- The walk has come along a path: what it keeps is what is on the path. -/
structure Walked (c : EdgeAmounts) (g : Graph) (count : AccessCounts) (taken : List FlowEdge)
    (performed compensated : Int64) (q : List BlockId) (b : BlockId) : Prop where
  path : g.IsPath g.entry q b
  once : (g.backEdgesOn q).Nodup
  taken : ∀ e, e ∈ taken ↔ e ∈ g.backEdgesOn q
  performed : performed = (q.map count).sum
  compensated : compensated = c.onPath q

theorem walked_entry (c : EdgeAmounts) (g : Graph) (count : AccessCounts) :
    Walked c g count [] (count g.entry) 0 [g.entry] g.entry :=
  ⟨.single _, by simp [Graph.backEdgesOn], by simp [Graph.backEdgesOn], by simp, rfl⟩

theorem Walked.step (h : Walked c g count taken performed compensated q b) (hs : s ∈ g.succs b)
    (hskip : skips g taken b s = false) :
    Walked c g count (if g.isBackEdge b s then ⟨b, s⟩ :: taken else taken) (performed + count s)
      (compensated + c.on b s) (q ++ [s]) s := by
  have hback := Graph.backEdgesOn_snoc (g := g) (v := s) h.path.last
  refine ⟨h.path.snoc hs, ?_, fun e => ?_, ?_, ?_⟩
  · rw [hback]
    split
    · next hb =>
      rw [skips, hb, Bool.true_and, decide_eq_false_iff_not, h.taken] at hskip
      refine List.nodup_append.2 ⟨h.once, List.nodup_singleton _, fun a ha a' ha' => ?_⟩
      rw [List.mem_singleton.1 ha']
      rintro rfl
      exact hskip ha
    · rw [List.append_nil]
      exact h.once
  · rw [hback]
    split
    · rw [List.mem_cons, h.taken, List.mem_append, List.mem_singleton, or_comm]
    · rw [h.taken, List.append_nil]
  · rw [h.performed, List.map_append, List.sum_append, List.map_singleton, List.sum_singleton]
  · rw [h.compensated, onPath_eq_weigh, onPath_eq_weigh, weigh, weigh, edgesOn_snoc h.path.last,
      List.map_append, List.sum_append, List.map_singleton, List.sum_singleton]

/-- The next block of a path without a repeated back edge is not passed over. -/
theorem Walked.not_skips (h : Walked c g count taken performed compensated q b)
    (honce : (g.backEdgesOn (q ++ s :: r)).Nodup) : skips g taken b s = false := by
  by_contra hskip
  simp only [skips, Bool.not_eq_false, Bool.and_eq_true, decide_eq_true_eq] at hskip
  rw [Graph.backEdgesOn_append, Graph.backEdgesOn_snoc h.path.last, if_pos hskip.1] at honce
  have hnodup := (List.nodup_append.1 (List.nodup_append.1 honce).1).2.2
  exact hnodup _ ((h.taken _).1 hskip.2) _ (List.mem_singleton_self _) rfl

/-- The walk does not come far enough to stop for want of fuel. -/
theorem Walked.length_lt (hg : g.Checked)
    (h : Walked c g count taken performed compensated q b) : q.length < longestPath g := by
  have hb : b ∈ g.ids := by
    rcases h.path.eq_single_or_snoc with ⟨-, rfl⟩ | ⟨u, -, -, hs, -⟩
    · exact hg.entry_mem
    · exact hg.wellFormed.isBlock_of_mem_succs hs
  have hshort := hg.length_le_of_once h.path hb h.once
  rw [Graph.length_backEdges] at hshort
  rw [longestPath]
  omega

theorem Walked.eq_of_addsUp (h : Walked c g count taken performed compensated q b)
    (hadds : addsUp p performed compensated = true) (hlong : 2 ≤ p.length) :
    c.onPath q = (q.map count).sum := by
  rw [addsUp, Bool.or_eq_true, decide_eq_true_eq, decide_eq_true_eq] at hadds
  rw [← h.performed, ← h.compensated]
  exact (hadds.resolve_left (by omega)).symm

theorem walk_le_budget : (walk c g count fuel budget taken performed compensated p).1 ≤ budget := by
  induction fuel generalizing budget taken performed compensated p with
  | zero => exact Nat.le_refl _
  | succ fuel ih =>
    cases budget with
    | zero => exact Nat.le_refl _
    | succ budget =>
      cases p with
      | nil => exact Nat.le_succ _
      | cons b before =>
        rw [walk_succ]
        split
        · exact Nat.le_succ _
        · exact (search_cases _ (walkOn c g count fuel taken performed compensated b before)
            (fun _ _ => ih) _ _).1

/-- **What is reported does not add up.** -/
theorem walk_sound (before : List BlockId)
    (h : Walked c g count taken performed compensated (before.reverse ++ [b]) b)
    {path : List BlockId} {performed' compensated' : Int64}
    (hwalk : (walk c g count fuel budget taken performed compensated (b :: before)).2 =
      some (path, performed', compensated')) :
    ∃ e, g.IsPath g.entry path.reverse e ∧ g.succs e = [] ∧
      c.onPath path.reverse ≠ (path.reverse.map count).sum := by
  induction fuel generalizing budget taken performed compensated b before with
  | zero => cases hwalk
  | succ fuel ih =>
    cases budget with
    | zero => cases hwalk
    | succ budget =>
      rw [walk_succ] at hwalk
      split at hwalk
      · next hend =>
        simp only at hwalk
        split at hwalk
        · cases hwalk
        · next hnot =>
          simp only [Option.some.injEq, Prod.mk.injEq] at hwalk
          obtain ⟨rfl, rfl, rfl⟩ := hwalk
          rw [← List.reverse_cons] at h
          refine ⟨b, h.path, List.isEmpty_iff.1 hend, fun he => hnot ?_⟩
          rw [addsUp, h.performed, h.compensated, he]
          simp
      · obtain ⟨-, hfound, -⟩ := search_cases (skips g taken b)
          (walkOn c g count fuel taken performed compensated b before)
          (fun _ _ => walk_le_budget) (g.succs b) (budget + 1)
        obtain ⟨s, hs, hskip, m, -, hm⟩ := hfound _ hwalk
        refine ih (b :: before) ?_ hm
        rw [List.reverse_cons]
        exact h.step hs hskip

/-- **What is not reported adds up**, if the budget lasts. -/
theorem walk_complete (hg : g.Checked) (before : List BlockId)
    (h : Walked c g count taken performed compensated (before.reverse ++ [b]) b)
    (hfuel : fuel + (b :: before).length = longestPath g + 1)
    (hwalk : (walk c g count fuel budget taken performed compensated (b :: before)).2 = none)
    (hleft : 0 < (walk c g count fuel budget taken performed compensated (b :: before)).1)
    (hp : g.IsPath g.entry (before.reverse ++ [b] ++ r) e) (he : g.succs e = [])
    (honce : (g.backEdgesOn (before.reverse ++ [b] ++ r)).Nodup)
    (hlong : 2 ≤ (before.reverse ++ [b] ++ r).length) :
    c.onPath (before.reverse ++ [b] ++ r) = ((before.reverse ++ [b] ++ r).map count).sum := by
  induction fuel generalizing budget taken performed compensated b before r with
  | zero =>
    have hshort := h.length_lt hg
    simp only [List.length_append, List.length_reverse, List.length_cons, List.length_nil]
      at hshort hfuel
    omega
  | succ fuel ih =>
    cases budget with
    | zero => exact absurd hleft (by simp [walk])
    | succ budget =>
      rw [walk_succ] at hwalk hleft
      cases r with
      | nil =>
        -- the path ends here, and was compared
        rw [List.append_nil] at hp hlong ⊢
        obtain rfl : b = e := Option.some.inj (h.path.last.symm.trans hp.last)
        rw [he, List.isEmpty_nil, if_pos rfl] at hwalk
        simp only [ite_eq_left_iff, reduceCtorEq, imp_false, Classical.not_not] at hwalk
        exact h.eq_of_addsUp hwalk (by simpa using hlong)
      | cons s r =>
        -- the path goes on to a successor that was tried
        have hs : s ∈ g.succs b := hp.succ_of_infix ⟨before.reverse, r, by simp⟩
        have hskip := h.not_skips honce
        have hmore : ¬ (g.succs b).isEmpty = true := by
          rw [List.isEmpty_iff]
          exact List.ne_nil_of_mem hs
        rw [if_neg hmore] at hwalk hleft
        obtain ⟨-, -, hnone⟩ := search_cases (skips g taken b)
          (walkOn c g count fuel taken performed compensated b before)
          (fun _ _ => walk_le_budget) (g.succs b) (budget + 1)
        obtain ⟨m, -, hm, hleft'⟩ := hnone hwalk s hs hskip
        have hsplit : before.reverse ++ [b] ++ s :: r = (b :: before).reverse ++ [s] ++ r := by
          simp
        rw [hsplit] at hp honce hlong ⊢
        refine ih (b :: before) ?_ ?_ hm (Nat.lt_of_lt_of_le hleft hleft') hp honce hlong
        · rw [List.reverse_cons]
          exact h.step hs hskip
        · simp only [List.length_cons] at hfuel ⊢
          omega

/-! ### The check -/

/-- The number of complete paths that the check walks. -/
def pathsWalked (c : EdgeAmounts) (g : Graph) (count : AccessCounts) (limit : Int64) : Nat :=
  limit.toInt.toNat -
    (walk c g count (longestPath g) limit.toInt.toNat [] (count g.entry) 0 [g.entry]).1

theorem verify_eq_ok {limit : Int64} : c.verify g count limit = .ok () ↔
    (walk c g count (longestPath g) limit.toInt.toNat [] (count g.entry) 0 [g.entry]).2 =
      none := by
  rw [verify]
  cases (walk c g count (longestPath g) limit.toInt.toNat [] (count g.entry) 0 [g.entry]).2 with
  | none => simp
  | some found => simp [reject]

/-- **Checking decides conservation.**  If the budget lasts, the check passes if and
only if on every path from the entry to an end, however often it takes a back edge,
the amounts on the edges add up to the accesses of the blocks, modulo 2^64. -/
theorem verify_iff_conserves {g : Graph} (hg : g.Accepted) (hsize : 2 ≤ g.size) (c : EdgeAmounts)
    (count : AccessCounts) (limit : Int64) (h : (c.pathsWalked g count limit : Int) < limit.toInt) :
    c.verify g count limit = .ok () ↔
      ∀ p e, g.IsPath g.entry p e → g.succs e = [] → c.onPath p = (p.map count).sum := by
  have hleft : 0 < (walk c g count (longestPath g) limit.toInt.toNat [] (count g.entry) 0
      [g.entry]).1 := by
    rw [pathsWalked] at h
    omega
  have hstart := walked_entry c g count
  rw [verify_eq_ok]
  constructor
  · intro hnone
    have honce : g.AddUpOnce (fun u v => c.on u v - count v) (count g.entry) := by
      intro p e hp he honce
      obtain ⟨r, rfl⟩ := hp.eq_cons
      refine (conserves_iff hp).1 (walk_complete hg.checked [] hstart (by simp) hnone
        hleft hp he honce ?_)
      -- the entry is not an end, so a path to an end has an edge
      rcases hp.eq_single_or_cons with ⟨-, rfl⟩ | ⟨v, q, hq, -, hv⟩
      · exact absurd he (hg.checked.succs_entry_ne_nil hsize)
      · cases hq
        obtain ⟨q, rfl⟩ := hv.eq_cons
        simp
    intro p e hp he
    exact (conserves_iff hp).2 (hg.checked.weigh_eq_of_once honce hp he)
  · intro hall
    cases hfound : (walk c g count (longestPath g) limit.toInt.toNat [] (count g.entry) 0
      [g.entry]).2 with
    | none => rfl
    | some found =>
      obtain ⟨path, performed, compensated⟩ := found
      obtain ⟨e, hp, he, hne⟩ := walk_sound [] hstart hfound
      exact absurd (hall _ e hp he) hne

/-- Amounts that come due at once rather than at the end are found to add up, and so
they do on a path that goes round a loop twice. -/
theorem verify_iff_conserves_twice_round :
    let g := Graph.drawn 4 [(0, 1), (1, 2), (2, 1), (2, 3)] rfl
    let c : EdgeAmounts := .ofList [(⟨0, 1⟩, 6), (⟨2, 1⟩, 3)]
    c.verify g (fun b => Int64.ofInt b) 50 = .ok () ∧ c.onPath [0, 1, 2, 1, 2, 3] = 9 := by
  intro g c
  have hverify : c.verify g (fun b => Int64.ofInt b) 50 = .ok () := by decide +kernel
  have h := (verify_iff_conserves (g := g) (Graph.accepted_drawn _) (by decide +kernel) c
    (fun b => Int64.ofInt b) 50 (by decide +kernel)).1 hverify [0, 1, 2, 1, 2, 3] 3
    ⟨by decide +kernel, by decide +kernel, by decide +kernel⟩ (by decide +kernel)
  refine ⟨hverify, ?_⟩
  rw [h]
  decide +kernel

end EdgeAmounts
end ConstantTime
