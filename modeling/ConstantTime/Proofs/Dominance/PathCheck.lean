/-
# What checking dominators along paths decides

The check walks paths from the entry that take no back edge twice and leave a
constant loop only once they have gone round it, on this stay or before.  What it
reports is such a path that misses a dominator of its last block (`walk_sound`), and
if it reports nothing and its budget lasts, then no path is missing one that takes
back edges only of loops that it has not gone round yet (`walk_complete`).

The specification speaks of paths of any length that go round a constant loop on
every stay that they leave.  By `Checked.exists_fair` a path of either kind can be
rebuilt into one of the other, past no other blocks and so without the dominator that
is missing.  So the check decides the specification (`verifyPaths_error_iff`).
-/

import ConstantTime.Dominance.Verify
import ConstantTime.Proofs.Dominance.Rounds

namespace ConstantTime
namespace DominatorTable

variable {m : DominatorTable} {g : Graph} {constant : ConstantBounds} {limit : Int64}
  {fuel budget : Nat} {taken : List FlowEdge} {b d s u v x : BlockId}
  {before p q r path : List BlockId}

/-! ### The walk -/

/-- The walk goes on from one successor, with what is left of the budget. -/
def walkOn (m : DominatorTable) (g : Graph) (constant : ConstantBounds) (fuel : Nat)
    (taken : List FlowEdge) (b : BlockId) (before : List BlockId) (budget : Nat) (s : BlockId) :
    Nat × Option (List BlockId × BlockId) :=
  walk m g constant fuel budget (if g.isBackEdge b s then ⟨b, s⟩ :: taken else taken)
    (s :: b :: before)

/-- The walk passes over a successor. -/
def skips (g : Graph) (constant : ConstantBounds) (taken : List FlowEdge) (b s : BlockId) : Bool :=
  !mayLeave g constant taken b s || (g.isBackEdge b s && decide (⟨b, s⟩ ∈ taken))

theorem walk_succ : walk m g constant (fuel + 1) (budget + 1) taken (b :: before) =
    match missing m g (b :: before) with
    | some d => (budget, some (b :: before, d))
    | none =>
      (g.succs b).foldl (fun acc s =>
        if acc.2.isSome || skips g constant taken b s then acc
        else walkOn m g constant fuel taken b before acc.1 s) (budget, none) := by
  rw [walk]
  simp only [skips, walkOn, Bool.or_assoc]
  rfl

theorem walk_le_budget : (walk m g constant fuel budget taken p).1 ≤ budget := by
  induction fuel generalizing budget taken p with
  | zero => exact Nat.le_refl _
  | succ fuel ih =>
    cases budget with
    | zero => exact Nat.le_refl _
    | succ budget =>
      cases p with
      | nil => exact Nat.le_succ _
      | cons b before =>
        rw [walk_succ]
        split
        · exact Nat.le_succ _
        · exact (search_cases _ (walkOn m g constant fuel taken b before)
            (fun _ _ => ih) _ _).1.trans (Nat.le_succ _)

theorem missing_eq_some (h : missing m g (b :: before) = some d) :
    g.depth b = 0 ∧ d ∈ m.of b ∧ d ∉ b :: before := by
  rw [missing] at h
  split at h
  · next hdepth =>
    exact ⟨hdepth, List.mem_of_find?_eq_some h, by simpa using List.find?_some h⟩
  · cases h

theorem mem_of_missing_eq_none (h : missing m g (b :: before) = none) (hdepth : g.depth b = 0)
    (hd : d ∈ m.of b) : d ∈ b :: before := by
  rw [missing, if_pos hdepth] at h
  have hfound := List.find?_eq_none.1 h d hd
  rwa [decide_eq_true_eq, Classical.not_not] at hfound

/-- The walk has come along a path: it knows the back edges on the path, and it has
left no constant loop without having gone round it. -/
structure Walked (g : Graph) (constant : ConstantBounds) (taken : List FlowEdge)
    (q : List BlockId) (b : BlockId) : Prop where
  path : g.IsPath g.entry q b
  taken : ∀ e, e ∈ taken ↔ e ∈ g.backEdgesOn q
  leaves : Graph.EachStep (fun q u v => ∀ l, constant (g.header l) = true → g.Within l u →
    ¬ g.Within l v → g.RoundOn l q) q

theorem walked_entry : Walked g constant [] [g.entry] g.entry :=
  ⟨.single _, by simp [Graph.backEdgesOn], Graph.eachStep_singleton⟩

/-- An edge may be taken if the constant loops that it leaves have gone round. -/
theorem Walked.mayLeave_iff (hg : g.Checked) (h : Walked g constant taken q b) :
    mayLeave g constant taken b s = true ↔
      ∀ l, constant (g.header l) = true → g.Within l b → ¬ g.Within l s → g.RoundOn l q := by
  have hround : ∀ l, (taken.any fun e => e.target = g.headerOf (some l)) = true ↔
      g.RoundOn l q := by
    intro l
    simp only [List.any_eq_true, decide_eq_true_eq, h.taken]
    rfl
  simp only [mayLeave, List.all_eq_true, hg.mem_loopsLeft, Bool.or_eq_true, Bool.not_eq_true',
    hround]
  constructor
  · intro hall l hconst hb hs
    refine (hall l ⟨hb, hs⟩).resolve_left fun hnot => ?_
    exact absurd (hconst.symm.trans hnot) (by decide)
  · rintro hall l ⟨hb, hs⟩
    cases hconst : constant (g.headerOf (some l)) with
    | false => exact .inl rfl
    | true => exact .inr (hall l hconst hb hs)

theorem Walked.step (hg : g.Checked) (h : Walked g constant taken q b) (hs : s ∈ g.succs b)
    (hskip : skips g constant taken b s = false) :
    Walked g constant (if g.isBackEdge b s then ⟨b, s⟩ :: taken else taken) (q ++ [s]) s := by
  simp only [skips, Bool.or_eq_false_iff, Bool.not_eq_false'] at hskip
  refine ⟨h.path.snoc hs, fun e => ?_,
    (Graph.eachStep_snoc h.path.last).2 ⟨h.leaves, (h.mayLeave_iff hg).1 hskip.1⟩⟩
  rw [Graph.backEdgesOn_snoc h.path.last]
  split
  · rw [List.mem_cons, h.taken, List.mem_append, List.mem_singleton, or_comm]
  · rw [h.taken, List.append_nil]

/-- The next block of a fair path is not passed over. -/
theorem Walked.not_skips (hg : g.Checked) (h : Walked g constant taken q b)
    (hfair : g.Fair constant g.RoundOn (q ++ s :: r) x) : skips g constant taken b s = false := by
  obtain ⟨q, rfl⟩ : ∃ q', q = q' ++ [b] := List.getLast?_eq_some_iff.1 h.path.last
  have hsplit : q ++ [b] ++ s :: r = q ++ b :: s :: r := by simp
  simp only [skips, Bool.or_eq_false_iff, Bool.not_eq_false', Bool.and_eq_false_iff]
  refine ⟨(h.mayLeave_iff hg).2 (hfair.leaves q b s r hsplit), ?_⟩
  cases hback : g.isBackEdge b s with
  | false => exact .inl rfl
  | true =>
    refine .inr (decide_eq_false fun hmem => ?_)
    have hr := hg.isBackEdge_iff.1 hback
    obtain ⟨l, L, hL, he⟩ := hg.exists_loop_of_retreats hr
    rw [← Graph.header_eq hL] at he
    have hl : l < g.loops.length := (List.getElem?_eq_some_iff.1 hL).1
    exact hfair.once q b s r hsplit hr l hl he.symm ⟨_, (h.taken _).1 hmem, he.symm⟩

/-- **What is reported misses a dominator.** -/
theorem walk_sound (hg : g.Checked) (before : List BlockId)
    (h : Walked g constant taken (before.reverse ++ [b]) b)
    (hwalk : (walk m g constant fuel budget taken (b :: before)).2 = some (path, d)) :
    ∃ x, g.IsPath g.entry path.reverse x ∧ g.depth x = 0 ∧ d ∈ m.of x ∧ d ∉ path ∧
      Graph.EachStep (fun q u v => ∀ l, constant (g.header l) = true → g.Within l u →
        ¬ g.Within l v → g.RoundOn l q) path.reverse := by
  induction fuel generalizing budget taken b before with
  | zero => cases hwalk
  | succ fuel ih =>
    cases budget with
    | zero => cases hwalk
    | succ budget =>
      rw [walk_succ] at hwalk
      split at hwalk
      · next hmissing =>
        cases hwalk
        obtain ⟨hdepth, hd, hnot⟩ := missing_eq_some hmissing
        rw [← List.reverse_cons] at h
        exact ⟨b, h.path, hdepth, hd, hnot, h.leaves⟩
      · obtain ⟨-, hfound, -⟩ := search_cases (skips g constant taken b)
          (walkOn m g constant fuel taken b before)
          (fun _ _ => walk_le_budget) (g.succs b) budget
        obtain ⟨s, hs, hskip, n, -, hn⟩ := hfound _ hwalk
        refine ih (b :: before) ?_ hn
        rw [List.reverse_cons]
        exact h.step hg hs hskip

/-- **What is not reported misses none**, if the budget lasts. -/
theorem walk_complete (hg : g.Checked) (before : List BlockId)
    (h : Walked g constant taken (before.reverse ++ [b]) b) (hfuel : budget ≤ fuel)
    (hwalk : (walk m g constant fuel budget taken (b :: before)).2 = none)
    (hleft : 0 < (walk m g constant fuel budget taken (b :: before)).1)
    (hfair : g.Fair constant g.RoundOn (before.reverse ++ [b] ++ r) x) (hdepth : g.depth x = 0)
    (hd : d ∈ m.of x) : d ∈ before.reverse ++ [b] ++ r := by
  induction fuel generalizing budget taken b before r with
  | zero =>
    obtain rfl : budget = 0 := by omega
    exact absurd hleft (by simp [walk])
  | succ fuel ih =>
    cases budget with
    | zero => exact absurd hleft (by simp [walk])
    | succ budget =>
      rw [walk_succ] at hwalk hleft
      split at hwalk
      · cases hwalk
      next hmissing =>
      rw [hmissing] at hleft
      cases r with
      | nil =>
        -- the path ends here, and was looked at
        rw [List.append_nil] at hfair ⊢
        obtain rfl : b = x := Option.some.inj (h.path.last.symm.trans hfair.path.last)
        rw [← List.reverse_cons, List.mem_reverse]
        exact mem_of_missing_eq_none hmissing hdepth hd
      | cons s r =>
        -- the path goes on to a successor that was tried
        have hs : s ∈ g.succs b := hfair.path.succ_of_infix ⟨before.reverse, r, by simp⟩
        obtain ⟨-, -, hnone⟩ := search_cases (skips g constant taken b)
          (walkOn m g constant fuel taken b before)
          (fun _ _ => walk_le_budget) (g.succs b) budget
        obtain ⟨n, hn, hwalk', hleft'⟩ := hnone hwalk s hs (h.not_skips hg hfair)
        have hsplit : before.reverse ++ [b] ++ s :: r = (b :: before).reverse ++ [s] ++ r := by
          simp
        rw [hsplit] at hfair ⊢
        refine ih (b :: before) ?_ (by omega) hwalk' (Nat.lt_of_lt_of_le hleft hleft')
          hfair
        rw [List.reverse_cons]
        exact h.step hg hs (h.not_skips hg (hsplit ▸ hfair))

/-! ### The check -/

/-- The number of blocks that the check visits. -/
def blocksVisited (m : DominatorTable) (g : Graph) (constant : ConstantBounds) (limit : Int64) :
    Nat :=
  limit.toInt.toNat -
    (walk m g constant limit.toInt.toNat limit.toInt.toNat [] [g.entry]).1

theorem exists_verifyPaths_error : (∃ e, m.verifyPaths g constant limit g.entry = .error e) ↔
    ∃ found, (walk m g constant limit.toInt.toNat limit.toInt.toNat [] [g.entry]).2 =
      some found := by
  rw [verifyPaths]
  cases (walk m g constant limit.toInt.toNat limit.toInt.toNat [] [g.entry]).2 with
  | none => simp
  | some found => simp [reject]

/-- **Checking along paths decides the specification.**  If the budget lasts, the check
fails if and only if there is a path from the entry, of any length, to a block outside
all loops, that goes round a constant loop on every stay that it leaves, and past which
lies a dominator that the table lists for the block. -/
theorem verifyPaths_error_iff {g : Graph} (hg : g.Accepted) (m : DominatorTable)
    (constant : ConstantBounds) (limit : Int64)
    (h : (m.blocksVisited g constant limit : Int) < limit.toInt) :
    (∃ e, m.verifyPaths g constant limit g.entry = .error e) ↔
      ∃ p b doms d, g.IsPath g.entry p b ∧ (∀ l, ¬ g.Within l b) ∧ g.GoesRound constant p ∧
        m.get? b = some doms ∧ d ∈ doms ∧ d ∉ p := by
  replace hg := hg.checked
  have hleft : 0 < (walk m g constant limit.toInt.toNat limit.toInt.toNat [] [g.entry]).1 := by
    rw [blocksVisited] at h
    omega
  have hdepth : ∀ b, g.depth b = 0 ↔ ∀ l, ¬ g.Within l b := by
    intro b
    rw [hg.depth_eq, List.length_eq_zero_iff, List.eq_nil_iff_forall_not_mem]
    simp only [Graph.mem_around]
  rw [exists_verifyPaths_error]
  constructor
  · rintro ⟨⟨path, d⟩, hfound⟩
    obtain ⟨b, hp, hb, hd, hnot, hleaves⟩ := walk_sound hg [] walked_entry hfound
    obtain ⟨doms, hdoms, hd⟩ := mem_of.1 hd
    obtain ⟨q, hfair, hsub⟩ := hg.exists_fair hg.counts_roundOnStay hp ((hdepth b).1 hb) hleaves
    exact ⟨q, b, doms, d, hfair.path, (hdepth b).1 hb, Graph.goesRound_of_eachStep hfair.leaves,
      hdoms, hd, fun hmem => hnot (List.mem_reverse.1 (hsub d hmem))⟩
  · rintro ⟨p, b, doms, d, hp, hb, hround, hdoms, hd, hnot⟩
    by_contra hnone
    obtain ⟨q, hfair, hsub⟩ := hg.exists_fair hg.counts_roundOn hp hb hround.eachStep
    obtain ⟨r, rfl⟩ := hfair.path.eq_cons
    refine hnot (hsub d (walk_complete hg [] walked_entry (Nat.le_refl _) ?_ hleft
      hfair ((hdepth b).2 hb) (mem_of.2 ⟨doms, hdoms, hd⟩)))
    exact Option.eq_none_iff_forall_ne_some.2 fun found hfound => hnone ⟨found, hfound⟩

/-- The body of a loop of constant bound is on every path that goes round the loop, and
the check of that passes. -/
theorem verifyPaths_error_iff_body :
    let g := Graph.drawn 4 [(0, 1), (1, 2), (2, 1), (1, 3)] rfl
    let m : DominatorTable := .ofList [(3, .ofList [2])]
    m.verifyPaths g (fun b => b = 1) 50 g.entry = .ok () ∧
      ∀ p, g.IsPath g.entry p 3 → g.GoesRound (fun b => b = 1) p → 2 ∈ p := by
  intro g m
  have hg : g.Accepted := Graph.accepted_drawn _
  have hok : m.verifyPaths g (fun b => b = 1) 50 g.entry = .ok () := by decide +kernel
  have hiff := verifyPaths_error_iff hg m (fun b => b = 1) 50 (by decide +kernel)
  refine ⟨hok, fun p hp hround => ?_⟩
  by_contra hnot
  obtain ⟨e, he⟩ := hiff.2 ⟨p, 3, .ofList [2], 2, hp,
    hg.checked.not_within_end (by decide +kernel), hround, by decide +kernel,
    by decide +kernel, hnot⟩
  rw [hok] at he
  cases he

end DominatorTable
end ConstantTime
