/-
# The analysis brackets every execution

"Single-Path Constant-Time Transformation Engine", §4.4 (contract A).

A *stay* in a loop is a stretch of a path inside the loop that is preceded and
followed by blocks outside.  If every stay visits the header as often as its
bound allows, the accesses on a path to a block lie in the range that a settled
analysis gives (`Checked.performed_holds`).

The range of a block counts from the header of its innermost loop, so the total
on a path is shared out: one part for the block, and one for each loop around
it, which lies between what the analysis says happens before the loop and in the
full rounds that the stay has made so far (`AccessAnalysis.InRounds`).  An edge that
leaves loops adds the parts of these loops to that of the block
(`Checked.arriving_holds`); a back edge adds a round to the part of its loop; and
an edge into a loop opens a new part.
-/

import ConstantTime.Proofs.Access.Settled
import ConstantTime.Proofs.Graph.Crossing
import Mathlib.Data.List.TakeWhile
import Mathlib.Tactic.Ring

namespace ConstantTime

/-- The accesses on a path. -/
def AccessCounts.performed (count : AccessCounts) (p : List BlockId) : Int :=
  (p.map fun b => (count b).toInt).sum

namespace Graph

/-- If the stretch of a path between `xs` and `ys` is a stay in the loop, it visits
the header as often as the bound of the loop allows, and at least once. -/
def StayKeeps (g : Graph) (bound : LoopBounds) (l : LoopId) (xs stay ys : List BlockId) : Prop :=
  stay ≠ [] → (∀ b ∈ stay, g.Within l b) →
    (∀ b ∈ xs.getLast?, ¬ g.Within l b) → (∀ b ∈ ys.head?, ¬ g.Within l b) →
    max (bound (g.header l)).min.toInt 1 ≤ (stay.count (g.header l) : Int) ∧
      (stay.count (g.header l) : Int) ≤ max (bound (g.header l)).max.toInt 1

/-- Every stay of a path in a loop keeps the bound of the loop. -/
def KeepsBounds (g : Graph) (bound : LoopBounds) (p : List BlockId) : Prop :=
  ∀ l xs stay ys, p = xs ++ stay ++ ys → g.StayKeeps bound l xs stay ys

instance (g : Graph) (bound : LoopBounds) (l : LoopId) (xs stay ys : List BlockId) :
    Decidable (g.StayKeeps bound l xs stay ys) :=
  inferInstanceAs (Decidable (_ → _))

theorem keepsBounds_iff (g : Graph) (bound : LoopBounds) (p : List BlockId) :
    g.KeepsBounds bound p ↔ ∀ l < g.loops.length, ∀ i < p.length + 1, ∀ n < p.length + 1,
      g.StayKeeps bound l (p.take i) ((p.drop i).take n) ((p.drop i).drop n) := by
  constructor
  · intro h l _
    exact Shape.IsPath.forall_split_iff.1 (h l)
  · rintro h l xs stay ys rfl hne hin
    obtain ⟨b, hb⟩ := List.exists_mem_of_ne_nil _ hne
    exact Shape.IsPath.forall_split_iff.2 (h l (lt_of_within (hin b hb))) xs stay ys rfl hne hin

instance (g : Graph) (bound : LoopBounds) (p : List BlockId) : Decidable (g.KeepsBounds bound p) :=
  decidable_of_iff' _ (keepsBounds_iff g bound p)

/-- How often a path has visited the header of a loop since it last entered it. -/
def visitsIn (g : Graph) (l : LoopId) (p : List BlockId) : Nat :=
  (p.reverse.takeWhile fun b => g.Within l b).count (g.header l)

variable {g : Graph} {bound : LoopBounds} {l : LoopId} {u v : BlockId} {p q : List BlockId}

theorem visitsIn_snoc (h : g.Within l v) :
    g.visitsIn l (p ++ [v]) = g.visitsIn l p + if v = g.header l then 1 else 0 := by
  unfold visitsIn
  rw [List.reverse_append, List.reverse_singleton, List.singleton_append,
    List.takeWhile_cons_of_pos (by simpa using h), List.count_cons]
  congr 1
  simp

theorem visitsIn_of_outside (hp : p.getLast? = some u) (h : ¬ g.Within l u) :
    g.visitsIn l p = 0 := by
  rw [visitsIn]
  have hr : p.reverse.head? = some u := by rw [List.head?_reverse, hp]
  cases hrev : p.reverse with
  | nil => rfl
  | cons w rest =>
    rw [hrev, List.head?_cons, Option.some_inj] at hr
    rw [hr, List.takeWhile_cons_of_neg (by simpa using h)]
    rfl

/-- When a path leaves a loop, the stay that ends keeps its bound. -/
theorem KeepsBounds.visitsIn (h : g.KeepsBounds bound (q ++ v :: p)) (hq : q.getLast? = some u)
    (hu : g.Within l u) (hv : ¬ g.Within l v) :
    max (bound (g.header l)).min.toInt 1 ≤ (g.visitsIn l q : Int) ∧
      (g.visitsIn l q : Int) ≤ max (bound (g.header l)).max.toInt 1 := by
  let stay := (q.reverse.takeWhile fun b => g.Within l b).reverse
  let xs := (q.reverse.dropWhile fun b => g.Within l b).reverse
  have hsplit : q = xs ++ stay := by
    rw [← List.reverse_append, List.takeWhile_append_dropWhile, List.reverse_reverse]
  have hcount : stay.count (g.header l) = g.visitsIn l q := List.count_reverse
  rw [← hcount]
  refine h l xs stay (v :: p) (by rw [hsplit]) ?_ ?_ ?_ ?_
  · -- the last block of the path is in the stay
    have hr : q.reverse.head? = some u := by rw [List.head?_reverse, hq]
    cases hrev : q.reverse with
    | nil => rw [hrev] at hr; cases hr
    | cons w rest =>
      rw [hrev, List.head?_cons, Option.some_inj] at hr
      simp [stay, hrev, hr, hu]
  · intro b hb
    have := List.mem_takeWhile_imp (List.mem_reverse.1 hb)
    simpa using this
  · intro b hb
    rw [List.getLast?_reverse, Option.mem_def] at hb
    have := List.head?_dropWhile_not (fun b => decide (g.Within l b)) q.reverse
    rw [hb] at this
    simpa using this
  · intro b hb
    rw [List.head?_cons, Option.mem_some_iff] at hb
    rwa [← hb]

end Graph

/-! ### Leaving loops -/

namespace AccessAnalysis

/-- The part of a loop whose header has been visited `k` times: what happened
before the loop, and `k - 1` full rounds. -/
def InRounds (R : LoopAccesses) (k : Nat) (t : Int) : Prop :=
  R.before.min.toInt + (k - 1) * R.round.min.toInt ≤ t ∧
    t ≤ R.before.max.toInt + (k - 1) * R.round.max.toInt

/-- **Leaving a loop.**  The part of the loop and the part of its last round lie
in the range with which the loop is left. -/
theorem leaving_holds {R : LoopAccesses} {last : AccessRange} {n : Bound} {k : Nat} {s t : Int}
    (hround : R.round.Nonneg)
    (hleave : LeavingExact R.before R.round last n)
    (hk : n.min.toInt ≤ k ∧ (k : Int) ≤ n.max.toInt) (hs : last.Holds s) (ht : InRounds R k t) :
    (leaving R.before R.round last n).Holds (s + t) := by
  have h₁ : (n.min.toInt - 1) * R.round.min.toInt ≤ (k - 1) * R.round.min.toInt :=
    Int.mul_le_mul_of_nonneg_right (by omega) hround.1
  have h₂ : (k - 1) * R.round.max.toInt ≤ (n.max.toInt - 1) * R.round.max.toInt :=
    Int.mul_le_mul_of_nonneg_right (by omega) hround.2
  obtain ⟨hmin, hmax⟩ := hleave
  obtain ⟨hs₁, hs₂⟩ := hs
  obtain ⟨ht₁, ht₂⟩ := ht
  unfold LeaveExact at hmin hmax
  constructor
  · change (leave R.before.min R.round.min last.min n.min).toInt ≤ s + t
    omega
  · change s + t ≤ (leave R.before.max R.round.max last.max n.max).toInt
    omega

/-- How the accesses on a path `q` to `u` are shared out: `t` for the block, and
`f l` for each loop around it. -/
structure Shared (g : Graph) (count : AccessCounts) (bound : LoopBounds) (a : AccessAnalysis)
    (q : List BlockId) (u : BlockId) (t : Int) (f : LoopId → Int) : Prop where
  total : count.performed q = t + g.aroundSum f u
  block : ∀ r, a.blocks.get? u = some r → r.Holds t
  loop : ∀ l, g.Within l u → ∀ L R, a.LoopKnown g bound l L R → InRounds R (g.visitsIn l q) (f l)

end AccessAnalysis

namespace Graph.Checked

open AccessAnalysis

variable {g : Graph} (hg : g.Checked) {count : AccessCounts} {bound : LoopBounds}
  {a : AccessAnalysis} {q rest : List BlockId} {u v : BlockId} {t : Int} {f : LoopId → Int}
  (hset : a.Settled g count bound) (hwrap : a.NoWrap g count bound) (hcount : ∀ b, 0 ≤ count b)
include hg hset hwrap hcount

section Leaving

variable (hq : g.IsPath g.entry q u) (hv : v ∈ g.succs u)
  (hkeeps : g.KeepsBounds bound (q ++ v :: rest)) (hshared : a.Shared g count bound q u t f)
include hq hv hkeeps hshared

/-- On leaving one of the loops around `u` for `v`. -/
theorem exit_holds {m : LoopId} (hmu : g.Within m u) (hmv : ¬ g.Within m v) {last : AccessRange}
    {s : Int} (hlast : a.within g m u = some last) (hs : last.Holds s) :
    ∃ L R r, a.LoopKnown g bound m L R ∧ R.exits.get? u = some r ∧ r.Holds (s + f m) := by
  obtain ⟨L, R, hR⟩ := hg.loopKnown hset hwrap hcount (lt_of_within hmu)
  have hexit := (hg.mem_exiting hR.loop).2 ⟨hmu, v, hv, hmv⟩
  obtain ⟨last', hlast', hr⟩ := hR.exit u hexit
  cases hlast.symm.trans hlast'
  have hleave := hwrap.loop m (lt_of_within hmu) R (header_eq hR.loop ▸ hR.accesses) u hmu
    ⟨v, hv, hmv⟩ last hlast
  rw [header_eq hR.loop] at hleave
  refine ⟨L, R, _, hR, hr, leaving_holds hR.round_nonneg hleave ?_ hs
    (hshared.loop m hmu L R hR)⟩
  rw [visits_min, visits_max, ← header_eq hR.loop]
  exact hkeeps.visitsIn hq.last hmu hmv

/-- As seen from a loop around `u`, of which all loops further inside are left. -/
theorem within_holds {ms : List LoopId} {l : LoopId} {outer : List LoopId}
    (hsplit : g.loopsAround u = ms ++ l :: outer) (hms : ∀ m ∈ ms, ¬ g.Within m v) :
    ∃ r, a.within g l u = some r ∧ r.Holds (t + (ms.map f).sum) := by
  induction ms using List.reverseRecOn generalizing l outer with
  | nil =>
    have hhead := head?_loopsAround g u
    rw [hsplit, List.nil_append, List.head?_cons] at hhead
    obtain ⟨r, hr, -⟩ := hg.known hset hwrap hcount (Shape.mem_ids_of_mem_succs hv)
    exact ⟨r, by rw [within_of_level hhead.symm, hr], by simpa using hshared.block r hr⟩
  | append_singleton ms m ih =>
    rw [List.append_assoc, List.singleton_append] at hsplit
    obtain ⟨last, hlast, hs⟩ := ih hsplit fun m' hm' => hms m' (List.mem_append_left _ hm')
    have hmu : g.Within m u := hg.mem_loopsAround.1 (by rw [hsplit]; simp)
    obtain ⟨L, R, r, hR, hr, hrs⟩ := hg.exit_holds hset hwrap hcount hq hv hkeeps hshared hmu
      (hms m (by simp)) hlast hs
    -- `m` is directly inside `l`
    have hparent : g.parent (some m) = some l := by
      have hchain := isChain_loopsAround g u
      rw [hsplit] at hchain
      exact (List.isChain_append.1 hchain).2.1.rel
    obtain ⟨x, hx⟩ : ∃ x, R.span = some x := by
      unfold LoopAccesses.span
      cases hval : R.exits.values with
      | nil => exact absurd (OrderedMap.mem_values_of_get? hr) (by simp [hval])
      | cons _ _ => exact ⟨_, rfl⟩
    refine ⟨x, ?_, ?_⟩
    · rw [hg.within_of_child ⟨lt_of_within hmu, hparent⟩ hmu, header_eq hR.loop, hR.accesses]
      exact hx
    · rw [List.map_append, List.sum_append, ← add_assoc]
      simpa using AccessRange.joinAll_holds hx (OrderedMap.mem_values_of_get? hr) hrs

/-- **What arrives over an edge.**  The parts of the loops that the edge leaves
are added to the part of the block. -/
theorem arriving_holds : ∃ r, a.arriving g u v = some r ∧ r.Holds (t + g.leftSum f u v) := by
  obtain ⟨outer, hsplit, -⟩ := hg.loopsAround_split u v
  have hleft : ∀ m ∈ g.loopsLeft u v, g.Within m u ∧ ¬ g.Within m v := fun m hm =>
    hg.mem_loopsLeft.1 hm
  unfold arriving leftSum
  rcases (g.loopsLeft u v).eq_nil_or_concat' with hnil | ⟨ms, m, hms⟩
  · obtain ⟨r, hr, -⟩ := hg.known hset hwrap hcount (Shape.mem_ids_of_mem_succs hv)
    rw [hnil]
    exact ⟨r, hr, by simpa using hshared.block r hr⟩
  · rw [hms, List.append_assoc, List.singleton_append] at hsplit
    rw [hms] at hleft
    obtain ⟨last, hlast, hs⟩ := hg.within_holds hset hwrap hcount hq hv hkeeps hshared hsplit
      fun m' hm' => (hleft m' (List.mem_append_left _ hm')).2
    obtain ⟨hmu, hmv⟩ := hleft m (by simp)
    obtain ⟨L, R, r, hR, hr, hrs⟩ :=
      hg.exit_holds hset hwrap hcount hq hv hkeeps hshared hmu hmv hlast hs
    rw [hms, List.getLast?_concat]
    refine ⟨r, ?_, ?_⟩
    · change (a.loops.get? (g.header m)).bind _ = _
      rw [header_eq hR.loop, hR.accesses]
      exact hr
    · rw [List.map_append, List.sum_append, ← add_assoc]
      simpa using hrs

/-! ### One step of a path -/

theorem shared_of_plain (hh : g.isHeader v = false) :
    a.Shared g count bound (q ++ [v]) v (t + g.leftSum f u v + (count v).toInt) f := by
  have hnot : ∀ l, g.Within l v → v ≠ g.header l := fun l hl =>
    hg.ne_header_of_plain hh (lt_of_within hl)
  have hin : ∀ l, g.Within l v → g.Within l u := fun l hl => hg.within_of_succ hl (hnot l hl) hv
  refine ⟨?_, fun r hr => ?_, fun l hl L R hR => ?_⟩
  · have hlaw := hg.aroundSum_of_stay f hin
    have htotal := hshared.total
    simp only [AccessCounts.performed, List.map_append, List.sum_append, List.map_cons,
      List.map_nil, List.sum_cons, List.sum_nil] at htotal ⊢
    omega
  · obtain ⟨s, hs, hst⟩ := hg.arriving_holds hset hwrap hcount hq hv hkeeps hshared
    have hmem : s ∈ (g.preds v).filterMap fun p => a.arriving g p v :=
      List.mem_filterMap.2 ⟨u, hg.wellFormed.mem_preds_iff.2 hv, hs⟩
    obtain ⟨x, hx⟩ : ∃ x, a.arrivingFrom g v (g.preds v) = some x := by
      unfold arrivingFrom
      cases hlist : (g.preds v).filterMap fun p => a.arriving g p v with
      | nil => simp [hlist] at hmem
      | cons _ _ => exact ⟨_, rfl⟩
    have hxt := AccessRange.joinAll_holds hx hmem hst
    have hne : v ≠ g.entry := by
      intro he
      have := hg.wellFormed.mem_preds_iff.2 hv
      rw [he, hg.preds_entry] at this
      simp at this
    obtain ⟨hmin, hmax⟩ := hwrap.block v (hg.wellFormed.isBlock_of_mem_succs hv) hne hh x hx
    have hr' := hset.block v (hg.wellFormed.isBlock_of_mem_succs hv)
      (x.add (AccessRange.exactly (count v))) (by rw [upTo, if_neg (by simp [hne, hh]), hx]; rfl)
    cases hr.symm.trans hr'
    obtain ⟨h₁, h₂⟩ := hxt
    constructor
    · change (x.min + count v).toInt ≤ _
      omega
    · change _ ≤ (x.max + count v).toInt
      omega
  · rw [visitsIn_snoc hl, if_neg (hnot l hl), Nat.add_zero]
    exact hshared.loop l (hin l hl) L R hR

omit hwrap hcount hq hkeeps in
/-- At a header the count starts afresh, and what was counted goes to its loop. -/
theorem shared_of_header {l : LoopId} (hl : l < g.loops.length) (hvl : v = g.header l) {d : Int}
    (hsum : g.aroundSum f v + d = count.performed q)
    (hpart : ∀ L R, a.LoopKnown g bound l L R → InRounds R (g.visitsIn l (q ++ [v])) (f l + d)) :
    a.Shared g count bound (q ++ [v]) v (count v).toInt (Function.update f l (f l + d)) := by
  have hlv : g.Within l v := hvl ▸ hg.within_header hl
  refine ⟨?_, fun r hr => ?_, fun m hm L R hR => ?_⟩
  · rw [aroundSum_update hlv, hsum]
    simp only [AccessCounts.performed, List.map_append, List.sum_append, List.map_cons,
      List.map_nil, List.sum_cons, List.sum_nil]
    omega
  · have hr' := hset.block v (hg.wellFormed.isBlock_of_mem_succs hv)
      (AccessRange.exactly (count v)) (by
        rw [upTo, if_pos (by simp [hg.isHeader_iff.2 ⟨l, hl, hvl.symm⟩])])
    cases hr.symm.trans hr'
    exact ⟨Int.le_refl _, Int.le_refl _⟩
  · by_cases hml : m = l
    · subst hml
      rw [Function.update_self]
      exact hpart L R hR
    · have hne : v ≠ g.header m := fun he =>
        hml (hg.header_inj (lt_of_within hm) hl (he ▸ hvl))
      rw [Function.update_of_ne hml, visitsIn_snoc hm, if_neg hne, Nat.add_zero]
      exact hshared.loop m (hg.within_of_succ hm hne hv) L R hR

/-- **Entering a loop** opens its part with what has happened before. -/
theorem shared_of_enter {l : LoopId} (hl : l < g.loops.length) (hvl : v = g.header l)
    (hlu : ¬ g.Within l u) :
    ∃ t' f', a.Shared g count bound (q ++ [v]) v t' f' := by
  have hlv : g.Within l v := hvl ▸ hg.within_header hl
  refine ⟨_, _, hg.shared_of_header hset hv hshared hl hvl
    (d := t + g.leftSum f u v - f l) ?_ fun L R hR => ?_⟩
  · have hlaw := hg.aroundSum_of_enter f hlv hlu fun l' hne hl' =>
      hg.within_of_succ hl' (fun he => hne (hg.header_inj (lt_of_within hl') hl (he ▸ hvl))) hv
    have := hshared.total
    omega
  · rw [visitsIn_snoc hlv, if_pos hvl, visitsIn_of_outside hq.last hlu]
    obtain ⟨r, hr, hrt⟩ := hg.arriving_holds hset hwrap hcount hq hv hkeeps hshared
    have hbefore := hR.before
    unfold beforeLoop at hbefore
    have hway : u ∈ (g.preds L.header).filter fun p => !L.contains p := by
      rw [← header_eq hR.loop, ← hvl]
      refine List.mem_filter.2 ⟨hg.wellFormed.mem_preds_iff.2 hv, ?_⟩
      rw [within_iff, hR.loop] at hlu
      simpa [Loop.contains] using hlu
    split at hbefore
    · next he =>
      rw [he] at hway
      simp at hway
    · rw [← header_eq hR.loop, ← hvl] at hbefore
      rw [← header_eq hR.loop, ← hvl] at hway
      obtain ⟨h₁, h₂⟩ :=
        AccessRange.joinAll_holds hbefore (List.mem_filterMap.2 ⟨u, hway, hr⟩) hrt
      constructor <;> simp only [Nat.zero_add, Nat.cast_one] <;> omega

/-- **A back edge** adds a full round to the part of its loop. -/
theorem shared_of_back {l : LoopId} (hl : l < g.loops.length) (hvl : v = g.header l)
    (hlu : g.Within l u) :
    ∃ t' f', a.Shared g count bound (q ++ [v]) v t' f' := by
  have hlv : g.Within l v := hvl ▸ hg.within_header hl
  refine ⟨_, _, hg.shared_of_header hset hv hshared hl hvl
    (d := t + g.leftSum f u v) ?_ fun L R hR => ?_⟩
  · have hlaw := hg.aroundSum_of_stay f (u := u) (v := v) fun l' hl' =>
      hg.within_trans (hvl ▸ hl') hlu
    have := hshared.total
    omega
  · rw [visitsIn_snoc hlv, if_pos hvl]
    -- the loop is the innermost of those that are not left
    obtain ⟨outer, hsplit, houter⟩ := hg.loopsAround_split u v
    obtain ⟨rest, rfl⟩ : ∃ rest, outer = l :: rest := by
      have hmem : l ∈ g.loopsLeft u v ++ outer := hsplit ▸ hg.mem_loopsAround.2 hlu
      rcases List.mem_append.1 hmem with h | h
      · exact absurd hlv (hg.mem_loopsLeft.1 h).2
      · have hpair := hg.pairwise_loopsAround u
        rw [hsplit] at hpair
        cases outer with
        | nil => simp at h
        | cons m rest =>
          rcases List.mem_cons.1 h with rfl | h
          · exact ⟨rest, rfl⟩
          · have hlm := (List.pairwise_cons.1 (List.pairwise_append.1 hpair).2.1).1 l h
            have hml := (houter m List.mem_cons_self).2
            rw [hvl] at hml
            exact ⟨rest, by rw [hg.within_antisymm hml hlm]⟩
    obtain ⟨r, hr, hrt⟩ := hg.within_holds hset hwrap hcount hq hv hkeeps hshared hsplit
      fun m hm => (hg.mem_loopsLeft.1 hm).2
    have hlatch : u ∈ L.latches :=
      (hg.mem_latches hR.loop).2 (header_eq hR.loop ▸ hg.retreats_of_within hlu (hvl ▸ hv))
    obtain ⟨h₁, h₂⟩ :=
      AccessRange.joinAll_holds hR.round (List.mem_filterMap.2 ⟨u, hlatch, hr⟩) hrt
    obtain ⟨h₃, h₄⟩ := hshared.loop l hlu L R hR
    have hround : ∀ x : Int, ((g.visitsIn l q + 1 : Nat) - 1 : Int) * x =
        (g.visitsIn l q - 1) * x + x := fun x => by push_cast; ring
    rw [← leftSum] at h₁ h₂
    constructor
    · rw [hround]
      omega
    · rw [hround]
      omega

end Leaving

/-- **The accesses on a path lie in the range of its last block.** -/
theorem exists_shared {p : List BlockId} (hkeeps : g.KeepsBounds bound (q ++ p))
    (hq : g.IsPath g.entry q u) : ∃ t f, a.Shared g count bound q u t f := by
  revert p
  refine hq.snoc_induction (motive := fun q u => ∀ {p}, g.KeepsBounds bound (q ++ p) →
    ∃ t f, a.Shared g count bound q u t f) (fun _ => ?_) fun q u v hq hv ih p hkeeps => ?_
  · refine ⟨(count g.entry).toInt, fun _ => 0, ?_, fun r hr => ?_, fun l hl => ?_⟩
    · simp [AccessCounts.performed, aroundSum, hg.around_entry]
    · have hr' := hset.block g.entry hg.entry_mem (AccessRange.exactly (count g.entry))
        (by rw [upTo, if_pos (by simp)])
      cases hr.symm.trans hr'
      exact ⟨Int.le_refl _, Int.le_refl _⟩
    · exact absurd hl (hg.not_within_entry l)
  · rw [List.append_assoc, List.singleton_append] at hkeeps
    obtain ⟨t, f, hshared⟩ := ih hkeeps
    cases hh : g.isHeader v with
    | false => exact ⟨_, _, hg.shared_of_plain hset hwrap hcount hq hv hkeeps hshared hh⟩
    | true =>
      obtain ⟨l, hl, hvl⟩ := hg.isHeader_iff.1 hh
      by_cases hlu : g.Within l u
      · exact hg.shared_of_back hset hwrap hcount hq hv hkeeps hshared hl hvl.symm hlu
      · exact hg.shared_of_enter hset hwrap hcount hq hv hkeeps hshared hl hvl.symm hlu

theorem performed_holds {e : BlockId} (hkeeps : g.KeepsBounds bound q)
    (hq : g.IsPath g.entry q e) (he : g.succs e = []) {r : AccessRange}
    (hr : a.blocks.get? e = some r) : r.Holds (count.performed q) := by
  obtain ⟨t, f, hshared⟩ := hg.exists_shared hset hwrap hcount (p := [])
    (by rwa [List.append_nil]) hq
  rw [hshared.total, aroundSum, hg.around_end he]
  simpa using hshared.block r hr

end Graph.Checked
end ConstantTime
