/-
# Which paths the bounded dominators are on

"Single-Path Constant-Time Transformation Engine", §4.1 and §8.

Let `d` be a bounded dominator of an end and take a path to that end on which
every stay in a constant loop that is left again has gone round.  Then `d` is on
the path unless the path *bypasses* a constant loop that holds `d`: it never
enters the loop, and at some block it comes over a predecessor that stands before
one in the loop (`Graph.Bypasses`).  Such a predecessor takes `d` away, and the
later one adds it back in.  Since a loop that is bypassed is not entered, this is
exact.

The proof follows the path through a region.  What the table knows at the nodes
is on the path (`Walk.known`), by induction along the path; what all ways out of
a constant loop share is on it if the loop is entered, since then a way round
and a way out have been taken (`covered_of_shared`), by induction on the nesting.
-/

import ConstantTime.Proofs.Dominance.Fixpoint
import ConstantTime.Proofs.Graph.Path

namespace ConstantTime

namespace Graph

/-- Every stay in a constant loop that is left again takes a back edge. -/
def GoesRound (g : Graph) (constant : ConstantBounds) (π : List BlockId) : Prop :=
  ∀ l, constant (g.header l) = true → ∀ xs stay ys, π = xs ++ stay ++ ys →
    stay ≠ [] → (∀ b ∈ stay, g.Within l b) → ys ≠ [] →
    (∀ b ∈ xs.getLast?, ¬ g.Within l b) → (∀ b ∈ ys.head?, ¬ g.Within l b) →
    ∃ u, [u, g.header l] <:+: stay ∧ g.isBackEdge u (g.header l) = true

/-- The first predecessor is treated before the second where they merge: back
edges by the numbers of their latches, other edges in the order of the
predecessors. -/
def MergesBefore (g : Graph) (q p b : BlockId) : Prop :=
  (g.isBackEdge q b = true ∧ g.isBackEdge p b = true ∧ q < p) ∨
    (g.isBackEdge q b = false ∧ g.isBackEdge p b = false ∧ [q, p].Sublist (g.preds b))

/-- The path never enters the constant loop, and somewhere it comes over a
predecessor that is treated before one in the loop. -/
structure Bypasses (g : Graph) (constant : ConstantBounds) (π : List BlockId) (l : LoopId) :
    Prop where
  constant : constant (g.header l) = true
  avoids : ∀ b ∈ π, ¬ g.Within l b
  merges : ∃ q p b, [q, b] <:+: π ∧ g.Within l p ∧ g.MergesBefore q p b

end Graph

namespace Bounded

variable {g : Graph} {constant : ConstantBounds} {limit : Int64} {fuel : Nat}
  {inner doms m : DominatorTable} {o : Option LoopId} {b d e h p q x y : BlockId} {c l n : LoopId}

/-! ### Sets stay inside their region -/

/-- An end that was explored is on the level of its loop. -/
theorem level_of_end (hg : g.Checked) (hl : l < g.loops.length)
    (he : e ∈ (region g (g.header l)).flatMap (endsAt g (g.header l)))
    (hregion : e ∈ region g (g.header l)) : g.loopOf e = some l := by
  have hh : g.IsStart (some l) (g.header l) := ⟨hl, rfl⟩
  obtain ⟨b, hb, heb⟩ := List.mem_flatMap.1 he
  have hsucc : (g.succs b).isEmpty = false := by
    have hin : ∃ k, g.Within k b := by
      rcases hg.region_cases hh b hb with ⟨hin, -⟩ | ⟨⟨l', k, -, hk, -, rfl⟩, -⟩
      · exact ⟨l, hin⟩
      · exact ⟨k, hg.within_header hk⟩
    obtain ⟨k, hk⟩ := hin
    obtain ⟨s, hs⟩ := hg.exists_succ_of_within hk
    rw [List.isEmpty_eq_false_iff]
    exact List.ne_nil_of_mem hs
  rw [endsAt, hsucc, if_neg Bool.false_ne_true] at heb
  split at heb
  · -- A far target would not have been explored.
    have hfar := (List.mem_filter.1 heb).2
    have hnear := hg.depth_region hh hregion
    rw [staysNear, hg.depth_header hl] at hfar
    simp only [Bool.not_eq_true', Bool.or_eq_false_iff, decide_eq_false_iff_not] at hfar
    omega
  · next hinner =>
    split at heb
    · obtain rfl : e = b := by simpa using heb
      rw [Bool.not_eq_true] at hinner
      have inner_or : ∀ k, k < g.loops.length → e = g.header k → k = l := by
        rintro k hk rfl
        by_contra hne
        have := hg.isInner_header hk (h := g.header l) fun he => hne (hg.header_inj hk hl he)
        simp [this] at hinner
      rcases hg.region_cases hh e hb with ⟨-, hlevel | ⟨c, hc, he⟩⟩ | ⟨⟨l', k, -, hk, -, he⟩, -⟩
      · exact hlevel
      · have hcl := inner_or c hc.1 he
        exact absurd (by rw [hcl]) (hg.header_child_ne hh hc)
      · rw [he, inner_or k hk he]
        exact hg.loopOf_header hl
    · simp at heb

/-- What is known at a node of a region lies in the region. -/
theorem inside_of_mem (hg : g.Checked) (hh : g.IsStart o h)
    (ht : Confirmed g constant h inner doms m)
    (hinner : ∀ c, g.IsChild o c → ∀ d ∈ inner.of (g.header c), g.Within c d)
    (hin : g.Inside o b) (hb : g.IsNode o b) (hd : d ∈ doms.of b) : g.Inside o d := by
  cases o with
  | none => rfl
  | some l =>
    induction hk : g.place b using Nat.strong_induction_on generalizing b with
    | _ k ih =>
      subst hk
      by_cases hbh : b = h
      · subst hbh
        exact ht.start d hd ▸ hin
      have hmem := (ht.refined b d hd).2
      rw [refine, OrderedSet.mem_insert] at hmem
      rcases hmem with rfl | hmem
      · exact hin
      -- The last predecessor has a say on everything.
      have hne : outerPreds g b ≠ [] := by
        have hentry : b ≠ g.entry := fun he => hg.not_within_entry l (he ▸ hin)
        obtain ⟨p, hs, hlt⟩ := hg.exists_pred_before (hg.mem_ids_of_within hin) hentry
        refine List.ne_nil_of_mem ((mem_outerPreds hg).2 ⟨hs, fun hr => ?_⟩)
        have := hr.2
        omega
      obtain ⟨before, p, he⟩ := (List.eq_nil_or_concat (outerPreds g b)).resolve_left hne
      rw [List.concat_eq_append] at he
      have hp : p ∈ outerPreds g b := by simp [he]
      obtain ⟨hs, hfwd⟩ := (mem_outerPreds hg).1 hp
      have hlt : g.place p < g.place b := Nat.lt_of_not_le fun hle => hfwd ⟨hs, hle⟩
      rw [he] at hmem
      rcases mem_foldl_arrive hg hh hb hin hbh (fun x hx => he ▸ hx) hmem with hoffer | ⟨x, hx, -⟩
      · rcases hoffer with ⟨hlevel, hdp⟩ | ⟨c, hc, hcp, hdc | ⟨-, hdc⟩⟩
        · exact ih _ hlt hdp (hg.inside_of_level hlevel) (.inl hlevel) rfl
        · have := hg.place_header_le hcp
          exact ih _ (by omega) hdc (hg.inside_of_child hc (hg.within_header hc.1))
            (.inr ⟨c, hc, rfl⟩) rfl
        · exact hg.inside_of_child hc (hinner c hc d hdc)
      · simp at hx

/-- What comes over a block of a loop lies in the loop. -/
theorem within_of_offers (hg : g.Checked) (hl : l < g.loops.length)
    (ht : Confirmed g constant (g.header l) inner doms m)
    (hinner : ∀ c, g.IsChild (some l) c → ∀ d ∈ inner.of (g.header c), g.Within c d)
    (hd : Offers g constant inner doms (some l) p d) : g.Within l d := by
  have hh : g.IsStart (some l) (g.header l) := ⟨hl, rfl⟩
  rcases hd with ⟨hlevel, hd⟩ | ⟨c, hc, -, hd | ⟨-, hd⟩⟩
  · exact inside_of_mem hg hh ht hinner (hg.inside_of_level hlevel) (.inl hlevel) hd
  · exact inside_of_mem hg hh ht hinner (hg.inside_of_child hc (hg.within_header hc.1))
      (.inr ⟨c, hc, rfl⟩) hd
  · exact hg.inside_of_child (o := some l) hc (hinner c hc d hd)

/-- **What all ways out of a loop share lies in the loop.** -/
theorem within_of_shared (hg : g.Checked) (hl : l < g.loops.length)
    (hrun : run g constant limit fuel (g.header l) = .ok m) (hm : m.isEmpty = false)
    (hd : d ∈ sharedByAll m) : g.Within l d := by
  induction fuel generalizing l m d with
  | zero =>
    cases hrun
    simp [OrderedMap.isEmpty, EmptyCollection.emptyCollection, OrderedMap.empty] at hm
  | succ fuel ih =>
    have hh : g.IsStart (some l) (g.header l) := ⟨hl, rfl⟩
    obtain ⟨fuel', inner, doms, hfuel, ht⟩ := exists_table hg hh hrun hm
    obtain rfl : fuel = fuel' := by omega
    have hinner : ∀ c, g.IsChild (some l) c → ∀ d ∈ inner.of (g.header c), g.Within c d := by
      intro c hc d hd
      obtain ⟨r, hr, hne, hdr⟩ := ht.analysed _ d hd
      exact ih hc.1 hr hne hdr
    obtain ⟨hvalues, hall⟩ := OrderedSet.mem_interAll.1 hd
    obtain ⟨s, hs⟩ := List.exists_mem_of_ne_nil _ hvalues
    obtain ⟨e, he⟩ := OrderedMap.mem_values_iff.1 hs
    obtain ⟨hend, rfl⟩ := (ht.ends e s).1 he
    rcases OrderedSet.mem_union.1 (hall _ hs) with hd | hd
    · have hlevel := level_of_end hg hl hend (ht.refined e d hd).1
      exact inside_of_mem hg hh ht.toConfirmed hinner (hg.inside_of_level hlevel) (.inl hlevel) hd
    · obtain ⟨L, hL⟩ := Graph.exists_loop hl
      obtain ⟨y, hy⟩ := hg.retreats_header hL
      rw [← Graph.header_eq hL] at hy
      rcases latchDominators_cases hg hl hy hd with h | ⟨x, -, -, h⟩
      · exact within_of_offers hg hl ht.toConfirmed hinner h
      · exact within_of_offers hg hl ht.toConfirmed hinner h.offers

/-! ### Along a path -/

/-- The block is on the path, or in a constant loop that the path bypasses. -/
def Covered (g : Graph) (constant : ConstantBounds) (π : List BlockId) (d : BlockId) : Prop :=
  d ∈ π ∨ ∃ l, g.Within l d ∧ g.Bypasses constant π l

/-- A path that is followed through a region, with what is known of the loops
inside. -/
structure Walk (g : Graph) (constant : ConstantBounds) (π : List BlockId) (e : BlockId)
    (o : Option LoopId) (h : BlockId) (inner doms m : DominatorTable) : Prop
    extends Confirmed g constant h inner doms m where
  isStart : g.IsStart o h
  path : g.IsPath g.entry π e
  contained : ∀ c, g.IsChild o c → ∀ d ∈ inner.of (g.header c), g.Within c d
  shared : ∀ c, g.IsChild o c → constant (g.header c) = true → (∃ b ∈ π, g.Within c b) →
    ∀ d ∈ inner.of (g.header c), Covered g constant π d

/-- The node that stands for a block was explored, and what the table knows there
is covered. -/
structure Known (g : Graph) (constant : ConstantBounds) (π : List BlockId) (o : Option LoopId)
    (h : BlockId) (doms : DominatorTable) (p : BlockId) : Prop where
  level : g.loopOf p = o → p ∈ region g h ∧ ∀ d ∈ doms.of p, Covered g constant π d
  child : ∀ c, g.IsChild o c → g.Within c p →
    g.header c ∈ region g h ∧ ∀ d ∈ doms.of (g.header c), Covered g constant π d

namespace Walk

variable {π : List BlockId} (hg : g.Checked) (hw : Walk g constant π e o h inner doms m)
include hg hw

omit hg in
theorem covered_of_offers (hk : Known g constant π o h doms p) (hp : p ∈ π)
    (hd : Offers g constant inner doms o p d) : Covered g constant π d := by
  rcases hd with ⟨hlevel, hd⟩ | ⟨c, hc, hcp, hd | ⟨hconst, hd⟩⟩
  · exact (hk.level hlevel).2 d hd
  · exact (hk.child c hc hcp).2 d hd
  · exact hw.shared c hc hconst ⟨p, hp, hcp⟩ d hd

omit hg in
/-- What a later predecessor adds is covered, or its loop is bypassed. -/
theorem covered_of_adds (hqb : [q, b] <:+: π) (hmerge : q ≠ p → g.MergesBefore q p b)
    (hd : Adds g constant inner o p d) : Covered g constant π d := by
  obtain ⟨c, hc, hcp, hconst, hd⟩ := hd
  by_cases hvisit : ∃ b ∈ π, g.Within c b
  · exact hw.shared c hc hconst hvisit d hd
  · have havoid : ∀ b ∈ π, ¬ g.Within c b := fun b hb hcb => hvisit ⟨b, hb, hcb⟩
    have hne : q ≠ p := fun he => havoid q (hqb.subset (by simp)) (he ▸ hcp)
    exact .inr ⟨c, hw.contained c hc d hd, hconst, havoid, q, p, b, hqb, hcp, hmerge hne⟩

/-- **One step along the path**, to a node. -/
theorem step (hk : Known g constant π o h doms p) (hpb : [p, b] <:+: π) (hin : g.Inside o b)
    (hb : g.IsNode o b) (hne : b ≠ h) (hp : g.Inside o p)
    (hout : ∀ c, g.IsChild o c → g.Within c p → ¬ g.Within c b) :
    b ∈ region g h ∧ ∀ d ∈ doms.of b, Covered g constant π d := by
  have hs := hw.path.succ_of_infix hpb
  have hfwd : ¬ g.Retreats p b := by
    intro hr
    obtain ⟨k, L, hL, rfl⟩ := hg.exists_loop_of_retreats hr
    have hklt : k < g.loops.length := (List.getElem?_eq_some_iff.1 hL).1
    rw [← Graph.header_eq hL] at hr hb hne hout
    rcases hb with hb | ⟨c, hc, he⟩
    · rw [hg.loopOf_header hklt] at hb
      subst hb
      exact hne hw.isStart.2.symm
    · obtain rfl := hg.header_inj hklt hc.1 he
      exact hout k hc (hg.within_of_retreats hklt hr) (hg.within_header hklt)
  constructor
  · rcases hg.level_or_child hp with hlevel | ⟨c, hc, hcp⟩
    · refine (hg.region_closed hw.isStart).2 p (hk.level hlevel).1 b ?_
      exact (hg.mem_explored_of_level hw.isStart hlevel).2 ⟨hs, hin, fun _ => hne⟩
    · refine (hg.region_closed hw.isStart).2 _ (hk.child c hc hcp).1 b ?_
      exact hg.mem_explored_of_child hw.isStart hc hcp hs (hout c hc hcp) hin
  · intro d hd
    have hmem := (hw.refined b d hd).2
    rw [refine, OrderedSet.mem_insert] at hmem
    rcases hmem with rfl | hmem
    · exact .inl (hpb.subset (by simp))
    obtain ⟨before, after, hpreds⟩ := List.append_of_mem ((mem_outerPreds hg).2 ⟨hs, hfwd⟩)
    rw [hpreds] at hmem
    rcases mem_foldl_arrive hg hw.isStart hb hin hne (fun x hx => hpreds ▸ hx) hmem with
      hd | ⟨x, hx, hd⟩
    · exact hw.covered_of_offers hk (hpb.subset (by simp)) hd
    · refine hw.covered_of_adds hpb (fun _ => .inr ⟨?_, ?_, ?_⟩) hd
      · rw [← Bool.not_eq_true, hg.isBackEdge_iff]
        exact hfwd
      · have hx' : x ∈ outerPreds g b := by simp [hpreds, hx]
        rw [← Bool.not_eq_true, hg.isBackEdge_iff]
        exact ((mem_outerPreds hg).1 hx').2
      · have hsub : [p, x].Sublist (outerPreds g b) := by
          rw [hpreds]
          refine List.Sublist.trans ?_ (List.sublist_append_right _ _)
          exact List.cons_sublist_cons.2 (List.singleton_sublist.2 hx)
        exact hsub.trans List.filter_sublist

/-- **All along the path**, from the start and inside the region. -/
theorem known (before leg after : List BlockId) (hπ : π = before ++ leg ++ q :: after)
    (hhead : (leg ++ [q]).head? = some h) (hin : ∀ x ∈ leg ++ [q], g.Inside o x) :
    Known g constant π o h doms q := by
  induction hn : leg.length using Nat.strong_induction_on generalizing leg q after with
  | _ k ih =>
    subst hn
    -- A node is come to from the start or over a block that is known already.
    have node : ∀ {leg' after' : List BlockId} {b : BlockId}, leg'.length ≤ leg.length →
        π = before ++ leg' ++ b :: after' → (leg' ++ [b]).head? = some h →
        (∀ x ∈ leg' ++ [b], g.Inside o x) → g.IsNode o b →
        (∀ p ∈ leg'.getLast?, ∀ c, g.IsChild o c → g.Within c p → ¬ g.Within c b) →
        b ∈ region g h ∧ ∀ d ∈ doms.of b, Covered g constant π d := by
      intro leg' after' b hlen hπ' hhead' hin' hb hout
      by_cases hbh : b = h
      · subst hbh
        refine ⟨(hg.region_closed hw.isStart).1, fun d hd => .inl ?_⟩
        rw [hw.start d hd, hπ']
        simp
      rcases List.eq_nil_or_concat leg' with rfl | ⟨leg'', p, rfl⟩
      · exact absurd (by simpa using hhead') hbh
      rw [List.concat_eq_append] at *
      have hπp : π = before ++ leg'' ++ p :: b :: after' := by simp [hπ']
      have hk : Known g constant π o h doms p := by
        refine ih leg''.length (by simpa [Nat.succ_le_iff] using hlen) leg'' _ hπp ?_ (fun x hx => hin' x ?_) rfl
        · simpa using hhead'
        · exact List.mem_append_left [b] hx
      refine hw.step hg hk ⟨before ++ leg'', after', by simp [hπp]⟩ (hin' b (by simp)) hb hbh
        (hin' p (by simp)) (hout p (by simp))
    refine ⟨fun hlevel => ?_, fun c hc hcq => ?_⟩
    · refine node (Nat.le_refl _) hπ hhead hin (.inl hlevel) fun p _ c hc _ => ?_
      exact hg.not_within_of_level hc hlevel
    · -- The stay in the inner loop was entered at its header.
      obtain ⟨xs, stay, he, hne, hall, hout⟩ := Shape.IsPath.exists_stretch_to hcq leg
      have hxs : xs ≠ [] := by
        rintro rfl
        rw [List.nil_append] at he
        rw [he] at hhead
        have := hall h (List.mem_of_mem_head? (by simp [hhead]))
        exact hg.start_not_in_child hw.isStart hc this
      obtain ⟨xs, u, rfl⟩ := (List.eq_nil_or_concat xs).resolve_left hxs
      obtain ⟨v, stay, rfl⟩ := List.exists_cons_of_ne_nil hne
      rw [List.concat_eq_append] at *
      have hu : ¬ g.Within c u := hout u (by simp)
      have hπ' : π = before ++ (xs ++ [u]) ++ v :: (stay ++ after) := by
        rw [hπ, List.append_cons, List.append_assoc before, he]
        simp
      have hs := hw.path.succ_of_infix (u := u) (v := v)
        ⟨before ++ xs, stay ++ after, by simp [hπ']⟩
      obtain rfl : v = g.header c := by
        by_contra hv
        exact hu (hg.within_of_succ (hall v (by simp)) hv hs)
      refine node ?_ hπ' ?_ (fun x hx => hin x ?_) (.inr ⟨c, hc, rfl⟩) fun p hp c' hc' hcp hcv => ?_
      · have := congrArg List.length he
        simp only [List.length_append, List.length_cons, List.length_nil] at this ⊢
        omega
      · rw [he] at hhead
        simpa using hhead
      · rw [he, List.append_cons]
        exact List.mem_append_left stay hx
      · obtain rfl := hg.child_unique hc' hc hcv (hg.within_header hc.1)
        exact hout p hp hcp

end Walk

/-! ### Loops that are entered -/

section Stay

variable {π : List BlockId} (hg : g.Checked) (hπ : g.IsPath g.entry π e) (he : g.succs e = [])
include hg hπ he

omit he in
/-- A loop is entered at its header. -/
theorem exists_entered (hb : b ∈ π) (hlb : g.Within l b) :
    ∃ xs u ys, π = xs ++ u :: g.header l :: ys ∧ ¬ g.Within l u := by
  obtain ⟨p₁, p₂, hsplit, -, -⟩ := hπ.split hb
  obtain ⟨xs, stay, hstay, hne, hall, hout⟩ := Shape.IsPath.exists_stretch_to hlb p₁
  obtain ⟨v, stay, rfl⟩ := List.exists_cons_of_ne_nil hne
  have hπ' : π = xs ++ v :: (stay ++ p₂) := by
    rw [hsplit, List.append_cons, hstay]
    simp
  have hxs : xs ≠ [] := by
    rintro rfl
    have hv : v = g.entry := by
      have := hπ.head
      rw [hπ'] at this
      simpa using this
    exact hg.not_within_entry l (hv ▸ hall v (by simp))
  obtain ⟨xs, u, rfl⟩ := (List.eq_nil_or_concat xs).resolve_left hxs
  rw [List.concat_eq_append] at *
  have hu : ¬ g.Within l u := hout u (by simp)
  have hs := hπ.succ_of_infix (u := u) (v := v) ⟨xs, stay ++ p₂, by simp [hπ']⟩
  obtain rfl : v = g.header l := by
    by_contra hv
    exact hu (hg.within_of_succ (hall v (by simp)) hv hs)
  exact ⟨xs, u, stay ++ p₂, by simp [hπ'], hu⟩

/-- A loop is left again. -/
theorem exists_left {xs ys : List BlockId} (hb : π = xs ++ b :: ys) (hlb : g.Within l b) :
    ∃ stay x t zs, b :: ys = stay ++ x :: t :: zs ∧ (∀ y ∈ stay ++ [x], g.Within l y) ∧
      ¬ g.Within l t := by
  obtain ⟨stay, after, hstay, hne, hall, hout⟩ := Shape.IsPath.exists_stretch_from hlb ys
  obtain ⟨stay, x, rfl⟩ := (List.eq_nil_or_concat stay).resolve_left hne
  rw [List.concat_eq_append] at *
  cases after with
  | nil =>
    -- The path ends outside all loops.
    have hlast := hπ.last
    rw [hb, hstay] at hlast
    obtain rfl : x = e := by simpa using hlast
    exact absurd (hall x (by simp)) (hg.not_within_end he l)
  | cons t zs => exact ⟨stay, x, t, zs, by simp [hstay], hall, hout t (by simp)⟩

/-- A path out of a region over a loop that was explored comes to an end of the
region that was not. -/
theorem exists_far_end (hl : l < g.loops.length) {pre post : List BlockId} {t : BlockId}
    (hsplit : π = pre ++ x :: t :: post) (hn : n < g.loops.length)
    (hregion : g.header n ∈ region g (g.header l)) (hne : g.header n ≠ g.header l)
    (hx : g.Within n x) (hnt : ¬ g.Within n t) (hlt : ¬ g.Within l t) :
    ∃ k, k ∈ (region g (g.header l)).flatMap (endsAt g (g.header l)) ∧
      k ∉ region g (g.header l) := by
  have hh : g.IsStart (some l) (g.header l) := ⟨hl, rfl⟩
  induction hk : post.length using Nat.strong_induction_on generalizing pre post x t n with
  | _ k ih =>
    subst hk
    have hs := hπ.succ_of_infix (u := x) (v := t) ⟨pre, post, by simp [hsplit]⟩
    by_cases hnear : g.depth t = g.loopDepth (some l) ∨ g.depth t = g.loopDepth (some l) + 1
    · -- The next loop beside the region is explored as well.
      have ht : t ∈ region g (g.header l) := by
        refine (hg.region_closed hh).2 _ hregion t ?_
        exact (hg.mem_explored_of_header hh hn hne).2 ⟨⟨x, hx, hs, hnt⟩, hnear⟩
      rcases hg.region_cases hh t ht with ⟨hin, -⟩ | ⟨⟨l', n', ho, hn', hpar, rfl⟩, hplace⟩
      · exact absurd hin hlt
      cases ho
      have hentry : π = (pre ++ [x]) ++ g.header n' :: post := by simp [hsplit]
      obtain ⟨stay, x', t', zs, hstay, hall, hout⟩ :=
        exists_left hg hπ he hentry (hg.within_header hn')
      have hx' := hall x' (by simp)
      have hne' : g.header n' ≠ g.header l := fun heq => hlt (heq ▸ hg.within_header hl)
      have hsplit' : π = (pre ++ [x] ++ stay) ++ x' :: t' :: zs := by
        rw [hsplit, List.append_cons, hstay]
        simp
      have hlx' : ¬ g.Within l x' := fun hlx =>
        hne' (by rw [hg.eq_of_parent_eq hn' hl hpar hx' hlx])
      have hlt' : ¬ g.Within l t' := by
        intro hin
        have hs' := hπ.succ_of_infix (u := x') (v := t') ⟨pre ++ [x] ++ stay, zs, by simp [hsplit']⟩
        obtain rfl : t' = g.header l := by
          by_contra hneq
          exact hlx' (hg.within_of_succ hin hneq hs')
        have hfwd : ¬ g.place (g.header l) ≤ g.place x' := fun hle =>
          hlx' (hg.within_of_retreats hl ⟨hs', hle⟩)
        have := hg.place_header_le hx'
        omega
      refine ih zs.length ?_ hsplit' hn' ht hne' hx' hout hlt' rfl
      have := congrArg List.length hstay
      simp at this
      omega
    · refine ⟨t, List.mem_flatMap.2 ⟨g.header n, hregion, ?_⟩, fun ht =>
        hnear (hg.depth_region hh ht)⟩
      refine hg.mem_endsAt_header hn hne hx hs hnt ?_
      rwa [← Bool.not_eq_true, hg.staysNear_iff hh]

end Stay

section Loop

variable {π : List BlockId} (hg : g.Checked)
  (hw : Walk g constant π e (some l) (g.header l) inner doms m)
include hg hw

/-- What every way round has is covered once the path goes round. -/
theorem Walk.covered_of_latch (hk : Known g constant π (some l) (g.header l) doms y)
    (hy : [y, g.header l] <:+: π) (hback : g.Retreats y (g.header l))
    (hd : d ∈ latchDominators g constant inner doms (g.header l)) : Covered g constant π d := by
  rcases latchDominators_cases hg hw.isStart.1 hback hd with hd | ⟨x, hx, hle, hd⟩
  · exact hw.covered_of_offers hk (hy.subset (by simp)) hd
  · refine hw.covered_of_adds hy (fun hne => .inl ⟨?_, ?_, ?_⟩) hd
    · exact hg.isBackEdge_iff.2 hback
    · exact hg.isBackEdge_iff.2 hx
    · exact Int.lt_iff_le_and_ne.2 ⟨hle, hne⟩

/-- Where the path leaves the loop there is an end whose set is covered, but for
what every way round has. -/
theorem Walk.exists_end (he : g.succs e = []) {t : BlockId} {pre post : List BlockId}
    (hk : Known g constant π (some l) (g.header l) doms x)
    (hsplit : π = pre ++ x :: t :: post) (hx : g.Within l x) (ht : ¬ g.Within l t) :
    ∃ k, k ∈ (region g (g.header l)).flatMap (endsAt g (g.header l)) ∧
      ∀ d ∈ doms.of k, Covered g constant π d := by
  have hs := hw.path.succ_of_infix (u := x) (v := t) ⟨pre, post, by simp [hsplit]⟩
  rcases hg.level_or_child (o := some l) hx with hlevel | ⟨c, hc, hcx⟩
  · obtain ⟨hregion, hcov⟩ := hk.level hlevel
    have hend := hg.mem_endsAt_level hw.isStart hlevel hs ht
    exact ⟨x, List.mem_flatMap.2 ⟨x, hregion, hend⟩, hcov⟩
  · have hct : ¬ g.Within c t := fun h => ht (hg.inside_of_child (o := some l) hc h)
    obtain ⟨k, hend, hout⟩ := exists_far_end hg hw.path he hw.isStart.1 hsplit hc.1
      (hk.child c hc hcx).1 (hg.header_child_ne hw.isStart hc) hcx hct ht
    exact ⟨k, hend, fun d hd => absurd (hw.refined k d hd).1 hout⟩

end Loop

theorem Table.walk {π : List BlockId} (ht : Table g constant limit fuel h inner doms m)
    (hg : g.Checked) (hh : g.IsStart o h) (hπ : g.IsPath g.entry π e)
    (hshared : ∀ {c r d}, c < g.loops.length → constant (g.header c) = true →
      (∃ b ∈ π, g.Within c b) → run g constant limit fuel (g.header c) = .ok r →
      r.isEmpty = false → d ∈ sharedByAll r → Covered g constant π d) :
    Walk g constant π e o h inner doms m where
  toConfirmed := ht.toConfirmed
  isStart := hh
  path := hπ
  contained c hc d hd := by
    obtain ⟨r, hr, hne, hdr⟩ := ht.analysed _ d hd
    exact within_of_shared hg hc.1 hr hne hdr
  shared c hc hconst hvisit d hd := by
    obtain ⟨r, hr, hne, hdr⟩ := ht.analysed _ d hd
    exact hshared hc.1 hconst hvisit hr hne hdr

/-- **What all ways out of a constant loop share is covered by a path that enters
it.** -/
theorem covered_of_shared {π : List BlockId} (hg : g.Checked) (hπ : g.IsPath g.entry π e)
    (he : g.succs e = []) (hround : g.GoesRound constant π) (hl : l < g.loops.length)
    (hconst : constant (g.header l) = true) (hvisit : ∃ b ∈ π, g.Within l b)
    (hrun : run g constant limit fuel (g.header l) = .ok m) (hm : m.isEmpty = false)
    (hd : d ∈ sharedByAll m) : Covered g constant π d := by
  induction fuel generalizing l m d with
  | zero =>
    cases hrun
    simp [OrderedMap.isEmpty, EmptyCollection.emptyCollection, OrderedMap.empty] at hm
  | succ fuel ih =>
    have hh : g.IsStart (some l) (g.header l) := ⟨hl, rfl⟩
    obtain ⟨fuel', inner, doms, hfuel, ht⟩ := exists_table hg hh hrun hm
    obtain rfl : fuel = fuel' := by omega
    have hw := ht.walk hg hh hπ fun hc hconst hvisit hr hne hd => ih hc hconst hvisit hr hne hd
    -- The path enters the loop, goes round and leaves it.
    obtain ⟨b, hb, hlb⟩ := hvisit
    obtain ⟨xs, u, ys, henter, hu⟩ := exists_entered hg hπ hb hlb
    have henter' : π = (xs ++ [u]) ++ g.header l :: ys := by simp [henter]
    obtain ⟨stay, x, t, zs, hstay, hall, ht'⟩ := exists_left hg hπ he henter' (hg.within_header hl)
    have hπ' : π = (xs ++ [u]) ++ (stay ++ [x]) ++ t :: zs := by
      rw [henter', hstay]
      simp
    have hhead : (stay ++ [x]).head? = some (g.header l) := by
      have := congrArg List.head? hstay
      rw [List.head?_cons] at this
      rw [this]
      cases stay <;> simp
    have hknown : ∀ q s₁ s₂, stay ++ [x] = s₁ ++ q :: s₂ →
        Known g constant π (some l) (g.header l) doms q := by
      intro q s₁ s₂ hq
      refine hw.known hg (xs ++ [u]) s₁ (s₂ ++ t :: zs) ?_ ?_ fun y hy => ?_
      · rw [hπ', hq]
        simp
      · rw [hq] at hhead
        cases s₁ <;> simpa using hhead
      · refine hall y ?_
        rw [hq, List.append_cons]
        exact List.mem_append_left s₂ hy
    have hlatch : ∀ d ∈ latchDominators g constant inner doms (g.header l),
        Covered g constant π d := by
      obtain ⟨y, ⟨s₁, s₂, hy⟩, hback⟩ := hround l hconst (xs ++ [u]) (stay ++ [x]) (t :: zs) hπ'
        (by simp) hall (by simp) (by simpa using hu) (by simpa using ht')
      have hyπ : [y, g.header l] <:+: π := by
        refine ⟨(xs ++ [u]) ++ s₁, s₂ ++ t :: zs, ?_⟩
        rw [hπ', ← hy]
        simp
      have hk := hknown y s₁ (g.header l :: s₂) (by rw [← hy]; simp)
      exact fun d hd => hw.covered_of_latch hg hk hyπ (hg.isBackEdge_iff.1 hback) hd
    have hsplit : π = ((xs ++ [u]) ++ stay) ++ x :: t :: zs := by simp [hπ']
    obtain ⟨k, hend, hcov⟩ :=
      hw.exists_end hg he (hknown x stay [] rfl) hsplit (hall x (by simp)) ht'
    -- What is shared is in the set of that end.
    have hset := (ht.ends k _).2 ⟨hend, rfl⟩
    have hmem := (OrderedSet.mem_interAll.1 hd).2 _ (OrderedMap.mem_values_of_get? hset)
    rcases OrderedSet.mem_union.1 hmem with hd | hd
    · exact hcov d hd
    · exact hlatch d hd

/-- **What a path to an end has to cover.** -/
theorem covered_of_entry {π : List BlockId} (hg : g.Checked)
    (hm : g.boundedDominators constant limit g.entry = .ok m) (he : g.succs e = [])
    (hd : d ∈ m.of e) (hπ : g.IsPath g.entry π e) (hround : g.GoesRound constant π) :
    Covered g constant π d := by
  have hh : g.IsStart none g.entry := rfl
  cases hset : m.get? e with
  | none =>
    rw [of_eq, hset] at hd
    exact absurd hd OrderedSet.not_mem_empty
  | some s =>
    have hne : m.isEmpty = false := by
      rw [OrderedMap.isEmpty, List.isEmpty_eq_false_iff]
      exact List.ne_nil_of_mem (OrderedMap.mem_entries_of_get? hset)
    obtain ⟨fuel, inner, doms, -, ht⟩ := exists_table hg hh hm hne
    have hw := ht.walk hg hh hπ fun hc hconst hvisit hr hne hd =>
      covered_of_shared hg hπ he hround hc hconst hvisit hr hne hd
    have hlevel : g.loopOf e = none := hg.loopOf_eq_none.2 (hg.not_within_end he)
    obtain ⟨_, rfl⟩ := (ht.ends e s).1 hset
    rw [of_eq, hset, Option.getD_some, OrderedSet.mem_union] at hd
    rcases hd with hd | hd
    · obtain ⟨leg, hleg, -⟩ := hπ.eq_snoc_end he
      refine ((hw.known hg [] leg [] (by simpa using hleg) ?_ (by simp)).level hlevel).2 d hd
      rw [← hleg]
      exact hπ.head
    · simp [latchDominators, hg.loopOf_start hh] at hd

end Bounded

/-- **Bounded dominators are on every path that bypasses no constant loop.**  For
every end and every path to it on which the constant loops go round, a bounded
dominator of the end is missing from the path exactly if the path bypasses a
constant loop that holds the dominator. -/
theorem boundedDominators_not_mem_iff_bypasses {g : Graph} (hg : g.Accepted)
    {constant : ConstantBounds} {limit : Int64} {m : DominatorTable} {d e : BlockId}
    {π : List BlockId} (hm : g.boundedDominators constant limit g.entry = .ok m)
    (he : g.succs e = []) (hd : m.dominates d e = true) (hπ : g.IsPath g.entry π e)
    (hround : g.GoesRound constant π) :
    d ∉ π ↔ ∃ l, g.Within l d ∧ g.Bypasses constant π l := by
  replace hg := hg.checked
  constructor
  · intro hnot
    have hmem : d ∈ m.of e := of_decide_eq_true hd
    refine (Bounded.covered_of_entry hg hm he hmem hπ hround).resolve_left hnot
  · rintro ⟨l, hld, hby⟩ hmem
    exact hby.avoids d hmem hld

/-- The end follows the entry, and also a loop that the entry may skip; the edge
from the entry comes first. -/
def Graph.skippable : Graph :=
  Graph.drawn 4 [(0, 1), (0, 2), (2, 3), (3, 2), (2, 1)] (by decide +kernel)

/-- The dominators of the ends, if the loop has a constant bound. -/
def Graph.skippableDominators : Outcome DominatorTable :=
  Graph.skippable.boundedDominators (fun b => b = 2) defaultStepLimit Graph.skippable.entry

/-- **The header of a loop that is skipped** dominates the end, and the path past
the loop bypasses it. -/
theorem boundedDominators_not_mem_iff_bypasses_skipped :
    (∃ m, Graph.skippableDominators = .ok m ∧ m.dominates 2 1 = true) ∧
      Graph.skippable.GoesRound (fun b => b = 2) [0, 1] ∧
      ∃ l, Graph.skippable.Within l 2 ∧ Graph.skippable.Bypasses (fun b => b = 2) [0, 1] l := by
  have hg : Graph.skippable.Accepted := Graph.accepted_drawn _
  have hm := Outcome.eq_ok_get (x := Graph.skippableDominators) (by decide +kernel)
  have hd : (Graph.skippableDominators.toOption.get (by decide +kernel)).dominates 2 1 = true := by
    decide +kernel
  have hout : ∀ l, ∀ b ∈ [0, 1], ¬ Graph.skippable.Within l b := by
    intro l b hb
    rcases List.mem_cons.1 hb with rfl | hb
    · exact hg.checked.not_within_entry l
    · rw [List.mem_singleton.1 hb]
      exact hg.checked.not_within_end (by decide +kernel) l
  have hround : Graph.skippable.GoesRound (fun b => b = 2) [0, 1] := by
    intro l _ xs stay ys hπ hne hall
    obtain ⟨b, hb⟩ := List.exists_mem_of_ne_nil _ hne
    exact absurd (hall b hb) (hout l b (by rw [hπ]; simp [hb]))
  refine ⟨⟨_, hm, hd⟩, hround, ?_⟩
  refine (boundedDominators_not_mem_iff_bypasses hg hm (by decide +kernel) hd ?_ hround).1
    (by decide)
  exact ⟨by decide +kernel, by decide +kernel, by decide +kernel⟩

end ConstantTime
