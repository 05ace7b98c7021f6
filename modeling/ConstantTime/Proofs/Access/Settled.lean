/-
# What a settled analysis knows

The rounds of `AccessAnalysis.ofGraph` end when one changes nothing.  Each block
and each loop is treated once in a round and writes its own entry only, so in a
round that changes nothing no step changes anything: every entry is what the
others make of it (`Checked.settled_ofGraph`).

A range may be missing while something it rests on is.  In a settled analysis
nothing is missing, and no number is negative, if no addition of the last round
has wrapped around (`Checked.known`).  The induction (`Checked.region_induction`)
goes from inner loops to outer ones and, inside a loop, by place: what a block of a
loop rests on lies in the loop and comes before it, and what a loop rests on lies
inside it or comes before its header.
-/

import ConstantTime.Access.Analysis
import ConstantTime.Proofs.Graph.Regions

namespace ConstantTime

/-! ### Ranges -/

namespace AccessRange

/-- The number lies in the range. -/
def Holds (r : AccessRange) (t : Int) : Prop := r.min.toInt ≤ t ∧ t ≤ r.max.toInt

/-- Neither end of the range is negative. -/
def Nonneg (r : AccessRange) : Prop := 0 ≤ r.min.toInt ∧ 0 ≤ r.max.toInt

/-- The number is added to both ends without wrapping around. -/
def AddExact (r : AccessRange) (n : Int64) : Prop :=
  (r.min + n).toInt = r.min.toInt + n.toInt ∧ (r.max + n).toInt = r.max.toInt + n.toInt

instance (r : AccessRange) (n : Int64) : Decidable (r.AddExact n) :=
  inferInstanceAs (Decidable (_ = _ ∧ _ = _))

variable {r s : AccessRange} {rs : List AccessRange} {t : Int}

theorem join_holds_left (h : r.Holds t) : (r.join s).Holds t := by
  unfold join Holds at *
  constructor
  · dsimp only
    split
    · next hlt =>
      rw [Int64.lt_iff_toInt_lt] at hlt
      omega
    · exact h.1
  · dsimp only
    split
    · next hlt =>
      rw [Int64.lt_iff_toInt_lt] at hlt
      omega
    · exact h.2

theorem join_holds_right (h : s.Holds t) : (r.join s).Holds t := by
  unfold join Holds at *
  constructor
  · dsimp only
    split
    · exact h.1
    · next hlt =>
      rw [Int64.lt_iff_toInt_lt] at hlt
      omega
  · dsimp only
    split
    · exact h.2
    · next hlt =>
      rw [Int64.lt_iff_toInt_lt] at hlt
      omega

theorem join_nonneg (hr : r.Nonneg) (hs : s.Nonneg) : (r.join s).Nonneg := by
  unfold join Nonneg at *
  constructor <;> dsimp only <;> split
  · exact hs.1
  · exact hr.1
  · exact hs.2
  · exact hr.2

/-- **What lies in one of several ranges lies in the range around them.** -/
theorem joinAll_holds (h : joinAll rs = some s) (hr : r ∈ rs) (ht : r.Holds t) : s.Holds t := by
  cases rs with
  | nil => simp at hr
  | cons a rs =>
    cases h
    have key : ∀ (rs : List AccessRange) (a : AccessRange), a.Holds t ∨ r ∈ rs →
        (rs.foldl join a).Holds t := by
      intro rs
      induction rs with
      | nil =>
        rintro a (ha | ha)
        · exact ha
        · simp at ha
      | cons b rs ih =>
        rintro a (ha | ha)
        · exact ih _ (.inl (join_holds_left ha))
        · rcases List.mem_cons.1 ha with rfl | ha
          · exact ih _ (.inl (join_holds_right ht))
          · exact ih _ (.inr ha)
    rcases List.mem_cons.1 hr with rfl | hr
    · exact key rs r (.inl ht)
    · exact key rs a (.inr hr)

/-- The range around two ranges with the property has it too. -/
def JoinClosed (P : AccessRange → Prop) : Prop := ∀ r s, P r → P s → P (r.join s)

theorem joinClosed_nonneg : JoinClosed Nonneg := fun _ _ => join_nonneg

variable {P : AccessRange → Prop}

theorem joinAll_closed (hP : JoinClosed P) (hne : rs ≠ []) (h : ∀ r ∈ rs, P r) :
    ∃ s, joinAll rs = some s ∧ P s := by
  cases rs with
  | nil => exact absurd rfl hne
  | cons a rs =>
    refine ⟨_, rfl, ?_⟩
    have key : ∀ (rs : List AccessRange) (a : AccessRange), P a → (∀ r ∈ rs, P r) →
        P (rs.foldl join a) := by
      intro rs
      induction rs with
      | nil => exact fun a ha _ => ha
      | cons b rs ih =>
        exact fun a ha hrs => ih _ (hP _ _ ha (hrs b (by simp)))
          fun r hr => hrs r (List.mem_cons_of_mem _ hr)
    exact key rs a (h a (by simp)) fun r hr => h r (List.mem_cons_of_mem _ hr)

/-- Of ranges that are all known the range around them is known. -/
theorem joinAll_filterMap_closed {α : Type} {f : α → Option AccessRange} {xs : List α}
    (hP : JoinClosed P) (hne : xs ≠ []) (h : ∀ x ∈ xs, ∃ r, f x = some r ∧ P r) :
    ∃ s, joinAll (xs.filterMap f) = some s ∧ P s := by
  refine joinAll_closed hP ?_ fun r hr => ?_
  · obtain ⟨x, hx⟩ := List.exists_mem_of_ne_nil _ hne
    obtain ⟨r, hr, -⟩ := h x hx
    exact List.ne_nil_of_mem (List.mem_filterMap.2 ⟨x, hx, hr⟩)
  · obtain ⟨x, hx, hxr⟩ := List.mem_filterMap.1 hr
    obtain ⟨r', hr', hn⟩ := h x hx
    rw [hxr] at hr'
    cases hr'
    exact hn

end AccessRange

/-! ### Rounds that change nothing -/

namespace AccessAnalysis

theorem settle_fixed {step : AccessAnalysis → AccessAnalysis} {n : Nat} {a r : AccessAnalysis}
    (h : settle step n a = some r) : step r = r := by
  induction n generalizing a with
  | zero => cases h
  | succ n ih =>
    rw [settle] at h
    split at h
    · next he =>
      cases h
      rw [he, he]
    · exact ih h

theorem settle_induction {step : AccessAnalysis → AccessAnalysis} {P : AccessAnalysis → Prop}
    (hstep : ∀ a, P a → P (step a)) {n : Nat} {a r : AccessAnalysis} (ha : P a)
    (h : settle step n a = some r) : P r := by
  induction n generalizing a with
  | zero => cases h
  | succ n ih =>
    rw [settle] at h
    split at h
    · cases h
      exact hstep a ha
    · exact ih (hstep a ha) h

/-- Every entry of the analysis is what the others make of it. -/
structure Settled (g : Graph) (count : AccessCounts) (bound : LoopBounds) (a : AccessAnalysis) :
    Prop where
  block : ∀ b ∈ g.ids, ∀ r, a.upTo g count b = some r → a.blocks.get? b = some r
  loop : ∀ l L, g.loop? l = some L → ∀ R, a.ofLoop g bound l L = some R →
    a.loops.get? L.header = some R

variable {g : Graph} {count : AccessCounts} {bound : LoopBounds} {a : AccessAnalysis}

theorem addBlock_loops (b : BlockId) : (a.addBlock g count b).loops = a.loops := by
  unfold addBlock
  split <;> rfl

theorem addBlock_get? {b x : BlockId} (h : x ≠ b) :
    (a.addBlock g count b).blocks.get? x = a.blocks.get? x := by
  unfold addBlock
  split
  · rfl
  · rw [OrderedMap.get?_insert, if_neg h]

theorem addBlock_eq_self {b : BlockId}
    (h : (a.addBlock g count b).blocks.get? b = a.blocks.get? b) : a.addBlock g count b = a := by
  unfold addBlock at h ⊢
  split at h
  · rfl
  · rw [OrderedMap.get?_insert, if_pos rfl] at h
    rw [OrderedMap.insert_eq_self h.symm]

theorem addLoop_blocks (l : LoopId) : (a.addLoop g bound l).blocks = a.blocks := by
  unfold addLoop
  split <;> rfl

theorem addLoop_get? {l : LoopId} {x : BlockId} (h : x ≠ g.header l) :
    (a.addLoop g bound l).loops.get? x = a.loops.get? x := by
  unfold addLoop
  split
  · rfl
  · next hb he =>
    obtain ⟨L, hL, hR⟩ := Option.bind_eq_some_iff.1 he
    obtain ⟨R, -, hbR⟩ := Option.map_eq_some_iff.1 hR
    cases hbR
    rw [OrderedMap.get?_insert, if_neg (by rwa [Graph.header_eq hL] at h)]

theorem addLoop_eq_self {l : LoopId}
    (h : (a.addLoop g bound l).loops.get? (g.header l) = a.loops.get? (g.header l)) :
    a.addLoop g bound l = a := by
  unfold addLoop at h ⊢
  split at h
  · rfl
  · next hb he =>
    obtain ⟨L, hL, hR⟩ := Option.bind_eq_some_iff.1 he
    obtain ⟨R, -, hbR⟩ := Option.map_eq_some_iff.1 hR
    cases hbR
    rw [Graph.header_eq hL, OrderedMap.get?_insert, if_pos rfl] at h
    rw [OrderedMap.insert_eq_self h.symm]

end AccessAnalysis

namespace Graph.Checked

open AccessAnalysis

variable {g : Graph} (hg : g.Checked) {count : AccessCounts} {bound : LoopBounds}
  {a : AccessAnalysis}
include hg

/-- **A round that changes nothing.** -/
theorem settled_of_round (h : AccessAnalysis.round g count bound a = a) :
    a.Settled g count bound := by
  unfold AccessAnalysis.round at h
  have hloops : ∀ (bs : List BlockId) (a : AccessAnalysis),
      (bs.foldl (addBlock g count) a).loops = a.loops := by
    intro bs
    induction bs with
    | nil => exact fun _ => rfl
    | cons b bs ih => exact fun a => (ih _).trans (addBlock_loops b)
  have hblocks : ∀ (ls : List LoopId) (a : AccessAnalysis),
      (ls.foldl (addLoop g bound) a).blocks = a.blocks := by
    intro ls
    induction ls with
    | nil => exact fun _ => rfl
    | cons l ls ih => exact fun a => (ih _).trans (addLoop_blocks l)
  -- the first half of the round writes blocks only, the second half loops only
  have hhalf : g.order.foldl (addBlock g count) a = a := by
    have h₁ := hblocks g.innerFirst (g.order.foldl (addBlock g count) a)
    have h₂ := hloops g.order a
    rw [h] at h₁
    generalize g.order.foldl (addBlock g count) a = a' at h₁ h₂
    cases a
    cases a'
    cases h₁
    cases h₂
    rfl
  rw [hhalf] at h
  constructor
  · intro b hb r hr
    have hfix := foldl_eq_self (fun a b => a.blocks.get? b) hg.nodup_order
      (fun a b _ x _ hne => addBlock_get? hne) (fun a b _ he => addBlock_eq_self he)
      (s := a) (fun b _ => by rw [hhalf]) b (hg.mem_order_iff.2 hb)
    rw [addBlock, hr] at hfix
    have := congrArg (fun a => a.blocks.get? b) hfix
    simpa using this.symm
  · intro l L hL R hR
    have hlt := (List.getElem?_eq_some_iff.1 hL).1
    have hmem : ∀ l ∈ g.innerFirst, l < g.loops.length := fun l hl => hg.lt_of_mem_innerFirst hl
    have hfix := foldl_eq_self (fun a l => a.loops.get? (g.header l)) hg.nodup_innerFirst
      (fun a l hl x hx hne => addLoop_get? fun he => hne (hg.header_inj (hmem x hx) (hmem l hl) he))
      (fun a l _ he => addLoop_eq_self he) (s := a) (fun l _ => by rw [h]) l (hg.mem_innerFirst hlt)
    rw [addLoop, hL, Option.bind_some, hR] at hfix
    have := congrArg (fun a => a.loops.get? L.header) hfix
    simpa using this.symm

theorem settled_ofGraph {limit : Int64} (h : AccessAnalysis.ofGraph g count bound limit = .ok a) :
    a.Settled g count bound := by
  unfold AccessAnalysis.ofGraph at h
  split at h
  · next hs =>
    cases h
    exact hg.settled_of_round (settle_fixed hs)
  · cases h

/-- **An analysis has entries for the blocks and loops of its graph only.** -/
theorem keyed_ofGraph {limit : Int64} (h : AccessAnalysis.ofGraph g count bound limit = .ok a) :
    (∀ b r, a.blocks.get? b = some r → b ∈ g.ids) ∧
      ∀ b R, a.loops.get? b = some R → ∃ m < g.loops.length, b = g.header m := by
  let P (a : AccessAnalysis) : Prop := (∀ b r, a.blocks.get? b = some r → b ∈ g.ids) ∧
    ∀ b R, a.loops.get? b = some R → ∃ m < g.loops.length, b = g.header m
  have hblock : ∀ a b, b ∈ g.order → P a → P (a.addBlock g count b) := by
    rintro a b hb ⟨hblocks, hloops⟩
    refine ⟨fun x r hx => ?_, by rwa [addBlock_loops]⟩
    by_cases he : x = b
    · exact he ▸ hg.mem_order_iff.1 hb
    · exact hblocks x r (by rwa [addBlock_get? he] at hx)
  have hloop : ∀ a l, l ∈ g.innerFirst → P a → P (a.addLoop g bound l) := by
    rintro a l hl ⟨hblocks, hloops⟩
    refine ⟨by rwa [addLoop_blocks], fun x R hx => ?_⟩
    by_cases he : x = g.header l
    · exact ⟨l, hg.lt_of_mem_innerFirst hl, he⟩
    · exact hloops x R (by rwa [addLoop_get? he] at hx)
  have hround : ∀ a, P a → P (AccessAnalysis.round g count bound a) := fun a ha =>
    List.foldlRecOn _ _ (List.foldlRecOn _ _ ha fun a ha b hb => hblock a b hb ha)
      fun a ha l hl => hloop a l hl ha
  unfold AccessAnalysis.ofGraph at h
  split at h
  · next hs =>
    cases h
    exact settle_induction hround ⟨by simp, by simp⟩ hs
  · cases h

end Graph.Checked

/-! ### Nothing is missing -/

namespace AccessAnalysis

/-- The number of accesses when a loop is left is exact. -/
def LeaveExact (before round last n : Int64) : Prop :=
  (leave before round last n).toInt = before.toInt + (n.toInt - 1) * round.toInt + last.toInt

/-- Nothing wraps around when a loop is left. -/
def LeavingExact (before round last : AccessRange) (n : Bound) : Prop :=
  LeaveExact before.min round.min last.min n.min ∧ LeaveExact before.max round.max last.max n.max

/-- No sum or product that the ranges rest on has wrapped around.  At the entry and at a
header the count starts afresh, and nothing is added to what arrives. -/
structure NoWrap (g : Graph) (count : AccessCounts) (bound : LoopBounds) (a : AccessAnalysis) :
    Prop where
  block : ∀ b ∈ g.ids, b ≠ g.entry → g.isHeader b = false →
    ∀ r ∈ a.arrivingFrom g b (g.preds b), r.AddExact (count b)
  loop : ∀ m < g.loops.length, ∀ R ∈ a.loops.get? (g.header m), ∀ b, g.Within m b →
    (∃ s ∈ g.succs b, ¬ g.Within m s) → ∀ last ∈ a.within g m b,
      LeavingExact R.before R.round last (visits (bound (g.header m)))

instance (before round last : AccessRange) (n : Bound) :
    Decidable (LeavingExact before round last n) :=
  inferInstanceAs (Decidable (_ = _ ∧ _ = _))

instance (g : Graph) (count : AccessCounts) (bound : LoopBounds) (a : AccessAnalysis) :
    Decidable (NoWrap g count bound a) :=
  decidable_of_iff (_ ∧ _) ⟨fun h => NoWrap.mk h.1 h.2, fun h => ⟨h.block, h.loop⟩⟩

theorem toInt_atLeastOne (x : Int64) : (if x < 1 then 1 else x).toInt = max x.toInt 1 := by
  split
  · next h =>
    have : x.toInt < 1 := by simpa [Int64.lt_iff_toInt_lt] using h
    rw [max_eq_right (by omega)]
    rfl
  · next h =>
    have : ¬ x.toInt < 1 := by simpa [Int64.lt_iff_toInt_lt] using h
    rw [max_eq_left (by omega)]

theorem visits_min (b : Bound) : (visits b).min.toInt = max b.min.toInt 1 := toInt_atLeastOne _

theorem visits_max (b : Bound) : (visits b).max.toInt = max b.max.toInt 1 := toInt_atLeastOne _

/-- The accesses up to a block are known. -/
def Known (a : AccessAnalysis) (b : BlockId) : Prop :=
  ∃ r, a.blocks.get? b = some r ∧ r.Nonneg

/-- When a loop is left, after a last round up to the exit. -/
def leaving (before round last : AccessRange) (n : Bound) : AccessRange :=
  ⟨leave before.min round.min last.min n.min, leave before.max round.max last.max n.max⟩

/-- The accesses of a loop are known, wherever it is left. -/
structure LoopKnown (g : Graph) (bound : LoopBounds) (a : AccessAnalysis) (l : LoopId) (L : Loop)
    (R : LoopAccesses) : Prop where
  loop : g.loop? l = some L
  accesses : a.loops.get? L.header = some R
  before : a.beforeLoop g L = some R.before
  before_nonneg : R.before.Nonneg
  round : AccessRange.joinAll (L.latches.filterMap (a.within g l)) = some R.round
  round_nonneg : R.round.Nonneg
  exit : ∀ b ∈ L.exiting, ∃ last, a.within g l b = some last ∧
    R.exits.get? b = some (leaving R.before R.round last (visits (bound L.header)))
  exit_nonneg : ∀ b r, R.exits.get? b = some r → r.Nonneg

/-- The accesses of a loop, made of what arrives before it and of what is seen
in it, which have the properties `P` and `Q`. -/
structure LoopMade (g : Graph) (bound : LoopBounds) (a : AccessAnalysis) (P Q : AccessRange → Prop)
    (l : LoopId) (L : Loop) (R : LoopAccesses) : Prop where
  accesses : a.loops.get? L.header = some R
  before : a.beforeLoop g L = some R.before
  before_spec : P R.before
  round : AccessRange.joinAll (L.latches.filterMap (a.within g l)) = some R.round
  round_spec : Q R.round
  exit : ∀ b ∈ L.exiting, ∃ last, a.within g l b = some last ∧ Q last ∧
    R.exits.get? b = some (leaving R.before R.round last (visits (bound L.header)))
  exits_only : ∀ b r, R.exits.get? b = some r → b ∈ L.exiting

end AccessAnalysis

/-- The block is in the loop, or anywhere in the function. -/
def Graph.In (g : Graph) (o : Option LoopId) (b : BlockId) : Prop := ∀ l, o = some l → g.Within l b

/-- The loop lies strictly inside the loop, or anywhere in the function. -/
def Graph.Inner (g : Graph) (o : Option LoopId) (m : LoopId) : Prop :=
  m < g.loops.length ∧ ∀ l, o = some l → g.Within l (g.header m) ∧ m ≠ l

/-- Everything in a loop, or in the function, is known. -/
def AccessAnalysis.KnownIn (g : Graph) (bound : LoopBounds) (a : AccessAnalysis)
    (o : Option LoopId) : Prop :=
  (∀ b ∈ g.ids, g.In o b → a.Known b) ∧ ∀ m, g.Inner o m → ∃ L R, a.LoopKnown g bound m L R

namespace Graph.Checked

open AccessAnalysis

variable {g : Graph} (hg : g.Checked) {count : AccessCounts} {bound : LoopBounds}
  {a : AccessAnalysis} {l m : LoopId} {b p x : BlockId}
include hg

theorem mem_exiting {L : Loop} (hL : g.loop? l = some L) :
    b ∈ L.exiting ↔ g.Within l b ∧ ∃ s ∈ g.succs b, ¬ g.Within l s := by
  unfold Loop.exiting
  rw [List.mem_filter, List.any_eq_true, OrderedSet.mem_toList, ← within_iff_mem hL]
  refine and_congr_right fun hb => ?_
  constructor
  · rintro ⟨⟨x, s⟩, hmem, hx⟩
    obtain rfl : x = b := by simpa using hx
    exact ⟨s, ((hg.mem_exits hL).1 hmem).2⟩
  · rintro ⟨s, hs, hout⟩
    exact ⟨⟨b, s⟩, (hg.mem_exits hL).2 ⟨hb, hs, hout⟩, by simp⟩

/-- What arrives over an edge is known if its source is and the loop it leaves is. -/
theorem arriving_known (bound : LoopBounds) (hs : b ∈ g.succs p) (hp : a.Known p)
    (hloop : ∀ m, g.Within m p → ¬ g.Within m b → ∃ L R, a.LoopKnown g bound m L R) :
    ∃ r, a.arriving g p b = some r ∧ r.Nonneg := by
  unfold arriving
  cases hlast : (g.loopsLeft p b).getLast? with
  | none => exact hp
  | some m =>
    obtain ⟨hmp, hmb⟩ := hg.mem_loopsLeft.1 (List.mem_of_getLast? hlast)
    obtain ⟨L, R, hm⟩ := hloop m hmp hmb
    obtain ⟨last, -, hr⟩ := hm.exit p ((hg.mem_exiting hm.loop).2 ⟨hmp, b, hs, hmb⟩)
    refine ⟨_, ?_, hm.exit_nonneg p _ hr⟩
    change (a.loops.get? (g.header m)).bind _ = _
    rw [header_eq hm.loop, hm.accesses]
    exact hr

theorem arriving_of_level {o : Option LoopId} (hp : g.loopOf p = o) (hb : g.Inside o b) :
    a.arriving g p b = a.blocks.get? p := by
  have hnone : g.loopsLeft p b = [] := by
    refine List.eq_nil_iff_forall_not_mem.2 fun l hl => ?_
    obtain ⟨hlp, hlb⟩ := hg.mem_loopsLeft.1 hl
    cases o with
    | none => exact hg.loopOf_eq_none.1 hp l hlp
    | some i => exact hlb (hg.within_trans ((hg.loopOf_eq_some.1 hp).2 l hlp) hb)
  rw [arriving, hnone]
  rfl

/-- Of the loops that are left, the one directly inside the region is the outermost. -/
theorem arriving_of_child {o : Option LoopId} {c : LoopId} (hc : g.IsChild o c)
    (hcp : g.Within c p) (hcb : ¬ g.Within c b) (hb : g.Inside o b) :
    a.arriving g p b = (a.loops.get? (g.header c)).bind fun R => R.exits.get? p := by
  have hlast : (g.loopsLeft p b).getLast? = some c := by
    have hmem : c ∈ g.loopsLeft p b := hg.mem_loopsLeft.2 ⟨hcp, hcb⟩
    obtain ⟨init, l, hsplit⟩ := (List.eq_nil_or_concat' _).resolve_left (List.ne_nil_of_mem hmem)
    have hpair := (hg.pairwise_loopsAround p).filter fun l => !g.contains (some l) b
    change (g.loopsLeft p b).Pairwise _ at hpair
    rw [hsplit] at hmem hpair ⊢
    rw [List.getLast?_concat]
    rcases List.mem_append.1 hmem with hinit | hl
    · -- a loop further out is around the region, and is not left
      have hlc := (List.pairwise_append.1 hpair).2.2 c hinit l List.mem_cons_self
      have hlb := (hg.mem_loopsLeft.1 (hsplit ▸ List.mem_append_right _ List.mem_cons_self)).2
      by_cases hne : l = c
      · rw [hne]
      · exfalso
        cases o with
        | none => exact hne (hg.parent_eq_none hc.1 hc.2 hlc)
        | some i => exact hlb (hg.within_trans ((hg.parent_eq_some hc.1 hc.2).2.2 l hne hlc) hb)
    · rw [List.mem_singleton.1 hl]
  rw [arriving, hlast]
  rfl

omit hg in
theorem within_of_level (h : g.loopOf x = some l) : a.within g l x = a.blocks.get? x :=
  if_pos h

/-- At a block of a loop directly inside. -/
theorem within_of_child {c : LoopId} (hc : g.IsChild (some l) c) (hcx : g.Within c x) :
    a.within g l x = (a.loops.get? (g.header c)).bind LoopAccesses.span := by
  have hinner : g.outermostInner (some l) x = some c := by
    refine (hg.outermostInner_eq_some fun l' hl' => ?_).2 ⟨hcx, hc.2⟩
    exact hg.parent_lt hc.1 (hc.2.trans hl')
  rw [AccessAnalysis.within, if_neg fun hl => hg.not_within_of_level hc hl hcx, hinner]
  rfl

/-- The accesses at a block as seen from a loop around it are known if those
further inside are, where the block leads out of the loops inside. -/
theorem within_known (bound : LoopBounds) (hx : g.Within l x) (hknown : a.Known x)
    (hloop : ∀ m, g.Within m x → g.Within l (g.header m) → m ≠ l → ∃ L R, a.LoopKnown g bound m L R)
    (hout : ∃ s ∈ g.succs x, ∀ m, g.Within m x → g.Within l (g.header m) → m ≠ l →
      ¬ g.Within m s) : ∃ r, a.within g l x = some r ∧ r.Nonneg := by
  rcases hg.level_or_child (o := some l) hx with he | ⟨c, hc, hcx⟩
  · rw [within_of_level he]
    exact hknown
  obtain ⟨hne, hlc, -⟩ := hg.parent_eq_some hc.1 hc.2
  obtain ⟨L, R, hR⟩ := hloop c hcx hlc (Ne.symm hne)
  obtain ⟨s, hs, hsout⟩ := hout
  obtain ⟨last, -, hr⟩ := hR.exit x
    ((hg.mem_exiting hR.loop).2 ⟨hcx, s, hs, hsout c hcx hlc (Ne.symm hne)⟩)
  obtain ⟨t, ht, hn⟩ := AccessRange.joinAll_closed AccessRange.joinClosed_nonneg
    (List.ne_nil_of_mem (OrderedMap.mem_values_of_get? hr)) fun r hr => by
      obtain ⟨y, hy⟩ := OrderedMap.mem_values_iff.1 hr
      exact hR.exit_nonneg y r hy
  refine ⟨t, ?_, hn⟩
  rw [hg.within_of_child hc hcx, header_eq hR.loop, hR.accesses]
  exact ht

section

variable {P Q : AccessRange → Prop} (hset : a.Settled g count bound)
include hset

/-- **What a block has** in a settled analysis: its own accesses where the count
starts afresh, and what arrives before them elsewhere. -/
theorem block_of_arriving (hP : AccessRange.JoinClosed P) (hb : b ∈ g.ids)
    (h : b ≠ g.entry → g.isHeader b = false →
      ∀ p ∈ g.preds b, ∃ r, a.arriving g p b = some r ∧ P r) :
    ((b = g.entry ∨ g.isHeader b = true) ∧
        a.blocks.get? b = some (AccessRange.exactly (count b))) ∨
      (b ≠ g.entry ∧ g.isHeader b = false) ∧
        ∃ r, a.arrivingFrom g b (g.preds b) = some r ∧ P r ∧
          a.blocks.get? b = some (r.add (AccessRange.exactly (count b))) := by
  by_cases hstart : b = g.entry ∨ g.isHeader b = true
  · refine .inl ⟨hstart, hset.block b hb _ ?_⟩
    rw [upTo, if_pos (by simpa using hstart)]
  · obtain ⟨hne, hh⟩ : b ≠ g.entry ∧ g.isHeader b = false := by simpa using hstart
    obtain ⟨u, hu, -⟩ := hg.exists_pred_before hb hne
    obtain ⟨r, hr, hn⟩ := AccessRange.joinAll_filterMap_closed hP
      (List.ne_nil_of_mem (hg.wellFormed.mem_preds_iff.2 hu)) (h hne hh)
    refine .inr ⟨⟨hne, hh⟩, r, hr, hn, hset.block b hb _ ?_⟩
    rw [upTo, if_neg (by simpa using hstart), arrivingFrom, hr]
    rfl

/-- **What a loop has** in a settled analysis. -/
theorem loop_of_within (hP : AccessRange.JoinClosed P) (hQ : AccessRange.JoinClosed Q) {L : Loop}
    (hL : g.loop? l = some L)
    (hbefore : ∀ p, g.header l ∈ g.succs p → ¬ g.Within l p →
      ∃ r, a.arriving g p (g.header l) = some r ∧ P r)
    (hwithin : ∀ x, g.Within l x → (∃ s ∈ g.succs x, s = g.header l ∨ ¬ g.Within l s) →
      ∃ r, a.within g l x = some r ∧ Q r) : ∃ R, a.LoopMade g bound P Q l L R := by
  have hlt := (List.getElem?_eq_some_iff.1 hL).1
  obtain ⟨u₀, hu₀⟩ := hg.retreats_header hL
  rw [← header_eq hL] at hu₀
  -- the ways in
  have hways : ∀ p, p ∈ (g.preds L.header).filter (fun p => !L.contains p) ↔
      g.header l ∈ g.succs p ∧ ¬ g.Within l p := by
    intro p
    rw [List.mem_filter, hg.wellFormed.mem_preds_iff, header_eq hL, within_iff, hL]
    simp [Loop.contains]
  obtain ⟨w, hw⟩ : ∃ w, w ∈ (g.preds L.header).filter (fun p => !L.contains p) := by
    have hne : g.header l ≠ g.entry := by
      intro he
      have := hg.wellFormed.mem_preds_iff.2 hu₀.1
      rw [he, hg.preds_entry] at this
      simp at this
    obtain ⟨w, hw, hlt'⟩ := hg.exists_pred_before (hg.header_ids hlt) hne
    exact ⟨w, (hways w).2 ⟨hw, fun hin => absurd (hg.place_header_le hin) (Nat.not_le.2 hlt')⟩⟩
  obtain ⟨before, hbef, hbn⟩ : ∃ r, a.beforeLoop g L = some r ∧ P r := by
    have hjoin := AccessRange.joinAll_filterMap_closed hP
      (f := fun p => a.arriving g p L.header) (List.ne_nil_of_mem hw) fun p hp => by
        obtain ⟨hs, hout⟩ := (hways p).1 hp
        rw [← header_eq hL]
        exact hbefore p hs hout
    unfold beforeLoop
    split
    · next he =>
      rw [he] at hw
      simp at hw
    · exact hjoin
  obtain ⟨round, hround, hrn⟩ := AccessRange.joinAll_filterMap_closed hQ (f := a.within g l)
    (List.ne_nil_of_mem ((hg.mem_latches hL).2 (header_eq hL ▸ hu₀))) fun x hx => by
      have hr := (hg.mem_latches hL).1 hx
      rw [← header_eq hL] at hr
      exact hwithin x (hg.within_of_retreats hlt hr) ⟨_, hr.1, .inl rfl⟩
  let exits : OrderedMap BlockId AccessRange := .ofList (L.exiting.filterMap fun b =>
    ((a.within g l b).map fun last =>
      leaving before round last (visits (bound L.header))).map (b, ·))
  have hget : ∀ {b r}, exits.get? b = some r ↔ b ∈ L.exiting ∧
      (a.within g l b).map (fun last => leaving before round last (visits (bound L.header))) =
        some r :=
    OrderedMap.get?_ofList_filterMap ((OrderedSet.nodup_toList _).filter _)
  have hacc : a.loops.get? L.header = some ⟨before, round, exits⟩ := by
    refine hset.loop l L hL _ ?_
    simp only [ofLoop, hbef, hround, Option.bind_eq_bind, Option.bind_some, exits, Option.map_map]
    rfl
  refine ⟨⟨before, round, exits⟩, hacc, hbef, hbn, hround, hrn, fun b hb => ?_,
    fun b r hr => (hget.1 hr).1⟩
  obtain ⟨hin, s, hs, hout⟩ := (hg.mem_exiting hL).1 hb
  obtain ⟨last, hlast, hn⟩ := hwithin b hin ⟨s, hs, .inr hout⟩
  exact ⟨last, hlast, hn, hget.2 ⟨hb, by rw [hlast]; rfl⟩⟩

end

/-! ### The induction -/

theorem ne_header_of_plain (hh : g.isHeader b = false) (hl : l < g.loops.length) :
    b ≠ g.header l := fun he => by
  have := hg.isHeader_iff.2 ⟨l, hl, he.symm⟩
  rw [hh] at this
  cases this

/-- An edge that does not go forward leads to a header. -/
theorem place_lt_of_plain (hh : g.isHeader b = false) (hs : b ∈ g.succs p) :
    g.place p < g.place b := by
  by_contra hge
  obtain ⟨l, L, hL, he⟩ := hg.exists_loop_of_retreats ⟨hs, by omega⟩
  exact hg.ne_header_of_plain hh (List.getElem?_eq_some_iff.1 hL).1 (by rw [header_eq hL, he])

section

variable {B : BlockId → Prop} {L : LoopId → Prop}
  (block : ∀ b ∈ g.ids, (g.isHeader b = false → ∀ p, b ∈ g.succs p →
    B p ∧ ∀ m, g.Within m p → ¬ g.Within m b → L m) → B b)
  (loop : ∀ m < g.loops.length, (∀ p, g.header m ∈ g.succs p → ¬ g.Within m p →
      B p ∧ ∀ c, g.Within c p → ¬ g.Within c (g.header m) → L c) →
    (∀ x, g.Within m x → B x) →
    (∀ c < g.loops.length, g.Within m (g.header c) → c ≠ m → L c) → L m)
include block loop

/-- If it holds of everything inside the loops of a region, it holds of everything
in the region. -/
theorem region_of_inner {o : Option LoopId}
    (hinner : ∀ m, g.Inner o m → (∀ b ∈ g.ids, g.In (some m) b → B b) ∧
      ∀ c, g.Inner (some m) c → L c) :
    (∀ b ∈ g.ids, g.In o b → B b) ∧ ∀ m, g.Inner o m → L m := by
  suffices h : ∀ k, ∀ b ∈ g.ids, g.place b = k → g.In o b →
      B b ∧ ∀ m, g.Inner o m → g.header m = b → L m from
    ⟨fun b hb hin => (h _ b hb rfl hin).1, fun m hm =>
      (h _ _ (hg.header_ids hm.1) rfl fun l hl => (hm.2 l hl).1).2 m hm rfl⟩
  intro k
  induction k using Nat.strong_induction_on with
  | _ k ih =>
    intro b hb hk hin
    -- a block of the region that comes before, and the loops that are left from it
    have hearlier : ∀ p, b ∈ g.succs p → g.place p < k → g.In o p →
        B p ∧ ∀ m, g.Within m p → ¬ g.Within m b → L m := by
      intro p hp hlt hpin
      refine ⟨(ih _ hlt p (Shape.mem_ids_of_mem_succs hp) rfl hpin).1, fun m hmp hmb => ?_⟩
      have hle := hg.place_header_le hmp
      have hm : g.Inner o m := by
        refine ⟨lt_of_within hmp, fun l hl => ?_⟩
        rcases hg.within_header_or (hpin l hl) hmp with hw | hw
        · exact ⟨hw, fun he => hmb (he ▸ hin l hl)⟩
        · exact absurd (hg.within_trans hw (hin l hl)) hmb
      exact (ih _ (by omega) _ (hg.header_ids hm.1) rfl fun l hl => (hm.2 l hl).1).2 m hm rfl
    constructor
    · refine block b hb fun hh p hs =>
        hearlier p hs (hk ▸ hg.place_lt_of_plain hh hs) fun l hl => ?_
      exact hg.within_of_succ (hin l hl) (hg.ne_header_of_plain hh (lt_of_within (hin l hl))) hs
    · rintro m hm rfl
      obtain ⟨hblocks, hloops⟩ := hinner m hm
      refine loop m hm.1 (fun p hp hout => ?_) (fun x hx => ?_) fun c hc hmc hne => ?_
      · refine hearlier p hp ?_ fun l hl => ?_
        · by_contra hge
          exact hout (hg.within_of_retreats hm.1 ⟨hp, by omega⟩)
        · refine hg.within_of_succ (hin l hl) (fun he => (hm.2 l hl).2 ?_) hp
          exact hg.header_inj hm.1 (lt_of_within (hin l hl)) he
      · exact hblocks x (hg.mem_ids_of_within hx) fun l hl => by cases hl; exact hx
      · exact hloops c ⟨hc, fun l hl => by cases hl; exact ⟨hmc, hne⟩⟩

/-- **Induction over regions**: inner loops come before outer ones and, inside a
loop, what a block or a loop rests on comes before it. -/
theorem region_induction (o : Option LoopId) :
    (∀ b ∈ g.ids, g.In o b → B b) ∧ ∀ m, g.Inner o m → L m := by
  induction hn : g.loops.length - g.loopDepth o using Nat.strong_induction_on generalizing o with
  | _ n ih =>
    refine hg.region_of_inner block loop fun m hm => ih _ ?_ (some m) rfl
    have hle := hg.loopDepth_le hm.1
    cases o with
    | none =>
      have := hg.loopDepth_pos hm.1
      have hzero : g.loopDepth none = 0 := rfl
      omega
    | some l =>
      obtain ⟨hw, hne⟩ := hm.2 l rfl
      have := hg.loopDepth_lt hw hm.1 (Ne.symm hne)
      omega

end

section

variable (hset : a.Settled g count bound) (hwrap : a.NoWrap g count bound)
include hset hwrap

theorem known_of_arriving (hcount : ∀ b, 0 ≤ count b) (hb : b ∈ g.ids)
    (h : b ≠ g.entry → g.isHeader b = false →
      ∀ p ∈ g.preds b, ∃ r, a.arriving g p b = some r ∧ r.Nonneg) : a.Known b := by
  have hown := Int64.le_iff_toInt_le.1 (hcount b)
  rw [Int64.toInt_zero] at hown
  rcases hg.block_of_arriving hset AccessRange.joinClosed_nonneg hb h with
    ⟨-, hr⟩ | ⟨⟨hne, hh⟩, r, hr, hn, hsum⟩
  · exact ⟨_, hr, hown, hown⟩
  · obtain ⟨hmin, hmax⟩ := hwrap.block b hb hne hh r hr
    exact ⟨_, hsum, hmin ▸ Int.add_nonneg hn.1 hown, hmax ▸ Int.add_nonneg hn.2 hown⟩

theorem loopKnown_of_within {L : Loop} (hL : g.loop? l = some L)
    (hbefore : ∀ p, g.header l ∈ g.succs p → ¬ g.Within l p →
      ∃ r, a.arriving g p (g.header l) = some r ∧ r.Nonneg)
    (hwithin : ∀ x, g.Within l x → (∃ s ∈ g.succs x, s = g.header l ∨ ¬ g.Within l s) →
      ∃ r, a.within g l x = some r ∧ r.Nonneg) : ∃ R, a.LoopKnown g bound l L R := by
  have hlt := (List.getElem?_eq_some_iff.1 hL).1
  obtain ⟨R, hR⟩ := hg.loop_of_within hset AccessRange.joinClosed_nonneg
    AccessRange.joinClosed_nonneg hL hbefore hwithin
  refine ⟨R, hL, hR.accesses, hR.before, hR.before_spec, hR.round, hR.round_spec, ?_, ?_⟩
  · intro b hb
    obtain ⟨last, hlast, -, hr⟩ := hR.exit b hb
    exact ⟨last, hlast, hr⟩
  · intro b r hr
    have hb := hR.exits_only b r hr
    obtain ⟨last, hlast, hn, hr'⟩ := hR.exit b hb
    cases hr.symm.trans hr'
    obtain ⟨hin, hout⟩ := (hg.mem_exiting hL).1 hb
    obtain ⟨hmin, hmax⟩ :=
      hwrap.loop l hlt R (header_eq hL ▸ hR.accesses) b hin hout last hlast
    rw [header_eq hL] at hmin hmax
    have hv₁ : 1 ≤ (visits (bound L.header)).min.toInt := visits_min _ ▸ le_max_right ..
    have hv₂ : 1 ≤ (visits (bound L.header)).max.toInt := visits_max _ ▸ le_max_right ..
    dsimp only [LeaveExact] at hmin hmax
    constructor
    · have := Int.mul_nonneg (Int.sub_nonneg.2 hv₁) hR.round_spec.1
      have := hR.before_spec.1
      have := hn.1
      simp only [leaving]
      omega
    · have := Int.mul_nonneg (Int.sub_nonneg.2 hv₂) hR.round_spec.2
      have := hR.before_spec.2
      have := hn.2
      simp only [leaving]
      omega

/-- **Everything is known.** -/
theorem knownIn (hcount : ∀ b, 0 ≤ count b) (o : Option LoopId) : a.KnownIn g bound o := by
  refine hg.region_induction (fun b hb harrive => ?_) (fun m hm harrive hblocks hloops => ?_) o
  · refine hg.known_of_arriving hset hwrap hcount hb fun _ hh p hp => ?_
    have hs := hg.wellFormed.mem_preds_iff.1 hp
    obtain ⟨hknown, hleft⟩ := harrive hh p hs
    exact hg.arriving_known bound hs hknown hleft
  · obtain ⟨L, hL⟩ := exists_loop hm
    refine ⟨L, hg.loopKnown_of_within hset hwrap hL (fun p hp hout => ?_) fun x hx hs => ?_⟩
    · obtain ⟨hknown, hleft⟩ := harrive p hp hout
      exact hg.arriving_known bound hp hknown hleft
    · obtain ⟨s, hs, hsout⟩ := hs
      refine hg.within_known bound hx (hblocks x hx)
        (fun c hc hmc hne => hloops c (lt_of_within hc) hmc hne)
        ⟨s, hs, fun c hc hmc hne hcs => ?_⟩
      rcases hsout with rfl | hsout
      · exact hne (hg.within_antisymm hcs hmc)
      · exact hsout (hg.within_trans hmc hcs)

theorem known (hcount : ∀ b, 0 ≤ count b) (hb : b ∈ g.ids) : a.Known b :=
  (hg.knownIn hset hwrap hcount none).1 b hb fun _ h => by cases h

theorem loopKnown (hcount : ∀ b, 0 ≤ count b) (hm : m < g.loops.length) :
    ∃ L R, a.LoopKnown g bound m L R :=
  (hg.knownIn hset hwrap hcount none).2 m ⟨hm, fun _ h => by cases h⟩

end

end Graph.Checked
end ConstantTime
