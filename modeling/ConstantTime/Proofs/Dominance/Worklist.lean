/-
# The queue of a region empties

A block taken from the queue queues its successors again, however often they have been
treated.  The queue comes to an end all the same, since a region has no cycle: it moves in
waves (`Waves`).  The blocks that stand in it together are one wave; what they queue stands
behind them and is the next.  Successors stand later in the order of the graph, so the
wave after `k` others holds no block of the first `k` places, and no wave holds more blocks
than there are.  With `n` blocks no more than `n * n` are taken (`Waves.exists_drain`).

An analysis therefore fails only where that of a loop inside has failed, and from the
inside out none does (`exists_regions`).  Whatever the limit is, nothing but the limit makes
an analysis fail (`code_of_constantLoopDominators`).
-/

import ConstantTime.Proofs.Dominance.InsideOut
import ConstantTime.Proofs.Graph.DominatorTree
import ConstantTime.Proofs.Word

namespace ConstantTime
namespace ConstantLoop

variable {g : Graph} {constant : ConstantBounds} {limit : Int64} {known : Regions}
  {o : Option LoopId} {current h n s : BlockId} {k : Nat} {queue now later : List BlockId}
  {w : Work}

/-- None of the loops directly inside a region has failed. -/
def NoneFailed (g : Graph) (known : Regions) (o : Option LoopId) : Prop :=
  ∀ c, g.IsChild o c → ∀ e, known.get? (g.header c) ≠ some (.error e)

/-- The queue in two waves: what is treated now, and what stands behind it. -/
structure Waves (g : Graph) (o : Option LoopId) (k : Nat) (now later queue : List BlockId) :
    Prop where
  eq : queue = now ++ later
  nodup : queue.Nodup
  node : ∀ b ∈ queue, b ∈ g.ids ∧ g.IsNode o b
  now : ∀ b ∈ now, k ≤ g.place b
  later : ∀ b ∈ later, k + 1 ≤ g.place b

section Follow

variable (hg : g.Checked) (hh : g.IsStart o h) (hknown : NoneFailed g known o)
include hg hh hknown

/-- An edge to a node can be followed. -/
theorem exists_follow (constant : ConstantBounds) (current : BlockId) (w : Work)
    (hs : g.IsNode o s) (hne : s ≠ h) :
    ∃ w', follow g constant known h current w s = .ok w' ∧ w'.queue = enqueue w.queue s := by
  have hok : ∀ e, g.isHeader s = true → known.get? s ≠ some (.error e) := by
    intro e hhead
    rcases hs with hlevel | ⟨c, hc, rfl⟩
    · rw [Graph.isHeader, hg.headedBy_of_level hh hlevel hne] at hhead
      cases hhead
    · exact hknown c hc e
  unfold follow
  dsimp only
  split
  · next hnew =>
    rw [Bool.and_eq_true] at hnew
    split
    · next e he => exact absurd he (hok e hnew.1)
    · exact ⟨_, rfl, rfl⟩
  · exact ⟨_, rfl, rfl⟩

theorem exists_foldlM_follow (constant : ConstantBounds) (current : BlockId)
    {todo : List BlockId} (htodo : ∀ s ∈ todo, g.IsNode o s ∧ s ≠ h) (w : Work) :
    ∃ w', todo.foldlM (follow g constant known h current) w = .ok w' ∧
      w'.queue = todo.foldl enqueue w.queue := by
  induction todo generalizing w with
  | nil => exact ⟨w, rfl, rfl⟩
  | cons s todo ih =>
    obtain ⟨hs, hne⟩ := htodo s List.mem_cons_self
    obtain ⟨w₁, hw₁, hqueue⟩ := exists_follow hg hh hknown constant current w hs hne
    obtain ⟨w', hw', hrest⟩ := ih (fun x hx => htodo x (List.mem_cons_of_mem _ hx)) w₁
    refine ⟨w', ?_, by rw [hrest, hqueue, List.foldl_cons]⟩
    rw [List.foldlM_cons, hw₁]
    exact hw'

end Follow

/-! ### Waves -/

namespace Waves

/-- A wave holds no block twice. -/
theorem length_le (hw : Waves g o k now later queue) : queue.length ≤ g.size := by
  rw [← g.length_ids]
  exact hw.nodup.length_le_of_subset fun b hb => (hw.node b hb).1

/-- The next wave begins when the one before is over. -/
theorem turn (hw : Waves g o k [] later queue) : Waves g o (k + 1) later [] queue :=
  ⟨hw.eq.trans (List.append_nil later).symm, hw.nodup, hw.node, hw.later, by simp⟩

/-- **One block is taken** and queues its successors. -/
theorem pop (hg : g.Checked) (hh : g.IsStart o h) (hw : Waves g o k (n :: now) later queue) :
    ∃ later', Waves g o k now later' ((g.regionSuccs n h).foldl enqueue (now ++ later)) := by
  obtain rfl := hw.eq
  obtain ⟨hn, hnode⟩ := hw.node n (by simp)
  have hsucc : ∀ s ∈ g.regionSuccs n h, g.IsNode o s ∧ g.place n < g.place s := fun s hs =>
    (hg.isNode_of_mem_regionSuccs hh hnode hs).imp_right And.right
  have hnodup : ((g.regionSuccs n h).foldl enqueue (now ++ later)).Nodup :=
    nodup_foldl_enqueue (List.nodup_cons.1 hw.nodup).2
  obtain ⟨new, hnew⟩ := prefix_foldl_enqueue (g.regionSuccs n h) (now ++ later)
  have hfrom : ∀ b ∈ new, b ∈ g.regionSuccs n h := by
    intro b hb
    have hmem : b ∈ (g.regionSuccs n h).foldl enqueue (now ++ later) := by
      rw [← hnew]
      exact List.mem_append_right _ hb
    refine (mem_foldl_enqueue.1 hmem).resolve_left fun hold => ?_
    rw [← hnew] at hnodup
    exact List.disjoint_of_nodup_append hnodup hold hb
  refine ⟨later ++ new, by rw [← hnew, List.append_assoc], hnodup, fun b hb => ?_,
    fun b hb => hw.now b (List.mem_cons_of_mem _ hb), fun b hb => ?_⟩
  · rcases mem_foldl_enqueue.1 hb with hb | hb
    · exact hw.node b (List.mem_cons_of_mem _ hb)
    · exact ⟨hg.mem_ids_of_mem_regionSuccs hb, (hsucc b hb).1⟩
  · rcases List.mem_append.1 hb with hb | hb
    · exact hw.later b hb
    · have := hw.now n List.mem_cons_self
      have := (hsucc b (hfrom b hb)).2
      omega

/-- The first block of a wave is treated. -/
theorem exists_treated (hg : g.Checked) (hh : g.IsStart o h) (hknown : NoneFailed g known o)
    (constant : ConstantBounds) (hw : Waves g o k (n :: now) later w.queue) :
    ∃ w₁ later', Waves g o k now later' w₁.queue ∧ ∀ steps,
      drain g constant known h (steps + 1) w = drain g constant known h steps w₁ := by
  have hqueue : w.queue = n :: (now ++ later) := by simpa using hw.eq
  obtain ⟨later', hnext⟩ := hw.pop hg hh
  have hnode := (hw.node n (by rw [hqueue]; simp)).2
  obtain ⟨w₁, hw₁, hq₁⟩ := exists_foldlM_follow hg hh hknown constant n
    (fun s hs => (hg.isNode_of_mem_regionSuccs hh hnode hs).imp_right And.left)
    { w with queue := now ++ later }
  refine ⟨w₁, later', hq₁ ▸ hnext, fun steps => ?_⟩
  rw [drain, hqueue]
  dsimp only
  rw [hw₁]
  rfl

/-- When no steps are needed, the queue is empty. -/
theorem eq_nil_of_steps (hg : g.Checked) (hw : Waves g o k now later queue)
    (hsteps : now.length + g.size * (g.size - (k + 1)) = 0) : queue = [] := by
  have hlater : later = [] := by
    refine List.eq_nil_iff_forall_not_mem.2 fun b hb => ?_
    have hid := (hw.node b (by rw [hw.eq]; exact List.mem_append_right _ hb)).1
    have := hg.place_lt_size hid
    have := hw.later b hb
    have hpos : 0 < g.size * (g.size - (k + 1)) := Nat.mul_pos (by omega) (by omega)
    omega
  have hnow : now = [] := List.eq_nil_of_length_eq_zero (by omega)
  rw [hw.eq, hnow, hlater, List.append_nil]

/-- The next wave needs fewer steps than are left after this one. -/
theorem steps_lt (hg : g.Checked) (hw : Waves g o k [] (n :: later) queue) :
    later.length + g.size * (g.size - (k + 1 + 1)) < g.size * (g.size - (k + 1)) := by
  have hid := (hw.node n (by rw [hw.eq]; simp)).1
  have hplace := hg.place_lt_size hid
  have hk := hw.later n List.mem_cons_self
  have hlen := hw.length_le
  rw [hw.eq, List.nil_append, List.length_cons] at hlen
  obtain ⟨m, hm⟩ : ∃ m, g.size - (k + 1) = m + 1 := ⟨g.size - (k + 2), by omega⟩
  have : g.size - (k + 1 + 1) = m := by omega
  rw [hm, this, Nat.mul_succ]
  omega

/-- **The queue empties**: the present wave, and as many waves as there are places left. -/
theorem exists_drain (hg : g.Checked) (hh : g.IsStart o h) (hknown : NoneFailed g known o)
    (constant : ConstantBounds) {steps : Nat} (hw : Waves g o k now later w.queue)
    (hsteps : now.length + g.size * (g.size - (k + 1)) ≤ steps) :
    ∃ w', drain g constant known h steps w = .ok (some w') := by
  induction steps generalizing w k now later with
  | zero =>
    have hqueue := hw.eq_nil_of_steps hg (by omega)
    rw [drain, hqueue]
    exact ⟨w, rfl⟩
  | succ steps ih =>
    cases now with
    | cons n now =>
      obtain ⟨w₁, later', hw₁, htreat⟩ := hw.exists_treated hg hh hknown constant
      rw [List.length_cons] at hsteps
      rw [htreat]
      exact ih hw₁ (by omega)
    | nil =>
      cases later with
      | nil =>
        have hqueue : w.queue = [] := hw.eq
        rw [drain, hqueue]
        exact ⟨w, rfl⟩
      | cons n later =>
        -- this wave is over, and what it has queued is the next
        have hless := hw.steps_lt hg
        obtain ⟨w₁, later', hw₁, htreat⟩ := hw.turn.exists_treated hg hh hknown constant
        rw [List.length_nil] at hsteps
        rw [htreat]
        exact ih hw₁ (by omega)

end Waves

/-! ### Regions -/

section Limit

variable (hg : g.Checked) (hsquare : ((g.size * g.size + 1 : Nat) : Int) ≤ limit.toInt)
  (hfits : limit.toInt * ((g.size + 1 : Nat) : Int) < 2 ^ 63)
include hg hsquare hfits

/-- **An analysis succeeds** unless that of a loop inside has failed. -/
theorem exists_analyse (constant : ConstantBounds) (hh : g.IsStart o h)
    (hknown : NoneFailed g known o) :
    ∃ r, analyse g constant limit known h = .ok r := by
  have hnonneg : ¬ stepLimit g limit < 0 := not_mul_ofNat_lt_zero (by omega) hfits
  have hwaves : Waves g o 0 [h] [] [h] :=
    ⟨rfl, List.nodup_singleton h, by simp [hg.start_mem_ids hh, hg.isNode_start hh], by simp,
      by simp⟩
  have htaken : [h].length + g.size * (g.size - (0 + 1)) ≤ (stepLimit g limit).toInt.toNat + 1 := by
    have : g.size * (g.size - (0 + 1)) ≤ (stepLimit g limit).toInt.toNat := by
      calc g.size * (g.size - (0 + 1)) ≤ g.size * g.size := Nat.mul_le_mul_left _ (Nat.sub_le _ _)
        _ ≤ (g.size * g.size + 1) * 1 := by rw [Nat.mul_one]; exact Nat.le_succ _
        _ ≤ (g.size * g.size + 1) * (g.size + 1) := Nat.mul_le_mul_left _ (Nat.le_add_left _ _)
        _ ≤ (stepLimit g limit).toInt.toNat :=
            mul_le_toNat_mul_ofNat (Nat.le_add_left _ _) hsquare hfits
    rw [List.length_singleton]
    omega
  let first : Work :=
    { tallies := (∅ : OrderedMap BlockId Tally).insert h ((∅ : Tally).insert h .once)
      queue := [h] }
  obtain ⟨w', hw'⟩ : ∃ w', drain g constant known h _ first = .ok (some w') :=
    hwaves.exists_drain hg hh hknown constant htaken
  unfold analyse
  dsimp only
  rw [if_neg hnonneg, hw']
  exact ⟨_, rfl⟩

/-- **No loop fails.** -/
theorem exists_regions (constant : ConstantBounds) :
    ∀ l < g.loops.length, ∃ r, (regions g constant limit).get? (g.header l) = some (.ok r) := by
  refine regions_induction hg (P := fun known l => ∃ r, known.get? (g.header l) = some (.ok r))
    ?_ ?_
  · intro known known' l hl hsame
    dsimp only
    rw [hsame l hl (hg.within_header hl)]
    exact id
  · intro known l hl _ hinner
    have hnone : NoneFailed g known (some l) := by
      intro c hc e he
      obtain ⟨hne, hw, -⟩ := hg.parent_eq_some hc.1 hc.2
      obtain ⟨r, hr⟩ := hinner c hc.1 hw hne.symm
      rw [hr] at he
      cases he
    have hh : g.IsStart (some l) (g.header l) := ⟨hl, rfl⟩
    obtain ⟨r, hr⟩ := exists_analyse hg hsquare hfits constant hh hnone
    exact ⟨r, by simp [hr]⟩

end Limit
/-! ### Failures -/

section Failures

/-- The loops that failed did so at the limit. -/
def FailedAtLimit (known : Regions) : Prop :=
  ∀ b e, known.get? b = some (.error e) → e.code = .notConverged

variable {start : BlockId} {f : Failure} {steps : Nat}

theorem code_of_follow (hknown : FailedAtLimit known)
    (h : follow g constant known start current w s = .error f) : f.code = .notConverged := by
  unfold follow at h
  dsimp only at h
  split at h
  · split at h
    · next e he =>
      cases h
      exact hknown s _ he
    · cases h
  · cases h

theorem code_of_drain (hknown : FailedAtLimit known)
    (h : drain g constant known start steps w = .error f) : f.code = .notConverged := by
  fun_induction drain g constant known start steps w with
  | case1 => cases h
  | case2 => cases h
  | case3 w current rest hq steps ih =>
    rcases Outcome.bind_eq_error.1 h with h | ⟨next, -, h⟩
    · exact Outcome.foldlM_error (fun _ _ _ => code_of_follow hknown) h
    · exact ih next h

theorem code_of_analyse (hknown : FailedAtLimit known)
    (h : analyse g constant limit known start = .error f) : f.code = .notConverged := by
  unfold analyse at h
  dsimp only at h
  rcases Outcome.bind_eq_error.1 h with h | ⟨w, -, h⟩
  · exact code_of_drain hknown h
  · cases w with
    | none =>
      cases h
      exact Cause.finding_code _
    | some w => cases h

theorem failedAtLimit_regions (g : Graph) (constant : ConstantBounds) (limit : Int64) :
    FailedAtLimit (regions g constant limit) := by
  unfold regions
  refine List.foldlRecOn _ _ (fun b e h => by simp at h) fun known hknown l _ => ?_
  intro b e h
  dsimp only at h
  rw [OrderedMap.get?_insert] at h
  split at h
  · exact code_of_analyse hknown (Option.some_inj.1 h)
  · exact hknown b e h

end Failures

end ConstantLoop

/-- **The queues of the constant-loop analysis never meet the limit.** -/
theorem exists_constantLoopDominators {g : Graph} {limit : Int64} (hg : g.Checked)
    (hsquare : ((g.size * g.size + 1 : Nat) : Int) ≤ limit.toInt)
    (hfits : limit.toInt * ((g.size + 1 : Nat) : Int) < 2 ^ 63) (constant : ConstantBounds)
    (endOnly : Bool) :
    ∃ m, g.constantLoopDominators constant limit endOnly g.entry = .ok m := by
  have hnone : ConstantLoop.NoneFailed g (ConstantLoop.regions g constant limit) none := by
    intro c hc e he
    obtain ⟨r, hr⟩ := ConstantLoop.exists_regions hg hsquare hfits constant c hc.1
    rw [hr] at he
    cases he
  have hh : g.IsStart none g.entry := rfl
  obtain ⟨r, hr⟩ := ConstantLoop.exists_analyse hg hsquare hfits constant hh hnone
  unfold Graph.constantLoopDominators
  dsimp only
  rw [ConstantLoop.get?_regions_entry hg, hr]
  exact ⟨_, rfl⟩

/-- **The analysis fails at its limit only.** -/
theorem code_of_constantLoopDominators {g : Graph} {constant : ConstantBounds} {limit : Int64}
    {endOnly : Bool} {root : BlockId} {f : Failure}
    (h : g.constantLoopDominators constant limit endOnly root = .error f) :
    f.code = .notConverged := by
  have hknown := ConstantLoop.failedAtLimit_regions g constant limit
  unfold Graph.constantLoopDominators at h
  dsimp only at h
  split at h
  · next r hr =>
    rcases Outcome.bind_eq_error.1 h with h | ⟨r', -, h⟩
    · exact hknown root f (h ▸ hr)
    · cases h
  · rcases Outcome.bind_eq_error.1 h with h | ⟨r, -, h⟩
    · exact ConstantLoop.code_of_analyse hknown h
    · cases h

end ConstantTime
