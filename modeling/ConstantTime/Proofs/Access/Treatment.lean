/-
# How many blocks are treated

`CounterPlan.drain` treats the block at the head of its queue until the queue is empty.  A
block without a register gets one (`step_treats`), and as long as some block has none, one
of those is in the queue (`Drafted.exists_queued`).  The blocks before it have registers:
they are taken off the queue, or go to its end until all their predecessors have one.  So
either there is one block less without a register, or the first of them has come closer to
the head (`Drafted.toTreat_lt`).

With `n` blocks that is `n * (n + 1) + n` treatments at most, and the limit allows
`(n * n + 1) * (n + 1)`.
-/

import ConstantTime.Proofs.Access.Placement
import ConstantTime.Proofs.Graph.Search
import ConstantTime.Proofs.Outcome
import ConstantTime.Proofs.Word

namespace ConstantTime
namespace CounterPlan

variable {g : Graph} {c : EdgeAmounts} {width most limit : Int64} {d d' : Draft}
  {b : BlockId} {rest : List BlockId} {steps : Nat}

/-- Has the block no register yet? -/
def Draft.lacks (d : Draft) (b : BlockId) : Bool := !d.hasRegister b

/-- The blocks without a register. -/
def Draft.lacking (g : Graph) (d : Draft) : List BlockId := g.ids.filter d.lacks

/-- A bound for the number of treatments to come: a whole queue for every block without a
register, and the blocks before the first of them. -/
def Draft.toTreat (g : Graph) (d : Draft) : Nat :=
  (d.lacking g).length * (g.size + 1) + d.queue.findIdx d.lacks

theorem Draft.lacks_eq_true : d.lacks b = true ↔ d.hasRegister b = false := by
  rw [Draft.lacks, Bool.not_eq_true']

theorem Draft.mem_lacking : b ∈ d.lacking g ↔ b ∈ g.ids ∧ d.hasRegister b = false := by
  rw [Draft.lacking, List.mem_filter, Draft.lacks_eq_true]

theorem Draft.length_lacking_le : (d.lacking g).length ≤ g.size := by
  rw [← g.length_ids]
  exact List.length_filter_le _ _

/-! ### Treating one block -/

/-- Subtracting before the branches leaves the registers of the blocks and the queue. -/
theorem foldl_subtractOn_keeps (c : EdgeAmounts) (width : Int64) (b : BlockId)
    (ps : List BlockId) (acc : Draft × List (Register × BlockId)) :
    (ps.foldl (subtractOn c width b) acc).1.plan.registers = acc.1.plan.registers ∧
      (ps.foldl (subtractOn c width b) acc).1.queue = acc.1.queue := by
  induction ps generalizing acc with
  | nil => exact ⟨rfl, rfl⟩
  | cons p ps ih =>
    obtain ⟨hregs, hqueue⟩ : (subtractOn c width b acc p).1.plan.registers =
        acc.1.plan.registers ∧ (subtractOn c width b acc p).1.queue = acc.1.queue := by
      unfold subtractOn
      dsimp only
      split <;> exact ⟨rfl, rfl⟩
    rw [List.foldl_cons, ← hregs, ← hqueue]
    exact ih _

/-- What the treatment of a block does to the registers and to the queue. -/
structure Treats (g : Graph) (d : Draft) (b : BlockId) (d' : Draft) : Prop where
  /-- The block has a register, and no other block has got one. -/
  registers : ∀ x, d'.hasRegister x = true ↔ x = b ∨ d.hasRegister x = true
  /-- The block waits only for a predecessor without a register. -/
  queue : d'.queue = (queueSuccs g d b).queue ∨
    (d'.queue = enqueue (queueSuccs g d b).queue b ∧ ∃ p ∈ g.preds b, d'.hasRegister p = false)

theorem Treats.of_assign (r : Register)
    (hregs : d'.plan.registers = d.plan.registers.insert b r)
    (hqueue : d'.queue = (queueSuccs g d b).queue) : Treats g d b d' := by
  refine ⟨fun x => ?_, .inl hqueue⟩
  rw [Draft.hasRegister, hregs]
  exact OrderedMap.contains_insert

theorem joinPreds_treats : Treats g d b (joinPreds g c width (queueSuccs g d b) b) := by
  unfold joinPreds
  dsimp only
  generalize hd₁ : (if (queueSuccs g d b).hasRegister b = true then _ else _) = d₁
  have hregs : ∀ x, d₁.hasRegister x = true ↔ x = b ∨ d.hasRegister x = true := by
    intro x
    rw [← hd₁]
    split
    · next hb => exact ⟨.inr, fun h => h.elim (fun he => he ▸ hb) id⟩
    · exact OrderedMap.contains_insert
  have hqueue : d₁.queue = (queueSuccs g d b).queue := by
    rw [← hd₁]
    split <;> rfl
  split
  · obtain ⟨hregs', hqueue'⟩ := foldl_subtractOn_keeps c width b (g.preds b) (d₁, [])
    refine ⟨fun x => ?_, .inl (hqueue'.trans hqueue)⟩
    rw [← hregs, Draft.hasRegister, Draft.hasRegister, ← hregs']
    rfl
  · next hready =>
    refine ⟨hregs, .inr ⟨by rw [hqueue], ?_⟩⟩
    obtain ⟨p, hp, hno⟩ : ∃ p ∈ g.preds b, d₁.hasRegister p = false := by simpa using hready
    exact ⟨p, hp, hno⟩

/-- What was queued stays at the head of the queue. -/
theorem Treats.prefix_queue (h : Treats g d b d') : d.queue <+: d'.queue := by
  have hsuccs : d.queue <+: (queueSuccs g d b).queue := prefix_foldl_enqueue _ _
  rcases h.queue with hqueue | ⟨hqueue, -⟩
  · rwa [hqueue]
  · rw [hqueue]
    exact hsuccs.trans (prefix_foldl_enqueue [b] _)

/-- Nothing is queued any more once every block has a register. -/
theorem Treats.queue_eq_of_lacking_nil (hg : g.Checked) (h : Treats g d b d')
    (hall : d'.lacking g = []) : d'.queue = d.queue := by
  have hreg : ∀ x ∈ g.ids, d'.hasRegister x = true := fun x hx =>
    Bool.not_eq_false _ ▸ fun hno => List.not_mem_nil (hall ▸ Draft.mem_lacking.2 ⟨hx, hno⟩)
  have hsuccs : (queueSuccs g d b).queue = d.queue := by
    have hnone : (g.succs b).filter (fun s => s ≠ b && !d.hasRegister s) = [] := by
      rw [List.filter_eq_nil_iff]
      intro s hs
      have := (h.registers s).1 (hreg s (hg.wellFormed.isBlock_of_mem_succs hs))
      simpa [imp_iff_not_or] using this
    rw [queueSuccs, hnone, List.foldl_nil]
  rcases h.queue with hqueue | ⟨-, p, hp, hno⟩
  · exact hqueue.trans hsuccs
  · rw [hreg p (Shape.mem_ids_of_mem_succs (hg.wellFormed.mem_preds_iff.1 hp))] at hno
    cases hno

/-- **What the treatment of a block does**, whatever the number of its predecessors. -/
theorem step_treats (h : step g c width most d b = .ok d') : Treats g d b d' := by
  unfold step at h
  dsimp only at h
  split at h
  · cases h
    exact .of_assign _ rfl rfl
  · next p hpreds =>
    unfold continueFrom at h
    split at h
    · cases h
      exact .of_assign _ rfl rfl
    · split at h
      · cases h
      · cases h
        exact .of_assign _ rfl rfl
  · cases h
    exact joinPreds_treats

/-! ### The bound goes down -/

section Queue

variable (hg : g.Checked) (hd : Drafted g c most d)
include hg hd

theorem Drafted.queue_ids : ∀ x ∈ d.queue, x ∈ g.ids := by
  intro x hx
  obtain ⟨⟨p, hp, -⟩, -⟩ := hd.ready x hx
  exact hg.wellFormed.isBlock_of_mem_succs hp

theorem Drafted.length_queue_le : d.queue.length ≤ g.size := by
  rw [← g.length_ids]
  exact hd.nodup.length_le_of_subset (hd.queue_ids hg)

/-- **Some block of the queue has no register**, as long as any block has none. -/
theorem Drafted.exists_queued (hb : b ∈ d.lacking g) : ∃ x ∈ d.queue, d.lacks x = true := by
  by_contra hnone
  push Not at hnone
  obtain ⟨hid, hno⟩ := Draft.mem_lacking.1 hb
  -- then the registers have spread along a path from the entry
  obtain ⟨p, hp, -⟩ := hg.exists_ascending hid
  have hreg := hp.snoc_induction (motive := fun _ x => d.hasRegister x = true) hd.entry
    fun p u v _ hv hu => (hd.spread u hu v hv).elim id fun hq =>
      Bool.not_eq_false _ ▸ fun h => hnone v hq (Draft.lacks_eq_true.2 h)
  rw [hno] at hreg
  cases hreg

/-- A block whose treatment waits for others comes closer to a block without a register. -/
theorem Drafted.toTreat_lt_of_hasRegister (hq : d.queue = b :: rest) (hb : d.hasRegister b = true)
    (htreats : Treats g { d with queue := rest } b d') : d'.toTreat g < d.toTreat g := by
  have hlacks : d'.lacks = d.lacks := by
    funext x
    rw [Draft.lacks, Draft.lacks, Bool.not_inj_iff, Bool.eq_iff_iff, htreats.registers]
    exact ⟨fun h => h.elim (fun he => he ▸ hb) id, .inr⟩
  have hhead : d.queue.findIdx d.lacks = rest.findIdx d.lacks + 1 := by
    rw [hq, List.findIdx_cons, Draft.lacks, hb]
    rfl
  have hfirst : d'.queue.findIdx d.lacks ≤ rest.findIdx d.lacks := by
    by_cases hlater : ∃ x ∈ rest, d.lacks x = true
    · obtain ⟨t, ht⟩ := htreats.prefix_queue
      rw [← ht, List.findIdx_append, if_pos (List.findIdx_lt_length.2 hlater)]
    · have hall : d.lacking g = [] := List.eq_nil_iff_forall_not_mem.2 fun x hx => by
        obtain ⟨y, hy, hlack⟩ := hd.exists_queued hg hx
        rw [hq] at hy
        rcases List.mem_cons.1 hy with rfl | hy
        · rw [Draft.lacks, hb] at hlack
          cases hlack
        · exact hlater ⟨y, hy, hlack⟩
      rw [htreats.queue_eq_of_lacking_nil hg (by rw [Draft.lacking, hlacks]; exact hall)]
  rw [Draft.toTreat, Draft.toTreat, Draft.lacking, hlacks, hhead]
  exact Nat.add_lt_add_left (Nat.lt_succ_of_le hfirst) _

/-- A block that gets a register. -/
theorem Drafted.toTreat_lt_of_lacks (hd' : Drafted g c most d')
    (hq : d.queue = b :: rest) (hb : d.hasRegister b = false)
    (htreats : Treats g { d with queue := rest } b d') : d'.toTreat g < d.toTreat g := by
  have hid : b ∈ g.ids := hd.queue_ids hg b (by rw [hq]; exact List.mem_cons_self)
  have hlacking : d'.lacking g = (d.lacking g).erase b := by
    rw [Draft.lacking, Draft.lacking, (g.nodup_ids.filter _).erase_eq_filter, List.filter_filter]
    refine List.filter_congr fun x _ => ?_
    rw [Bool.eq_iff_iff, Draft.lacks_eq_true, Bool.and_eq_true, bne_iff_ne, Draft.lacks_eq_true,
      ← Bool.not_eq_true, htreats.registers, not_or, Bool.not_eq_true]
    rfl
  have hlen := List.length_erase_add_one (Draft.mem_lacking.2 ⟨hid, hb⟩)
  have hplace : d'.queue.findIdx d'.lacks ≤ g.size :=
    List.findIdx_le_length.trans (hd'.length_queue_le hg)
  rw [Draft.toTreat, Draft.toTreat, hlacking, ← hlen, Nat.succ_mul]
  omega

/-- **Every treatment brings the bound down.** -/
theorem Drafted.toTreat_lt (hq : d.queue = b :: rest)
    (h : CounterPlan.step g c width most { d with queue := rest } b = .ok d') :
    Drafted g c most d' ∧ d'.toTreat g < d.toTreat g := by
  have hd' := hd.step hg.wellFormed hg.preds_entry hq h
  refine ⟨hd', ?_⟩
  cases hb : d.hasRegister b with
  | true => exact hd.toTreat_lt_of_hasRegister hg hq hb (step_treats h)
  | false => exact hd.toTreat_lt_of_lacks hg hd' hq hb (step_treats h)

/-- With a block in the queue there is something to treat. -/
theorem Drafted.toTreat_pos (hq : d.queue = b :: rest) : 0 < d.toTreat g := by
  rw [Draft.toTreat]
  cases hb : d.hasRegister b with
  | true =>
    rw [hq, List.findIdx_cons, Draft.lacks, hb]
    exact Nat.succ_pos _
  | false =>
    have hid := hd.queue_ids hg b (by rw [hq]; exact List.mem_cons_self)
    have hpos := List.length_pos_of_mem (Draft.mem_lacking.2 ⟨hid, hb⟩)
    have := Nat.mul_pos hpos (show 0 < g.size + 1 from Nat.succ_pos _)
    omega

end Queue

/-- **Within the bound the queue empties**, or an amount is too wide. -/
theorem Drafted.drain_ne_none (hg : g.Checked) (hd : Drafted g c most d)
    (hsteps : d.toTreat g ≤ steps) :
    CounterPlan.drain g c width most steps d ≠ .ok none := by
  induction steps generalizing d with
  | zero =>
    unfold CounterPlan.drain
    split
    · simp
    · next b rest hq =>
      have := hd.toTreat_pos hg hq
      omega
  | succ steps ih =>
    unfold CounterPlan.drain
    split
    · simp
    · next b rest hq =>
      dsimp only
      cases hs : CounterPlan.step g c width most { d with queue := rest } b with
      | error e => exact fun h => nomatch h
      | ok d₁ =>
        obtain ⟨hd₁, hlt⟩ := hd.toTreat_lt hg hq hs
        exact ih hd₁ (by omega)

/-! ### The limit -/

theorem step_error {f : Failure} (h : step g c width most d b = .error f) :
    f.code = .immediateWidth := by
  unfold step at h
  dsimp only at h
  split at h
  · cases h
  · unfold continueFrom at h
    split at h
    · cases h
    · split at h
      · cases h
        exact Cause.finding_code _
      · cases h
  · cases h

/-- A placement is given up only for an amount that does not fit an immediate. -/
theorem drain_error {f : Failure} (h : drain g c width most steps d = .error f) :
    f.code = .immediateWidth := by
  fun_induction drain g c width most steps d with
  | case1 => cases h
  | case2 => cases h
  | case3 d b rest hq steps ih =>
    cases hs : step g c width most { d with queue := rest } b with
    | ok d₁ =>
      rw [hs] at h
      exact ih d₁ h
    | error e =>
      rw [hs] at h
      cases h
      exact step_error hs

/-- When the queue is empty, every block has a register. -/
theorem hasRegister_of_drain (hg : g.Checked)
    (h : drain g c width most steps { queue := [g.entry] } = .ok (some d)) (hb : b ∈ g.ids) :
    d.hasRegister b = true := by
  by_cases hsize : g.size = 1
  · cases steps with
    | zero => cases h
    | succ steps =>
      rw [drain_of_single hg hsize] at h
      cases h
      obtain rfl : b = g.entry := by
        have := Shape.mem_ids.1 hb
        unfold Shape.entry
        lia
      exact OrderedMap.contains_insert.2 (.inl rfl)
  · exact ((placed_of_drain hg hsize h).2 b hb).1

section Limit

variable (hg : g.Checked) (hsquare : ((g.size * g.size + 1 : Nat) : Int) ≤ limit.toInt)
  (hfits : limit.toInt * ((g.size + 1 : Nat) : Int) < 2 ^ 63)
include hg hsquare hfits

/-- **The placement ends within its limit**, if no amount is too wide. -/
theorem drain_ne_none :
    drain g c width most ((stepLimit g limit).toInt.toNat + 1) { queue := [g.entry] } ≠
      .ok none := by
  by_cases hsize : g.size = 1
  · rw [drain_of_single hg hsize]
    simp
  · rw [drain_entry hg]
    have hd : Drafted g c most _ := drafted_loadEntry hg.wellFormed hg.preds_entry hsize width
    refine hd.drain_ne_none hg ?_
    generalize loadEntry g width most _ g.entry = d at hd
    have hqueue : d.queue.findIdx d.lacks ≤ g.size :=
      List.findIdx_le_length.trans (hd.length_queue_le hg)
    calc d.toTreat g ≤ g.size * (g.size + 1) + g.size :=
          Nat.add_le_add (Nat.mul_le_mul_right _ Draft.length_lacking_le) hqueue
      _ ≤ (g.size * g.size + 1) * (g.size + 1) := by
          have := Nat.le_mul_self g.size
          have := Nat.mul_le_mul_right (g.size + 1) this
          lia
      _ ≤ (stepLimit g limit).toInt.toNat :=
          mul_le_toNat_mul_ofNat (Nat.le_add_left _ _) hsquare hfits

/-- **Counters never meet the limit**: a counter that is not placed is not needed, or an
amount is too wide for the form an edge allows. -/
theorem code_ne_of_ofAmounts {e : BlockId} (hend : g.end? = some e) {range : AccessRange}
    {rootLike : Bool} {config : Config} {f : Failure} (hlimit : config.maxIterations = limit)
    (h : ofAmounts g c range rootLike config = .error f) : f.code ≠ .notConverged := by
  subst hlimit
  have hpos : ¬ stepLimit g config.maxIterations < 0 := not_mul_ofNat_lt_zero (by omega) hfits
  unfold ofAmounts at h
  dsimp only at h
  rw [if_neg hpos] at h
  split at h
  · cases h
    change (Cause.finding _).code ≠ _
    rw [Cause.finding_code]
    decide
  · rw [hend] at h
    dsimp only at h
    generalize hdrain : drain g c config.immediateWidth range.max _ _ = r at h
    cases r with
    | error f' =>
      cases h
      rw [drain_error hdrain]
      decide
    | ok o =>
      cases o with
      | none => exact absurd hdrain (drain_ne_none hg hsquare hfits)
      | some d =>
        change (if d.hasRegister e = true then _ else _) = _ at h
        rw [if_pos (hasRegister_of_drain hg hdrain (Shape.end?_eq_some hend).1)] at h
        cases h

end Limit

end CounterPlan
end ConstantTime
