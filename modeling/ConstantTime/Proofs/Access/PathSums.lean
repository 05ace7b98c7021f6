/-
# A counter sums up the amounts on a path

The plan of a counter for a function of more than one block is in single assignment form
(`CounterPlan.SingleAssignment`): the blocks have registers, a block where ways meet has
one selection, with a source for each predecessor, and every register of the counter that
is held, read or written has one definition.  So executed along any path to the end, it
hands over the greatest number of accesses less the sum of the amounts on the path
(`CounterPlan.sums_paths`).

A block may hold the register of its predecessor, and a block where ways meet holds its
own long before it is defined.  That there is a definition in the end follows along a path
from the entry (`exists_definition`).
-/

import ConstantTime.Proofs.Access.Execution
import ConstantTime.Proofs.Access.Treatment

namespace ConstantTime

theorem CounterCode.op_eq_iff {code : CounterCode} :
    code.op = "PHI" ↔ ∃ r sources, code = .select r sources := by
  cases code with
  | load long => cases long <;> simp [op]
  | subtract long => cases long <;> simp [op]
  | select => simp [op]
  | copy => simp [op]
  | call => simp [op]

namespace CounterPlan

/-- The register is held by a block, written or read. -/
def Mentions (p : CounterPlan) (r : Register) : Prop :=
  (∃ b, p.registers.get? b = some r) ∨
    ∃ i ∈ p.instrs, i.code.dst? = some r ∨ r ∈ i.code.srcs

/-- The instructions that write a register. -/
def definitions (p : CounterPlan) (r : Register) : List CounterInstr :=
  p.instrs.filter fun i => i.code.dst? = some r

/-- The instructions that join counters in a block. -/
def selections (p : CounterPlan) (b : BlockId) : List CounterInstr :=
  (p.inBlock b).filter fun i => i.code.op = "PHI"

/-- Registers for the blocks, one join where ways meet, and one definition for each
register of the counter. -/
structure SingleAssignment (g : Graph) (p : CounterPlan) : Prop where
  registers : ∀ b, p.registers.contains b = true ↔ b ∈ g.ids
  joins : ∀ b, 2 ≤ (g.preds b).length → ∃ r sources, p.registers.get? b = some r ∧
    p.selections b = [⟨b, .start, .select r sources⟩] ∧ sources.map Prod.snd = g.preds b
  defined : ∀ n, p.Mentions (.virtual n) → ∃ i, p.definitions (.virtual n) = [i]

variable {g : Graph} {c : EdgeAmounts} {width most : Int64} {m : Held} {is : List CounterInstr}
  {d d' : Draft} {used steps : Nat} {b : BlockId} {i : CounterInstr} {r : Register}

/-! ### Registers are for blocks -/

theorem Drafted.mem_ids_of_drain (hg : g.Checked) (hd : Drafted g c most d)
    (hids : ∀ x, d.hasRegister x = true → x ∈ g.ids)
    (h : CounterPlan.drain g c width most steps d = .ok (some d')) :
    ∀ x, d'.hasRegister x = true → x ∈ g.ids := by
  induction steps generalizing d with
  | zero =>
    unfold CounterPlan.drain at h
    split at h
    · cases h
      exact hids
    · cases h
  | succ steps ih =>
    unfold CounterPlan.drain at h
    split at h
    · cases h
      exact hids
    · next b rest hq =>
      obtain ⟨d₁, hs, hrest⟩ := Outcome.bind_eq_ok.1 h
      refine ih (hd.step hg.wellFormed hg.preds_entry hq hs) (fun x hx => ?_) hrest
      rcases ((step_treats hs).registers x).1 hx with rfl | hx
      · exact hd.queue_ids hg x (by rw [hq]; exact List.mem_cons_self)
      · exact hids x hx

theorem hasRegister_iff_of_drain (hg : g.Checked) (hsize : g.size ≠ 1)
    (h : drain g c width most steps { queue := [g.entry] } = .ok (some d)) :
    d.hasRegister b = true ↔ b ∈ g.ids := by
  refine ⟨fun hb => ?_, hasRegister_of_drain hg h⟩
  cases steps with
  | zero => cases h
  | succ steps =>
    rw [drain_entry hg] at h
    have hd : Drafted g c most _ := drafted_loadEntry hg.wellFormed hg.preds_entry hsize width
    refine hd.mem_ids_of_drain hg (fun x hx => ?_) h b hb
    have hstep : step g c width most { queue := [] } g.entry =
        .ok (loadEntry g width most (queueSuccs g { queue := [] } g.entry) g.entry) := by
      rw [step, hg.preds_entry]
    rcases ((step_treats hstep).registers x).1 hx with rfl | hx
    · exact hg.entry_mem
    · cases hx

/-! ### One definition -/

section Placed

variable (hg : g.Checked) (hlaid : Laid g c most (fun _ => False) m is used)
  (hplaced : ∀ b ∈ g.ids, m.contains b = true ∧ Done g c most m is b)
include hg hplaced

/-- The register of a block is written, at the block or at one on the way to it. -/
theorem exists_definition (hb : b ∈ g.ids) : ∃ i ∈ is, i.code.dst? = some (m.at b) := by
  obtain ⟨p, hp, -⟩ := hg.exists_ascending hb
  refine hp.snoc_induction (motive := fun _ b => ∃ i ∈ is, i.code.dst? = some (m.at b)) ?_ ?_
  · obtain ⟨-, hdone⟩ := hplaced g.entry hg.entry_mem
    rw [Done, hg.preds_entry] at hdone
    obtain ⟨long, hi⟩ := hdone
    exact ⟨_, hi, rfl⟩
  · intro q u v _ hv ih
    obtain ⟨-, hdone⟩ := hplaced v (hg.wellFormed.isBlock_of_mem_succs hv)
    have huv := hg.wellFormed.mem_preds_iff.2 hv
    unfold Done at hdone
    split at hdone
    · obtain ⟨long, hi⟩ := hdone
      exact ⟨_, hi, rfl⟩
    · next p hpreds =>
      obtain rfl : u = p := by rwa [hpreds, List.mem_singleton] at huv
      obtain ⟨-, ⟨-, hsame⟩ | ⟨n, -, long, hi⟩⟩ := hdone
      · rwa [hsame]
      · exact ⟨_, hi, rfl⟩
    · obtain ⟨sources, hi, -⟩ := hdone
      exact ⟨_, hi, rfl⟩

include hlaid

/-- A register that is read is written. -/
theorem exists_definition_of_srcs (hids : ∀ b, m.contains b = true → b ∈ g.ids) (hi : i ∈ is)
    (hr : r ∈ i.code.srcs) : ∃ j ∈ is, j.code.dst? = some r := by
  cases hlaid.fits i hi with
  | load => simp [CounterCode.srcs] at hr
  | continued _ _ hp =>
    rw [List.mem_singleton.1 hr]
    exact exists_definition hg hplaced (hids _ hp)
  | cut _ _ hp =>
    rw [List.mem_singleton.1 hr]
    exact exists_definition hg hplaced (hids _ hp)
  | @join b sources hb hpreds =>
    obtain ⟨x, hx, rfl⟩ := List.mem_map.1 hr
    have hdone := (hplaced b (hids b hb)).2
    unfold Done at hdone
    split at hdone
    · next he => rw [he] at hpreds; simp at hpreds
    · next p he => rw [he] at hpreds; simp at hpreds
    · -- the selection at the block is the one whose sources have been fed
      obtain ⟨sources', hi', -, hfeeds⟩ := hdone
      have hsame := (codesAt_start hlaid hi).symm.trans (codesAt_start hlaid hi')
      obtain rfl : sources = sources' := by simpa using hsame
      obtain ⟨hx₂, ⟨-, hx₁⟩ | ⟨long, hcut⟩⟩ := hfeeds x hx
      · rw [hx₁]
        exact exists_definition hg hplaced (hids _ hx₂)
      · exact ⟨_, hcut, rfl⟩

/-- A register that a block holds is written, too. -/
theorem exists_definition_of_mentions (hids : ∀ b, m.contains b = true → b ∈ g.ids)
    (hr : (∃ b, m.get? b = some r) ∨ ∃ i ∈ is, i.code.dst? = some r ∨ r ∈ i.code.srcs) :
    ∃ j ∈ is, j.code.dst? = some r := by
  obtain ⟨b, hb⟩ | ⟨i, hi, hr | hr⟩ := hr
  · rw [← Held.at_eq hb]
    exact exists_definition hg hplaced (hids b (OrderedMap.contains_iff.2 ⟨r, hb⟩))
  · exact ⟨i, hi, hr⟩
  · exact exists_definition_of_srcs hg hlaid hplaced hids hi hr

/-! ### One join -/

omit hg hplaced in
/-- What is selected in a block is what the block holds. -/
theorem dst?_of_op_eq (hi : i ∈ is) (hop : i.code.op = "PHI") :
    i.code.dst? = some (m.at i.block) := by
  obtain ⟨r, sources, hcode⟩ := CounterCode.op_eq_iff.1 hop
  cases hlaid.fits i hi with
  | load => cases hcode
  | continued => cases hcode
  | cut => cases hcode
  | join => rfl

theorem exists_selection (hpreds : 2 ≤ (g.preds b).length) :
    m.get? b = some (m.at b) ∧ ∃ sources,
      is.filter (fun i => i.code.op = "PHI" && i.block = b) =
        [⟨b, .start, .select (m.at b) sources⟩] ∧ sources.map Prod.snd = g.preds b := by
  obtain ⟨p, hp⟩ := List.exists_mem_of_length_pos (l := g.preds b) (by omega)
  have hb : b ∈ g.ids := hg.wellFormed.isBlock_of_mem_succs (hg.wellFormed.mem_preds_iff.1 hp)
  obtain ⟨hreg, hdone⟩ := hplaced b hb
  unfold Done at hdone
  split at hdone
  · next he => rw [he] at hpreds; simp at hpreds
  · next p he => rw [he] at hpreds; simp at hpreds
  · obtain ⟨sources, hi, hsnd, -⟩ := hdone
    refine ⟨Held.get?_at hreg, sources, ?_, hsnd⟩
    refine hlaid.filter_eq_singleton (r := m.at b) hi (by simp [CounterCode.op]) fun j hj => ?_
    obtain ⟨hj, hat⟩ := List.mem_filter.1 hj
    simp only [Bool.and_eq_true, decide_eq_true_eq] at hat
    rw [dst?_of_op_eq hlaid hj hat.1, hat.2]

end Placed

/-! ### The plan -/

/-- What is handed over joins nothing, writes none of the registers of the counter, and
reads only the one it is given. -/
theorem of_mem_handOverCodes {long rootLike : Bool} {total : Int64} {symbol : String}
    {code : CounterCode} (h : code ∈ handOverCodes long total symbol rootLike r) :
    code.op ≠ "PHI" ∧ ∀ n, code.dst? ≠ some (.virtual n) ∧
      (.virtual n ∈ code.srcs → r = .virtual n) := by
  have hcases : code = .load long .most total false ∨ code = .copy .remaining r ∨
      code = .load long .remaining total true ∨ code = .call symbol := by
    cases rootLike <;> simp [handOverCodes] at h <;> tauto
  rcases hcases with rfl | rfl | rfl | rfl
  · cases long <;> simp [CounterCode.op, CounterCode.dst?, CounterCode.srcs]
  · simp [CounterCode.op, CounterCode.dst?, CounterCode.srcs, eq_comm]
  · cases long <;> simp [CounterCode.op, CounterCode.dst?, CounterCode.srcs]
  · simp [CounterCode.op, CounterCode.dst?, CounterCode.srcs]

/-- What is handed over has no part in what only the placement does. -/
theorem filter_handOver {total : Int64} {symbol : String} {rootLike : Bool} {e : BlockId}
    {p : CounterInstr → Bool}
    (hp : ∀ code ∈ handOverCodes (width < total) total symbol rootLike (d.register e),
      p ⟨e, .beforeBranch, code⟩ = false) :
    (handOver width total symbol rootLike d e).instrs.filter p = d.plan.instrs.filter p := by
  have hnil : ((handOverCodes (width < total) total symbol rootLike (d.register e)).map
      fun code => (⟨e, .beforeBranch, code⟩ : CounterInstr)).filter p = [] := by
    rw [List.filter_eq_nil_iff]
    intro i hi
    obtain ⟨code, hcode, rfl⟩ := List.mem_map.1 hi
    rw [hp code hcode]
    exact Bool.false_ne_true
  rw [handOver_instrs, List.filter_append, hnil, List.append_nil]

/-- **A placement is in single assignment form**, with what is handed over at the end. -/
theorem singleAssignment_handOver (hg : g.Checked) (hsize : g.size ≠ 1)
    (h : drain g c width most steps { queue := [g.entry] } = .ok (some d)) {e : BlockId}
    (he : d.hasRegister e = true) (total : Int64) (symbol : String) (rootLike : Bool) :
    (handOver width total symbol rootLike d e).SingleAssignment g := by
  obtain ⟨hlaid, hplaced⟩ := placed_of_drain hg hsize h
  have hids : ∀ b, d.plan.registers.contains b = true ↔ b ∈ g.ids := fun b =>
    hasRegister_iff_of_drain hg hsize h
  have hregs : (handOver width total symbol rootLike d e).registers = d.plan.registers := by
    cases rootLike <;> rfl
  refine ⟨fun b => by rw [hregs, hids], fun b hpreds => ?_, fun n hn => ?_⟩
  · obtain ⟨hreg, sources, hfilter, hsnd⟩ := exists_selection hg hlaid hplaced hpreds
    refine ⟨_, sources, by rw [hregs]; exact hreg, ?_, hsnd⟩
    rw [selections, inBlock, List.filter_filter, filter_handOver fun code hcode => ?_]
    · exact hfilter
    · simp [(of_mem_handOverCodes hcode).1]
  · -- what is handed over reads the register of the end
    have hmentions : (∃ b, d.plan.registers.get? b = some (.virtual n)) ∨ ∃ i ∈ d.plan.instrs,
        i.code.dst? = some (.virtual n) ∨ .virtual n ∈ i.code.srcs := by
      rw [Mentions, hregs, handOver_instrs] at hn
      obtain hn | ⟨i, hi, hn⟩ := hn
      · exact .inl hn
      rcases List.mem_append.1 hi with hi | hi
      · exact .inr ⟨i, hi, hn⟩
      · obtain ⟨code, hcode, rfl⟩ := List.mem_map.1 hi
        obtain ⟨-, hcode⟩ := of_mem_handOverCodes hcode
        have hread := (hcode n).2 (hn.resolve_left (hcode n).1)
        exact .inl ⟨e, hread ▸ Held.get?_at he⟩
    obtain ⟨i, hi, hdst⟩ :=
      exists_definition_of_mentions hg hlaid hplaced (fun b => (hids b).1) hmentions
    refine ⟨i, ?_⟩
    rw [definitions, filter_handOver fun code hcode => ?_]
    · exact hlaid.filter_eq_singleton (r := .virtual n) hi (by simp [hdst]) fun j hj => by
        simpa using (List.mem_filter.1 hj).2
    · simp [((of_mem_handOverCodes hcode).2 n).1]

/-- **A counter sums up the amounts on a path.**  Let a counter be placed in an accepted
graph of at least two blocks with one end, whatever the amounts on the edges are.  The plan
is in single assignment form, and executed along any path from the entry to the end it
calls once, with the greatest number of accesses less the sum of the amounts on the path
as what is left. -/
theorem sums_paths {range : AccessRange} {rootLike : Bool} {config : Config} {plan : CounterPlan}
    {e : BlockId} (hg : g.Accepted) (hend : g.end? = some e) (hsize : 2 ≤ g.size)
    (h : ofAmounts g c range rootLike config = .ok plan) :
    plan.SingleAssignment g ∧
      ∀ (s : Machine) (path : List BlockId), s.calls = [] → g.IsPath g.entry path e →
        (plan.run s path).calls = [(range.width, range.max - c.onPath path)] := by
  have hends := (Shape.end?_eq_some hend).2
  have hone : g.size ≠ 1 := by omega
  refine ⟨?_, fun s path hs hpath => ?_⟩
  · obtain ⟨steps, d, hdrain, hreg, rfl⟩ := ofAmounts_eq_ok hend h
    exact singleAssignment_handOver hg.checked hone hdrain hreg _ _ _
  · have hcalls := calls_run hg.checked h hend hends hpath hs
    rwa [if_neg hone] at hcalls

/-- A loop between the entry and the end, left from both of its blocks. -/
def wayBack : Graph := .drawn 4 [(0, 1), (1, 2), (2, 1), (1, 3), (2, 3)] (by decide +kernel)

/-- Nothing on the way in, and less than nothing on the way back. -/
def wayBackAmounts : EdgeAmounts :=
  .ofList [(⟨0, 1⟩, 0), (⟨1, 2⟩, 2), (⟨2, 1⟩, -3), (⟨1, 3⟩, 5), (⟨2, 3⟩, 4)]

/-- The counter of `wayBack`. -/
def wayBackPlan : CounterPlan :=
  (ofAmounts wayBack wayBackAmounts ⟨1, 10⟩ true { maxIterations := 50 }).toOption.get
    (by decide +kernel)

/-- After two rounds 7 of 10 accesses are left. -/
theorem sums_paths_wayBack :
    wayBackPlan.SingleAssignment wayBack ∧
      (wayBackPlan.run ⟨fun _ => 0, []⟩ [0, 1, 2, 1, 2, 1, 3]).calls = [(9, 7)] := by
  have hg : wayBack.Accepted := Graph.accepted_drawn _
  have hend : wayBack.end? = some 3 := by decide +kernel
  have hplan : ofAmounts wayBack wayBackAmounts ⟨1, 10⟩ true { maxIterations := 50 } =
      .ok wayBackPlan := Outcome.eq_ok_get _
  have hpath : wayBack.IsPath wayBack.entry [0, 1, 2, 1, 2, 1, 3] 3 :=
    ⟨by decide +kernel, by decide +kernel, by decide +kernel⟩
  obtain ⟨hsingle, hcalls⟩ := sums_paths hg hend (by decide +kernel) hplan
  exact ⟨hsingle, hcalls ⟨fun _ => 0, []⟩ _ rfl hpath⟩

end CounterPlan
end ConstantTime
