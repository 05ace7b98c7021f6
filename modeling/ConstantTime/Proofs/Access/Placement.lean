/-
# Where the counter is kept

`CounterPlan.drain` treats the blocks of a queue until it is empty.  This module
says what the instructions and registers are then, for a function of more than
one block.

* Every instruction is of one of four kinds (`Fits`): the load at the entry; a
  subtraction at the start of a block with one predecessor; a subtraction before
  the branch of a block, into a register that no block keeps its counter in; and
  the selection at the start of a block where ways meet.
* No two instructions write the same register (`Laid.single`), and the load comes
  first.
* Every block has what it needs (`Done`).

A block where ways meet has its register before it is done; until then it waits in
the queue, and no instruction writes that register (`Laid.waiting`).
-/

import ConstantTime.Access.Counter
import ConstantTime.Proofs.Graph.Order
import ConstantTime.Proofs.Graph.Closure

namespace ConstantTime
namespace CounterPlan

/-- The registers of blocks. -/
abbrev Held := OrderedMap BlockId Register

/-- The register that holds the counter at the end of a block. -/
def Held.at (m : Held) (b : BlockId) : Register := m.getD b (.virtual 0)

theorem Held.at_eq {m : Held} {b : BlockId} {r : Register} (h : m.get? b = some r) :
    m.at b = r := by
  rw [Held.at, OrderedMap.getD_eq, h]
  rfl

theorem Held.get?_at {m : Held} {b : BlockId} (h : m.contains b = true) :
    m.get? b = some (m.at b) := by
  obtain ⟨r, hr⟩ := Option.isSome_iff_exists.1 h
  rw [hr, Held.at_eq hr]

/-- Further registers leave those there are alone. -/
def Held.Extends (m m' : Held) : Prop := ∀ b r, m.get? b = some r → m'.get? b = some r

variable {g : Graph} {c : EdgeAmounts} {most : Int64}

/-- The kinds of instructions of a counter. -/
inductive Fits (g : Graph) (c : EdgeAmounts) (most : Int64) (m : Held) : CounterInstr → Prop
  /-- The load at the entry. -/
  | load (long : Bool) (hb : m.contains g.entry = true) :
    Fits g c most m ⟨g.entry, .beforeBranch, .load long (m.at g.entry) most false⟩
  /-- The amount on the only edge into a block. -/
  | continued {b p : BlockId} {n : Int64} (long : Bool) (hb : m.contains b = true)
    (hp : m.contains p = true) (hpreds : g.preds b = [p]) (hn : c.get? ⟨p, b⟩ = some n) :
    Fits g c most m ⟨b, .start, .subtract long (m.at b) (m.at p) n⟩
  /-- The amount on an edge to a block where ways meet. -/
  | cut {p : BlockId} {r : Register} (long : Bool) (n : Int64) (hp : m.contains p = true)
    (hr : ∀ x, m.get? x ≠ some r) :
    Fits g c most m ⟨p, .beforeBranch, .subtract long r (m.at p) n⟩
  /-- The counter of the predecessor that control came from. -/
  | join {b : BlockId} (sources : List (Register × BlockId)) (hb : m.contains b = true)
    (hpreds : 2 ≤ (g.preds b).length) :
    Fits g c most m ⟨b, .start, .select (m.at b) sources⟩

/-- The source of a selection for one predecessor: its register, or where the
amount on the edge has been taken off it. -/
def Feeds (c : EdgeAmounts) (m : Held) (is : List CounterInstr) (b : BlockId)
    (s : Register × BlockId) : Prop :=
  m.contains s.2 = true ∧ ((c.on s.2 b = 0 ∧ s.1 = m.at s.2) ∨
    ∃ long, ⟨s.2, .beforeBranch, .subtract long s.1 (m.at s.2) (c.on s.2 b)⟩ ∈ is)

/-- The block has the instructions it needs. -/
def Done (g : Graph) (c : EdgeAmounts) (most : Int64) (m : Held) (is : List CounterInstr)
    (b : BlockId) : Prop :=
  match g.preds b with
  | [] => ∃ long, ⟨b, .beforeBranch, .load long (m.at b) most false⟩ ∈ is
  | [p] => m.contains p = true ∧ ((c.get? ⟨p, b⟩ = none ∧ m.at b = m.at p) ∨
      ∃ n, c.get? ⟨p, b⟩ = some n ∧ ∃ long, ⟨b, .start, .subtract long (m.at b) (m.at p) n⟩ ∈ is)
  | preds => ∃ sources, ⟨b, .start, .select (m.at b) sources⟩ ∈ is ∧
      sources.map Prod.snd = preds ∧ ∀ s ∈ sources, Feeds c m is b s

/-- The instructions and registers so far; `W` are the blocks that wait for their
predecessors. -/
structure Laid (g : Graph) (c : EdgeAmounts) (most : Int64) (W : BlockId → Prop) (m : Held)
    (is : List CounterInstr) (used : Nat) : Prop where
  regs : ∀ b r, m.get? b = some r → ∃ k, r = .virtual k ∧ k ≤ used
  dsts : ∀ i ∈ is, ∃ k, i.code.dst? = some (.virtual k) ∧ k ≤ used
  single : is.Pairwise fun i j => i.code.dst? ≠ j.code.dst?
  fits : ∀ i ∈ is, Fits g c most m i
  first : ∀ i ∈ is.head?, ∃ long r, i.code = .load long r most false
  waiting : ∀ b, W b → m.contains b = true ∧ ∀ i ∈ is, i.code.dst? ≠ some (m.at b)
  apart : ∀ b b', W b → W b' → m.at b = m.at b' → b = b'

/-! ### Adding registers and instructions -/

variable {W : BlockId → Prop} {m m' : Held} {is is' : List CounterInstr} {used used' : Nat}
  {b p : BlockId} {r : Register}

theorem Held.Extends.contains (h : m.Extends m') (hb : m.contains b = true) :
    m'.contains b = true := by
  obtain ⟨r, hr⟩ := Option.isSome_iff_exists.1 hb
  exact OrderedMap.contains_iff.2 ⟨r, h b r hr⟩

theorem Held.Extends.at (h : m.Extends m') (hb : m.contains b = true) : m'.at b = m.at b :=
  Held.at_eq (h b _ (Held.get?_at hb))

theorem Held.extends_insert (hb : m.contains b = false) (r : Register) :
    m.Extends (m.insert b r) := by
  intro x s hx
  rw [OrderedMap.get?_insert, if_neg, hx]
  rintro rfl
  rw [OrderedMap.contains, hx] at hb
  cases hb

theorem Held.at_insert (m : Held) (b : BlockId) (r : Register) : Held.at (m.insert b r) b = r :=
  Held.at_eq (by rw [OrderedMap.get?_insert, if_pos rfl])

theorem Feeds.mono {s : Register × BlockId} (h : Feeds c m is b s) (hm : m.Extends m')
    (his : is ⊆ is') : Feeds c m' is' b s := by
  obtain ⟨hs, h⟩ := h
  refine ⟨hm.contains hs, ?_⟩
  rw [hm.at hs]
  rcases h with h | ⟨long, h⟩
  · exact .inl h
  · exact .inr ⟨long, his h⟩

theorem Done.mono (h : Done g c most m is b) (hb : m.contains b = true) (hm : m.Extends m')
    (his : is ⊆ is') : Done g c most m' is' b := by
  unfold Done at h ⊢
  split at h
  · obtain ⟨long, h⟩ := h
    rw [hm.at hb]
    exact ⟨long, his h⟩
  · obtain ⟨hp, h⟩ := h
    rw [hm.at hb, hm.at hp]
    refine ⟨hm.contains hp, ?_⟩
    rcases h with h | ⟨n, hn, long, h⟩
    · exact .inl h
    · exact .inr ⟨n, hn, long, his h⟩
  · obtain ⟨sources, h, hsrc, hfeeds⟩ := h
    rw [hm.at hb]
    exact ⟨sources, his h, hsrc, fun s hs => (hfeeds s hs).mono hm his⟩

theorem Laid.mono_waiting {V : BlockId → Prop} (h : Laid g c most W m is used)
    (hV : ∀ b, V b → W b) : Laid g c most V m is used :=
  { h with
    waiting := fun b hb => h.waiting b (hV b hb)
    apart := fun b b' hb hb' => h.apart b b' (hV b hb) (hV b' hb') }

/-- Gives a block a register: a new one, or one that another block has. -/
theorem Laid.assign (h : Laid g c most W m is used) (hb : m.contains b = false)
    (hle : used ≤ used') (hr : ∃ k, r = .virtual k ∧ k ≤ used')
    (hfree : (∃ x, m.get? x = some r) ∨ ∀ i ∈ is, i.code.dst? ≠ some r) :
    Laid g c most W (m.insert b r) is used' := by
  have hm := Held.extends_insert hb r
  have hfits : ∀ i ∈ is, Fits g c most (m.insert b r) i := by
    intro i hi
    cases h.fits i hi with
    | load long hb => rw [← hm.at hb]; exact .load long (hm.contains hb)
    | continued long hb hp hpreds hn =>
      rw [← hm.at hb, ← hm.at hp]
      exact .continued long (hm.contains hb) (hm.contains hp) hpreds hn
    | cut long n hp hr' =>
      rw [← hm.at hp]
      refine .cut long n (hm.contains hp) fun x hx => ?_
      rw [OrderedMap.get?_insert] at hx
      split at hx
      · cases hx
        rcases hfree with ⟨y, hy⟩ | hfree
        · exact hr' y hy
        · exact hfree _ hi rfl
      · exact hr' x hx
    | join sources hb hpreds => rw [← hm.at hb]; exact .join sources (hm.contains hb) hpreds
  refine ⟨fun x s hx => ?_, fun i hi => ?_, h.single, hfits, h.first, fun x hx => ?_,
    fun x y hx hy he => ?_⟩
  · rw [OrderedMap.get?_insert] at hx
    split at hx
    · cases hx
      exact hr
    · obtain ⟨k, hk, hkle⟩ := h.regs x s hx
      exact ⟨k, hk, hkle.trans hle⟩
  · obtain ⟨k, hk, hkle⟩ := h.dsts i hi
    exact ⟨k, hk, hkle.trans hle⟩
  · obtain ⟨hx', hdst⟩ := h.waiting x hx
    rw [hm.at hx']
    exact ⟨hm.contains hx', hdst⟩
  · rw [hm.at (h.waiting x hx).1, hm.at (h.waiting y hy).1] at he
    exact h.apart x y hx hy he

/-- Lets a block wait whose register is new. -/
theorem Laid.wait (h : Laid g c most W m is used) (hb : m.contains b = true)
    (hdst : ∀ i ∈ is, i.code.dst? ≠ some (m.at b)) (hapart : ∀ x, W x → m.at x = m.at b → x = b) :
    Laid g c most (fun x => W x ∨ x = b) m is used := by
  refine { h with waiting := fun x hx => ?_, apart := fun x y hx hy he => ?_ }
  · rcases hx with hx | rfl
    · exact h.waiting x hx
    · exact ⟨hb, hdst⟩
  · rcases hx with hx | rfl <;> rcases hy with hy | rfl
    · exact h.apart x y hx hy he
    · exact hapart x hx he
    · exact (hapart y hy he.symm).symm
    · rfl

/-- Adds an instruction. -/
theorem Laid.emit {i : CounterInstr} (h : Laid g c most W m is used) (hfits : Fits g c most m i)
    (hdst : ∃ k, i.code.dst? = some (.virtual k) ∧ k ≤ used)
    (hnew : ∀ j ∈ is, j.code.dst? ≠ i.code.dst?)
    (hfirst : is ≠ [] ∨ ∃ long r, i.code = .load long r most false)
    (hwait : ∀ b, W b → i.code.dst? ≠ some (m.at b)) :
    Laid g c most W m (is ++ [i]) used := by
  refine ⟨h.regs, fun j hj => ?_, ?_, fun j hj => ?_, fun j hj => ?_, fun x hx => ?_, h.apart⟩
  · rcases List.mem_append.1 hj with hj | hj
    · exact h.dsts j hj
    · rw [List.mem_singleton.1 hj]
      exact hdst
  · refine List.pairwise_append.2 ⟨h.single, List.pairwise_singleton .., fun j hj k hk => ?_⟩
    rw [List.mem_singleton.1 hk]
    exact hnew j hj
  · rcases List.mem_append.1 hj with hj | hj
    · exact h.fits j hj
    · rw [List.mem_singleton.1 hj]
      exact hfits
  · cases is with
    | nil =>
      rw [List.nil_append, List.head?_cons, Option.mem_some_iff] at hj
      rw [← hj]
      exact hfirst.resolve_left fun hne => hne rfl
    | cons k is => exact h.first j hj
  · obtain ⟨hx', hall⟩ := h.waiting x hx
    refine ⟨hx', fun j hj => ?_⟩
    rcases List.mem_append.1 hj with hj | hj
    · exact hall j hj
    · rw [List.mem_singleton.1 hj]
      exact hwait x hx

/-- A new register is written nowhere and held by no block. -/
theorem Laid.fresh (h : Laid g c most W m is used) :
    (∀ i ∈ is, i.code.dst? ≠ some (.virtual (used + 1))) ∧
      ∀ x, m.get? x ≠ some (.virtual (used + 1)) := by
  constructor
  · intro i hi he
    obtain ⟨k, hk, hle⟩ := h.dsts i hi
    rw [hk] at he
    cases he
    omega
  · intro x hx
    obtain ⟨k, hk, hle⟩ := h.regs x _ hx
    cases hk
    omega

/-! ### The queue -/

/-- The plan under construction once the entry has been treated. -/
structure Drafted (g : Graph) (c : EdgeAmounts) (most : Int64) (d : Draft) : Prop where
  laid : Laid g c most (fun b => d.hasRegister b = true ∧ b ∈ d.queue) d.plan.registers
    d.plan.instrs d.used
  entry : d.hasRegister g.entry = true
  nodup : d.queue.Nodup
  done : ∀ b, d.hasRegister b = true → b ∉ d.queue →
    Done g c most d.plan.registers d.plan.instrs b
  spread : ∀ b, d.hasRegister b = true → ∀ s ∈ g.succs b, d.hasRegister s = true ∨ s ∈ d.queue
  ready : ∀ b ∈ d.queue, (∃ p, b ∈ g.succs p ∧ d.hasRegister p = true) ∧
    (d.hasRegister b = true → 2 ≤ (g.preds b).length)

section Step

variable {d d' : Draft} {rest : List BlockId}

theorem mem_queueSuccs {x : BlockId} : x ∈ (queueSuccs g d b).queue ↔
    x ∈ d.queue ∨ x ∈ g.succs b ∧ x ≠ b ∧ d.hasRegister x = false := by
  unfold queueSuccs
  rw [mem_foldl_enqueue]
  simp

/-- What has to be shown of the treatment of the block `b`: it gives `b` a
register, keeps what there is, and `b` is done afterwards or waits. -/
theorem Drafted.of_treated (hd : Drafted g c most d) (hq : d.queue = b :: rest)
    (hext : Held.Extends d.plan.registers d'.plan.registers) (hb : d'.hasRegister b = true)
    (hkeep : ∀ x, x ≠ b → d'.hasRegister x = true → d.hasRegister x = true)
    (his : d.plan.instrs ⊆ d'.plan.instrs)
    (hlaid : Laid g c most (fun x => (d.hasRegister x = true ∧ x ∈ rest) ∨ x = b ∧ x ∈ d'.queue)
      d'.plan.registers d'.plan.instrs d'.used)
    (hresult : (d'.queue = (queueSuccs g { d with queue := rest } b).queue ∧
        Done g c most d'.plan.registers d'.plan.instrs b) ∨
      (2 ≤ (g.preds b).length ∧
        d'.queue = enqueue (queueSuccs g { d with queue := rest } b).queue b)) :
    Drafted g c most d' := by
  have hnodup := hd.nodup
  rw [hq] at hnodup
  obtain ⟨hbrest, hrest⟩ := List.nodup_cons.1 hnodup
  have hhas : ∀ x, d.hasRegister x = true → d'.hasRegister x = true := fun x => hext.contains
  have hmem : ∀ x, x ≠ b → (x ∈ d'.queue ↔
      x ∈ rest ∨ x ∈ g.succs b ∧ x ≠ b ∧ d.hasRegister x = false) := by
    intro x hx
    rcases hresult with ⟨he, -⟩ | ⟨-, he⟩
    · rw [he, mem_queueSuccs]
      rfl
    · rw [he, mem_enqueue, mem_queueSuccs]
      simp only [hx, or_false]
      rfl
  refine ⟨hlaid.mono_waiting ?_, hhas _ hd.entry, ?_, ?_, ?_, ?_⟩
  · rintro x ⟨hx, hxq⟩
    by_cases he : x = b
    · exact .inr ⟨he, hxq⟩
    · have hxd := hkeep x he hx
      rcases (hmem x he).1 hxq with h | ⟨-, -, h⟩
      · exact .inl ⟨hxd, h⟩
      · rw [hxd] at h
        cases h
  · rcases hresult with ⟨he, -⟩ | ⟨-, he⟩
    · rw [he]
      exact nodup_foldl_enqueue hrest
    · rw [he]
      exact nodup_enqueue (nodup_foldl_enqueue hrest)
  · intro x hx hxq
    by_cases he : x = b
    · rcases hresult with ⟨-, hdone⟩ | ⟨-, hqueue⟩
      · rw [he]
        exact hdone
      · refine absurd ?_ hxq
        rw [hqueue, mem_enqueue]
        exact .inr he
    · refine (hd.done x (hkeep x he hx) fun hxd => hxq ?_).mono (hkeep x he hx) hext his
      rw [hq] at hxd
      exact (hmem x he).2 (.inl ((List.mem_cons.1 hxd).resolve_left he))
  · intro x hx s hs
    by_cases hsb : s = b
    · exact .inl (hsb ▸ hb)
    by_cases he : x = b
    · cases hsd : d.hasRegister s with
      | true => exact .inl (hhas s hsd)
      | false => exact .inr ((hmem s hsb).2 (.inr ⟨he ▸ hs, hsb, hsd⟩))
    · rcases hd.spread x (hkeep x he hx) s hs with h | h
      · exact .inl (hhas s h)
      · rw [hq] at h
        exact .inr ((hmem s hsb).2 (.inl ((List.mem_cons.1 h).resolve_left hsb)))
  · intro x hx
    by_cases he : x = b
    · subst he
      obtain ⟨⟨p, hp, hpr⟩, -⟩ := hd.ready x (by rw [hq]; exact List.mem_cons_self)
      refine ⟨⟨p, hp, hhas p hpr⟩, fun _ => ?_⟩
      rcases hresult with ⟨hqueue, -⟩ | ⟨hpreds, -⟩
      · rw [hqueue, mem_queueSuccs] at hx
        rcases hx with hx | ⟨-, hne, -⟩
        · exact absurd hx hbrest
        · exact absurd rfl hne
      · exact hpreds
    · rcases (hmem x he).1 hx with hxr | ⟨hs, -, hno⟩
      · obtain ⟨⟨p, hp, hpr⟩, hlen⟩ := hd.ready x (by rw [hq]; exact List.mem_cons_of_mem _ hxr)
        exact ⟨⟨p, hp, hhas p hpr⟩, fun h => hlen (hkeep x he h)⟩
      · refine ⟨⟨b, hs, hb⟩, fun h => ?_⟩
        rw [hkeep x he h] at hno
        cases hno

theorem Drafted.instrs_ne_nil (hentry : g.preds g.entry = []) (hwf : g.toShape.WellFormed)
    (hd : Drafted g c most d) : d.plan.instrs ≠ [] := by
  have hdone := hd.done g.entry hd.entry fun hq => by
    obtain ⟨⟨p, hp, -⟩, -⟩ := hd.ready g.entry hq
    have := hwf.mem_preds_iff.2 hp
    rw [hentry] at this
    simp at this
  rw [Done, hentry] at hdone
  obtain ⟨long, hmem⟩ := hdone
  exact List.ne_nil_of_mem hmem

/-- The blocks that still wait while `b` is treated. -/
theorem Drafted.laid_rest (hd : Drafted g c most d) (hq : d.queue = b :: rest) :
    Laid g c most (fun x => d.hasRegister x = true ∧ x ∈ rest) d.plan.registers d.plan.instrs
      d.used :=
  hd.laid.mono_waiting fun _ hx => ⟨hx.1, by rw [hq]; exact List.mem_cons_of_mem _ hx.2⟩

/-- **A block with one predecessor.** -/
theorem Drafted.continueFrom (hwf : g.toShape.WellFormed) (hentry : g.preds g.entry = [])
    {width : Int64} (hd : Drafted g c most d) (hq : d.queue = b :: rest) (hpreds : g.preds b = [p])
    (h : CounterPlan.continueFrom g c width (queueSuccs g { d with queue := rest } b) p b =
      .ok d') :
    Drafted g c most d' := by
  have hne := hd.instrs_ne_nil hentry hwf
  have hlaid := hd.laid_rest hq
  obtain ⟨⟨p', hp', hpr⟩, hlen⟩ := hd.ready b (by rw [hq]; exact List.mem_cons_self)
  obtain rfl : p' = p := by
    have := hwf.mem_preds_iff.2 hp'
    rwa [hpreds, List.mem_singleton] at this
  have hb : d.hasRegister b = false := by
    refine Bool.eq_false_iff.2 fun hreg => ?_
    have := hlen hreg
    rw [hpreds] at this
    simp at this
  have hbq : b ∉ (queueSuccs g { d with queue := rest } b).queue := by
    have hnodup := hd.nodup
    rw [hq] at hnodup
    rw [mem_queueSuccs]
    rintro (hx | ⟨-, hx, -⟩)
    · exact (List.nodup_cons.1 hnodup).1 hx
    · exact hx rfl
  have hkeep : ∀ (r : Register) x, x ≠ b → (d.plan.registers.insert b r).contains x = true →
      d.hasRegister x = true := fun r x hx hc =>
    (OrderedMap.contains_insert.1 hc).resolve_left hx
  unfold CounterPlan.continueFrom at h
  split at h
  · next hnone =>
    cases h
    have hm := Held.extends_insert (m := d.plan.registers) hb (d.register p')
    refine hd.of_treated hq hm (OrderedMap.contains_insert.2 (.inl rfl)) (hkeep _)
      (fun _ hi => hi) ?_ (.inl ⟨rfl, ?_⟩)
    · refine (hlaid.assign hb (Nat.le_refl _) (hd.laid.regs p' _ (Held.get?_at hpr))
        (.inl ⟨p', Held.get?_at hpr⟩)).mono_waiting ?_
      rintro x (hx | ⟨rfl, hx⟩)
      · exact hx
      · exact absurd hx hbq
    · rw [Done, hpreds]
      refine ⟨hm.contains hpr, .inl ⟨hnone, ?_⟩⟩
      change Held.at (d.plan.registers.insert b (d.register p')) b =
        Held.at (d.plan.registers.insert b (d.register p')) p'
      rw [hm.at hpr, Held.at_insert]
      rfl
  · next n hsome =>
    split at h
    · cases h
    · cases h
      have hm := Held.extends_insert (m := d.plan.registers) hb (.virtual (d.used + 1))
      obtain ⟨hdst, hreg⟩ := hlaid.fresh
      have hat := Held.at_insert d.plan.registers b (.virtual (d.used + 1))
      have hins := OrderedMap.contains_insert (m := d.plan.registers) (k := b) (x := b)
        (v := .virtual (d.used + 1))
      have hp := hm.at hpr
      refine hd.of_treated hq hm (hins.2 (.inl rfl)) (hkeep _)
        (fun _ hi => List.mem_append_left _ hi) ?_ (.inl ⟨rfl, ?_⟩)
      · refine ((hlaid.assign hb (Nat.le_succ _) ⟨_, rfl, Nat.le_refl _⟩ (.inr hdst)).emit
          (i := ⟨b, .start, .subtract false (.virtual (d.used + 1)) (d.register p') n⟩) ?_
          ⟨_, rfl, Nat.le_refl _⟩ hdst (.inl hne) ?_).mono_waiting ?_
        · have hfits : Fits g c most (d.plan.registers.insert b (.virtual (d.used + 1))) _ :=
            .continued false (hins.2 (.inl rfl)) (hm.contains hpr) hpreds hsome
          rwa [hat, hp] at hfits
        · intro x hx he
          have hxr := (hlaid.waiting x hx).1
          rw [hm.at hxr] at he
          exact hreg x (by rw [Held.get?_at hxr]; exact he.symm)
        · rintro x (hx | ⟨rfl, hx⟩)
          · exact hx
          · exact absurd hx hbq
      · rw [Done, hpreds]
        refine ⟨hm.contains hpr, .inr ⟨n, hsome, false, List.mem_append_right _ ?_⟩⟩
        rw [List.mem_singleton]
        change (⟨b, .start, .subtract false
          (Held.at (d.plan.registers.insert b (.virtual (d.used + 1))) b)
          (Held.at (d.plan.registers.insert b (.virtual (d.used + 1))) p') n⟩ : CounterInstr) = _
        rw [hat, hp]
        rfl

/-- The subtractions before the branches of the predecessors. -/
theorem foldl_subtractOn (width : Int64) (ps : List BlockId) (sources : List (Register × BlockId))
    (h : Laid g c most W d.plan.registers d.plan.instrs d.used) (hne : d.plan.instrs ≠ [])
    (hps : ∀ p ∈ ps, d.hasRegister p = true) :
    ∃ d' new, ps.foldl (subtractOn c width b) (d, sources) = (d', sources ++ new) ∧
      d'.plan.registers = d.plan.registers ∧ d'.queue = d.queue ∧
      d.plan.instrs ⊆ d'.plan.instrs ∧
      Laid g c most W d'.plan.registers d'.plan.instrs d'.used ∧
      new.map Prod.snd = ps ∧ ∀ s ∈ new, Feeds c d'.plan.registers d'.plan.instrs b s := by
  induction ps generalizing d sources with
  | nil => exact ⟨d, [], by simp, rfl, rfl, fun _ hi => hi, h, rfl, by simp⟩
  | cons p ps ih =>
    have hp := hps p List.mem_cons_self
    -- the draft and the source after the first predecessor
    obtain ⟨d₁, r, hstep, hregs, hqueue, his, hlaid, hfeed⟩ : ∃ d₁ r,
        subtractOn c width b (d, sources) p = (d₁, sources ++ [(r, p)]) ∧
        d₁.plan.registers = d.plan.registers ∧ d₁.queue = d.queue ∧
        d.plan.instrs ⊆ d₁.plan.instrs ∧
        Laid g c most W d₁.plan.registers d₁.plan.instrs d₁.used ∧
        Feeds c d₁.plan.registers d₁.plan.instrs b (r, p) := by
      unfold subtractOn
      dsimp only
      split
      · next hzero =>
        exact ⟨d, _, rfl, rfl, rfl, fun _ hi => hi, h, hp, .inl ⟨hzero, rfl⟩⟩
      · obtain ⟨hdst, hreg⟩ := h.fresh
        refine ⟨_, _, rfl, rfl, rfl, fun _ hi => List.mem_append_left _ hi, ?_, hp,
          .inr ⟨_, List.mem_append_right _ (List.mem_singleton.2 rfl)⟩⟩
        have hmore : Laid g c most W d.plan.registers d.plan.instrs (d.used + 1) :=
          { h with
            regs := fun x s hx => (h.regs x s hx).imp fun k hk => ⟨hk.1, Nat.le_succ_of_le hk.2⟩
            dsts := fun i hi => (h.dsts i hi).imp fun k hk => ⟨hk.1, Nat.le_succ_of_le hk.2⟩ }
        refine hmore.emit (Fits.cut _ _ hp hreg) ⟨_, rfl, Nat.le_refl _⟩ hdst (.inl hne) ?_
        intro x hx he
        have hxr := (h.waiting x hx).1
        exact hreg x (by rw [Held.get?_at hxr]; exact he.symm)
    obtain ⟨d₂, new, hfold, hregs₂, hqueue₂, his₂, hlaid₂, hsnd, hfeeds⟩ :=
      ih (sources ++ [(r, p)]) hlaid
        (fun hnil => hne (List.eq_nil_of_subset_nil (hnil ▸ his))) fun p' hp' => by
          rw [Draft.hasRegister, hregs]
          exact hps p' (List.mem_cons_of_mem _ hp')
    refine ⟨d₂, (r, p) :: new, ?_, hregs₂.trans hregs, hqueue₂.trans hqueue,
      fun _ hi => his₂ (his hi), hlaid₂, by rw [List.map_cons, hsnd], ?_⟩
    · rw [List.foldl_cons, hstep, hfold, List.append_assoc, List.singleton_append]
    · intro s hs
      rcases List.mem_cons.1 hs with rfl | hs
      · refine hfeed.mono (fun x t hx => ?_) his₂
        rw [hregs₂, hx]
      · exact hfeeds s hs

/-- The register of a block where ways meet, new if it has none yet. -/
theorem Drafted.joinRegister (hd : Drafted g c most d) (hq : d.queue = b :: rest) (d₁ : Draft)
    {d₂ : Draft}
    (hplan : d₁.plan = d.plan) (hused : d₁.used = d.used)
    (h : d₂ = if d₁.hasRegister b then d₁ else (d₁.fresh.1.assign b d₁.fresh.2)) :
    Held.Extends d.plan.registers d₂.plan.registers ∧ d₂.hasRegister b = true ∧
      (∀ x, x ≠ b → d₂.hasRegister x = true → d.hasRegister x = true) ∧
      d₂.plan.instrs = d.plan.instrs ∧ d₂.queue = d₁.queue ∧
      Laid g c most (fun x => (d.hasRegister x = true ∧ x ∈ rest) ∨ x = b) d₂.plan.registers
        d₂.plan.instrs d₂.used := by
  have hlaid := hd.laid_rest hq
  obtain ⟨plan, used, queue⟩ := d₁
  cases hplan
  cases hused
  split at h
  · next hreg =>
    subst h
    refine ⟨fun _ _ hx => hx, hreg, fun _ _ hx => hx, rfl, rfl, ?_⟩
    refine hd.laid.mono_waiting ?_
    rintro x (⟨hx, hxr⟩ | rfl)
    · exact ⟨hx, by rw [hq]; exact List.mem_cons_of_mem _ hxr⟩
    · exact ⟨hreg, by rw [hq]; exact List.mem_cons_self⟩
  · next hreg =>
    subst h
    have hb : d.hasRegister b = false := Bool.eq_false_iff.2 hreg
    obtain ⟨hdst, hreg'⟩ := hlaid.fresh
    have hm := Held.extends_insert (m := d.plan.registers) hb (.virtual (d.used + 1))
    have hat := Held.at_insert d.plan.registers b (.virtual (d.used + 1))
    refine ⟨hm, OrderedMap.contains_insert.2 (.inl rfl), fun x hx hc =>
      (OrderedMap.contains_insert.1 hc).resolve_left hx, rfl, rfl, ?_⟩
    refine (hlaid.assign hb (Nat.le_succ _) ⟨_, rfl, Nat.le_refl _⟩ (.inr hdst)).wait
      (OrderedMap.contains_insert.2 (.inl rfl)) (by rw [hat]; exact hdst) fun x hx he => ?_
    have hxr := (hlaid.waiting x hx).1
    rw [hm.at hxr, hat] at he
    exact absurd (he ▸ Held.get?_at hxr) (hreg' x)

/-- **A block where several ways meet.** -/
theorem Drafted.joinPreds (hwf : g.toShape.WellFormed) (hentry : g.preds g.entry = [])
    {width : Int64} (hd : Drafted g c most d) (hq : d.queue = b :: rest)
    (hpreds : 2 ≤ (g.preds b).length) :
    Drafted g c most
      (CounterPlan.joinPreds g c width (queueSuccs g { d with queue := rest } b) b) := by
  have hne := hd.instrs_ne_nil hentry hwf
  have hnodup := hd.nodup
  rw [hq] at hnodup
  have hbrest := (List.nodup_cons.1 hnodup).1
  have hbq : b ∉ (queueSuccs g { d with queue := rest } b).queue := by
    rw [mem_queueSuccs]
    rintro (hx | ⟨-, hx, -⟩)
    · exact hbrest hx
    · exact hx rfl
  unfold CounterPlan.joinPreds
  dsimp only
  generalize hd₂ : (if (queueSuccs g { d with queue := rest } b).hasRegister b = true then _ else _)
    = d₂
  obtain ⟨hext, hb, hkeep, hinstrs, hqueue, hlaid⟩ := hd.joinRegister hq
    (queueSuccs g { d with queue := rest } b) rfl rfl hd₂.symm
  split
  · next hall =>
    have hreg : ∀ p ∈ g.preds b, d₂.hasRegister p = true := fun p hp =>
      List.all_eq_true.1 hall p hp
    obtain ⟨d₃, sources, hfold, hregs₃, hqueue₃, his₃, hlaid₃, hsnd, hfeeds⟩ :=
      foldl_subtractOn (b := b) width (g.preds b) [] hlaid (hinstrs ▸ hne) hreg
    rw [hfold]
    dsimp only
    rw [List.nil_append]
    have hb₃ : d₃.hasRegister b = true := by rw [Draft.hasRegister, hregs₃]; exact hb
    have hsub : d₂.plan.instrs ⊆ (d₃.plan.instrs ++
        [⟨b, .start, .select (d₃.register b) sources⟩]) := fun _ hi =>
      List.mem_append_left _ (his₃ hi)
    refine hd.of_treated hq ?_ hb₃ ?_ (hinstrs ▸ hsub) ?_ (.inl ⟨?_, ?_⟩)
    · change Held.Extends _ d₃.plan.registers
      rwa [hregs₃]
    · intro x hx hc
      change d₃.plan.registers.contains x = true at hc
      rw [hregs₃] at hc
      exact hkeep x hx hc
    · -- the register of the block has been written nowhere so far
      obtain ⟨-, hwait⟩ := hlaid₃.waiting b (.inr rfl)
      refine ((hlaid₃.mono_waiting (V := fun x => d.hasRegister x = true ∧ x ∈ rest)
        fun x hx => .inl hx).emit (Fits.join sources hb₃ hpreds)
          (Exists.imp (fun k hk => ⟨congrArg some hk.1, hk.2⟩)
            (hlaid₃.regs b _ (Held.get?_at hb₃))) hwait
          (.inl fun hnil => hne ?_) fun x hx he => ?_).mono_waiting ?_
      · rw [← hinstrs]
        exact List.eq_nil_of_subset_nil (hnil ▸ his₃)
      · have := hlaid₃.apart x b (.inl hx) (.inr rfl) (Option.some.inj he).symm
        exact hbrest (this ▸ hx.2)
      · rintro x (hx | ⟨rfl, hx⟩)
        · exact hx
        · exact absurd (hqueue ▸ hqueue₃ ▸ hx) hbq
    · exact hqueue₃.trans hqueue
    · unfold Done
      split
      · next he => rw [he] at hpreds; simp at hpreds
      · next p he => rw [he] at hpreds; simp at hpreds
      · refine ⟨sources, List.mem_append_right _ (List.mem_singleton.2 rfl), hsnd, fun s hs => ?_⟩
        exact (hfeeds s hs).mono (fun _ _ hx => hx) fun _ hi => List.mem_append_left _ hi
  · refine hd.of_treated hq hext hb hkeep (fun _ hi => by rw [hinstrs]; exact hi) ?_
      (.inr ⟨hpreds, by rw [hqueue]⟩)
    refine hlaid.mono_waiting ?_
    rintro x (hx | ⟨rfl, -⟩)
    · exact .inl hx
    · exact .inr rfl

/-- **The entry of a function of more than one block.** -/
theorem drafted_loadEntry (hwf : g.toShape.WellFormed) (hentry : g.preds g.entry = [])
    (hsize : g.size ≠ 1) (width : Int64) :
    Drafted g c most (loadEntry g width most (queueSuccs g { queue := [] } g.entry) g.entry) := by
  have hnew : ∀ x, ({ queue := [] } : Draft).hasRegister x = false := fun _ => rfl
  unfold loadEntry
  simp only [hsize, if_false]
  have hreg : ∀ x, (OrderedMap.insert g.entry (Register.virtual 1) ∅).contains x = true ↔
      x = g.entry := by
    intro x
    rw [OrderedMap.contains_insert]
    simp [OrderedMap.contains]
  have hat : Held.at (OrderedMap.insert g.entry (Register.virtual 1) ∅) g.entry = .virtual 1 :=
    Held.at_insert ..
  have hmem : ∀ x, x ∈ (queueSuccs g { queue := [] } g.entry).queue ↔
      x ∈ g.succs g.entry ∧ x ≠ g.entry := by
    intro x
    rw [mem_queueSuccs]
    simp [hnew]
  have hself : g.entry ∉ g.succs g.entry := fun hs => by
    have := hwf.mem_preds_iff.2 hs
    rw [hentry] at this
    simp at this
  refine ⟨⟨fun x r hx => ?_, fun i hi => ?_, List.pairwise_singleton .., fun i hi => ?_,
    fun i hi => ?_, fun x hx => ?_, fun x y hx hy _ => ?_⟩, (hreg _).2 rfl,
    nodup_foldl_enqueue List.nodup_nil, fun x hx _ => ?_, fun x hx s hs => ?_, fun x hx => ?_⟩
  · change (OrderedMap.insert g.entry (Register.virtual 1) ∅).get? x = some r at hx
    rw [OrderedMap.get?_insert] at hx
    split at hx
    · cases hx
      exact ⟨1, rfl, Nat.le_refl _⟩
    · simp at hx
  · rw [List.mem_singleton.1 hi]
    exact ⟨1, rfl, Nat.le_refl _⟩
  · rw [List.mem_singleton.1 hi]
    have hfits : Fits g c most (OrderedMap.insert g.entry (Register.virtual 1) ∅) _ :=
      .load (decide (width < most)) ((hreg g.entry).2 rfl)
    rwa [hat] at hfits
  · rw [← Option.mem_some_iff.1 hi]
    exact ⟨_, _, rfl⟩
  · exact absurd ((hreg x).1 hx.1) ((hmem x).1 hx.2).2
  · rw [(hreg x).1 hx.1, (hreg y).1 hy.1]
  · rw [(hreg x).1 hx, Done, hentry]
    refine ⟨decide (width < most), List.mem_singleton.2 ?_⟩
    change (⟨g.entry, .beforeBranch, .load _ (Held.at (OrderedMap.insert g.entry
      (Register.virtual 1) ∅) g.entry) most false⟩ : CounterInstr) = _
    rw [hat]
    rfl
  · rw [(hreg x).1 hx] at hs
    exact .inr ((hmem s).2 ⟨hs, fun he => hself (he ▸ hs)⟩)
  · obtain ⟨hs, hne⟩ := (hmem x).1 hx
    exact ⟨⟨g.entry, hs, (hreg _).2 rfl⟩, fun h => absurd ((hreg x).1 h) hne⟩

/-- **Treating a block keeps the draft in order.** -/
theorem Drafted.step (hwf : g.toShape.WellFormed) (hentry : g.preds g.entry = [])
    {width : Int64} (hd : Drafted g c most d) (hq : d.queue = b :: rest)
    (h : CounterPlan.step g c width most { d with queue := rest } b = .ok d') :
    Drafted g c most d' := by
  unfold CounterPlan.step at h
  dsimp only at h
  split at h
  · next hpreds =>
    obtain ⟨⟨p, hp, -⟩, -⟩ := hd.ready b (by rw [hq]; exact List.mem_cons_self)
    have := hwf.mem_preds_iff.2 hp
    rw [hpreds] at this
    simp at this
  · next p hpreds => exact hd.continueFrom hwf hentry hq hpreds h
  · next hne₀ hne₁ =>
    cases h
    refine hd.joinPreds hwf hentry hq ?_
    match hpreds : g.preds b with
    | [] => exact absurd hpreds hne₀
    | [p] => exact absurd hpreds (hne₁ p)
    | _ :: _ :: _ => simp

theorem Drafted.drain (hwf : g.toShape.WellFormed) (hentry : g.preds g.entry = [])
    {width : Int64} {steps : Nat} (hd : Drafted g c most d)
    (h : CounterPlan.drain g c width most steps d = .ok (some d')) :
    Drafted g c most d' ∧ d'.queue = [] := by
  induction steps generalizing d with
  | zero =>
    unfold CounterPlan.drain at h
    split at h
    · next hq =>
      cases h
      exact ⟨hd, hq⟩
    · cases h
  | succ steps ih =>
    unfold CounterPlan.drain at h
    split at h
    · next hq =>
      cases h
      exact ⟨hd, hq⟩
    · next b rest hq =>
      dsimp only at h
      cases hs : CounterPlan.step g c width most { d with queue := rest } b with
      | error e => rw [hs] at h; cases h
      | ok d₁ =>
        rw [hs] at h
        exact ih (hd.step hwf hentry hq hs) h

end Step

/-- The entry is the first block that is treated. -/
theorem drain_entry (hg : g.Checked) {width : Int64} {steps : Nat} :
    CounterPlan.drain g c width most (steps + 1) { queue := [g.entry] } =
      CounterPlan.drain g c width most steps
        (loadEntry g width most (queueSuccs g { queue := [] } g.entry) g.entry) := by
  rw [CounterPlan.drain]
  dsimp only
  rw [CounterPlan.step, hg.preds_entry]
  rfl

/-- **What the placement ends with.**  Every block has a register and the
instructions it needs, every instruction is of one of the four kinds, and no
register is written by two. -/
theorem placed_of_drain {d : Draft} {width : Int64} {steps : Nat} (hg : g.Checked)
    (hsize : g.size ≠ 1)
    (h : CounterPlan.drain g c width most steps { queue := [g.entry] } = .ok (some d)) :
    Laid g c most (fun _ => False) d.plan.registers d.plan.instrs d.used ∧
      ∀ b ∈ g.ids, d.hasRegister b = true ∧ Done g c most d.plan.registers d.plan.instrs b := by
  obtain ⟨hd, hq⟩ : Drafted g c most d ∧ d.queue = [] := by
    cases steps with
    | zero => cases h
    | succ steps =>
      rw [drain_entry hg] at h
      exact (drafted_loadEntry hg.wellFormed hg.preds_entry hsize width).drain hg.wellFormed
        hg.preds_entry h
  have hall : ∀ b ∈ g.ids, d.hasRegister b = true := by
    intro b hb
    obtain ⟨p, hp, -⟩ := hg.exists_ascending hb
    refine hp.snoc_induction (motive := fun _ b => d.hasRegister b = true) hd.entry
      fun p u v _ hv hu => ?_
    rcases hd.spread u hu v hv with h | h
    · exact h
    · rw [hq] at h
      simp at h
  refine ⟨hd.laid.mono_waiting fun _ h => h.elim, fun b hb => ⟨hall b hb, ?_⟩⟩
  exact hd.done b (hall b hb) (by rw [hq]; simp)

/-! ### A function of one block -/

/-- A function of one block has no edge. -/
theorem not_mem_succs_of_single (hg : g.Checked) (hsize : g.size = 1) (u v : BlockId) :
    v ∉ g.succs u := by
  intro hv
  have hid := Shape.mem_ids.1 (hg.wellFormed.isBlock_of_mem_succs hv)
  obtain rfl : v = g.entry := by
    rw [hsize] at hid
    unfold Shape.entry
    lia
  have := hg.wellFormed.mem_preds_iff.2 hv
  rw [hg.preds_entry] at this
  simp at this

/-- Its placement ends with the entry. -/
theorem drain_of_single (hg : g.Checked) (hsize : g.size = 1) {width : Int64} {steps : Nat} :
    CounterPlan.drain g c width most (steps + 1) { queue := [g.entry] } =
      .ok (some (loadEntry g width most (queueSuccs g { queue := [] } g.entry) g.entry)) := by
  have hsuccs : g.succs g.entry = [] :=
    List.eq_nil_iff_forall_not_mem.2 fun v => not_mem_succs_of_single hg hsize g.entry v
  have hqueue :
      (loadEntry g width most (queueSuccs g { queue := [] } g.entry) g.entry).queue = [] := by
    simp [loadEntry, queueSuccs, hsuccs, Draft.emitPaid, Draft.emit, Draft.assign, Draft.fresh]
  rw [drain_entry hg, CounterPlan.drain, hqueue]

end CounterPlan
end ConstantTime
