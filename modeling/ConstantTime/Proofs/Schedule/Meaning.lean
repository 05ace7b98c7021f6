/-
# A schedule means what the instructions meant

Instructions are taken as state transformers that keep to their traits: what one
does depends only on the operands that it reads, and on memory if it is a memory
access, and it changes only the operands that it writes and are not constant, and
memory if it is a memory access (`Traits.Meaning`).  Two of them that are not in
conflict may change places (`Traits.Meaning.exec_comm`).

In single issue, where any two instructions may be enabled together, the issue
order follows every chain of constraints (`Orderly.lt_of_chain`), and so it turns
around no two instructions in conflict and moves none across a branch.  A list of
instructions has the effect of another order of it if those that are turned
around commute (`run_eq_of_perm`), so the schedule has the effect of the
instructions in their first order (`schedule_preserves_meaning`).
-/

import ConstantTime.Proofs.Schedule.Chains

namespace ConstantTime

/-! ### Instructions as state transformers -/

/-- The state that instructions work on. -/
structure Store (V M : Type) where
  operand : Operand → V
  memory : M

namespace Traits

variable {t : Traits} {V M : Type} {i q : Nat} {op : Operand}

/-- The instruction sees no difference between the states: they agree in the
operands that it reads, and in memory if it is a memory access. -/
structure SeesSame (t : Traits) (i : Nat) (s s' : Store V M) : Prop where
  operand : ∀ op, t.readsOp i op = true → s.operand op = s'.operand op
  memory : t.isMemory i = true → s.memory = s'.memory

/-- **What instructions with these traits may mean.**  An operand that an instruction
may write may also stay as it is, as that of a predicated instruction does. -/
structure Meaning (t : Traits) (V M : Type) where
  exec : Nat → Store V M → Store V M
  operand_kept : ∀ i op s, t.writesOp i op = false ∨ t.isConstant op = true →
    (exec i s).operand op = s.operand op
  memory_kept : ∀ i s, t.isMemory i = false → (exec i s).memory = s.memory
  operand_seen : ∀ i op s s', t.SeesSame i s s' → s.operand op = s'.operand op →
    (exec i s).operand op = (exec i s').operand op
  memory_seen : ∀ i s s', t.SeesSame i s s' → s.memory = s'.memory →
    (exec i s).memory = (exec i s').memory

namespace Meaning

variable (m : t.Meaning V M)

/-- The instructions of a list in turn. -/
def run (l : List Nat) (s : Store V M) : Store V M := l.foldl (fun s i => m.exec i s) s

variable {m} {s : Store V M}

@[simp] theorem run_nil : m.run [] s = s := rfl

@[simp] theorem run_cons {l : List Nat} : m.run (i :: l) s = m.run l (m.exec i s) := rfl

@[simp] theorem run_append {l l' : List Nat} : m.run (l ++ l') s = m.run l' (m.run l s) :=
  List.foldl_append

/-- An instruction sees no difference after one that is not in conflict with it. -/
theorem seesSame_exec (h : ¬ t.Conflicts i q) : t.SeesSame i (m.exec q s) s := by
  constructor
  · intro op hi
    refine m.operand_kept q op s ?_
    by_contra hq
    simp only [not_or, Bool.not_eq_false, Bool.not_eq_true] at hq
    exact h (.inl ⟨op, hq.2, hi, hq.1⟩)
  · intro hi
    refine m.memory_kept q s ?_
    by_contra hq
    exact h (.inr (.inr (.inr ⟨hi, by simpa using hq⟩)))

/-- An operand is not written by both instructions, unless they are in conflict. -/
theorem kept_of_not_conflicts (h : ¬ t.Conflicts i q) (op : Operand) :
    (t.writesOp i op = false ∨ t.isConstant op = true) ∨
      (t.writesOp q op = false ∨ t.isConstant op = true) := by
  by_contra hno
  simp only [not_or, Bool.not_eq_false, Bool.not_eq_true] at hno
  exact h (.inr (.inl ⟨op, hno.1.2, hno.1.1, hno.2.1⟩))

/-- What the later instruction leaves alone is what it was after the other, and what
the other leaves alone is computed from the same. -/
theorem operand_exec_comm (h : ¬ t.Conflicts i q)
    (hq : t.writesOp q op = false ∨ t.isConstant op = true) :
    (m.exec i (m.exec q s)).operand op = (m.exec q (m.exec i s)).operand op := by
  rw [m.operand_kept q op (m.exec i s) hq]
  exact m.operand_seen i op _ _ (seesSame_exec h) (m.operand_kept q op s hq)

theorem memory_exec_comm (h : ¬ t.Conflicts i q) (hq : t.isMemory q = false) :
    (m.exec i (m.exec q s)).memory = (m.exec q (m.exec i s)).memory := by
  rw [m.memory_kept q (m.exec i s) hq]
  exact m.memory_seen i _ _ (seesSame_exec h) (m.memory_kept q s hq)

/-- **Instructions that are not in conflict may change places.** -/
theorem exec_comm (h : ¬ t.Conflicts i q) : m.exec i (m.exec q s) = m.exec q (m.exec i s) := by
  have h' : ¬ t.Conflicts q i := fun hc => h hc.symm
  have hoperand : (m.exec i (m.exec q s)).operand = (m.exec q (m.exec i s)).operand := by
    funext op
    rcases kept_of_not_conflicts h op with hi | hq
    · exact (operand_exec_comm h' hi).symm
    · exact operand_exec_comm h hq
  have hmemory : (m.exec i (m.exec q s)).memory = (m.exec q (m.exec i s)).memory := by
    cases hi : t.isMemory i with
    | false => exact (memory_exec_comm h' hi).symm
    | true =>
      refine memory_exec_comm h ?_
      by_contra hq
      exact h (.inr (.inr (.inr ⟨hi, by simpa using hq⟩)))
  calc m.exec i (m.exec q s)
      = ⟨(m.exec i (m.exec q s)).operand, (m.exec i (m.exec q s)).memory⟩ := rfl
    _ = ⟨(m.exec q (m.exec i s)).operand, (m.exec q (m.exec i s)).memory⟩ := by
        rw [hoperand, hmemory]
    _ = m.exec q (m.exec i s) := rfl

/-- An instruction moves to the front over instructions that it commutes with. -/
theorem run_move_front {l : List Nat}
    (h : ∀ j ∈ l, ∀ s, m.exec i (m.exec j s) = m.exec j (m.exec i s)) :
    m.exec i (m.run l s) = m.run l (m.exec i s) := by
  induction l generalizing s with
  | nil => rfl
  | cons j l ih =>
    rw [run_cons, run_cons, ih fun k hk => h k (List.mem_cons_of_mem _ hk),
      h j List.mem_cons_self]

/-- **Another order of a list has the same effect**, if the instructions that it turns
around commute. -/
theorem run_eq_of_perm {l l' : List Nat} (hperm : l.Perm l')
    (h : ∀ a b, [a, b].Sublist l → [b, a].Sublist l' →
      ∀ s, m.exec a (m.exec b s) = m.exec b (m.exec a s)) : m.run l s = m.run l' s := by
  induction l generalizing l' s with
  | nil => rw [hperm.nil_eq]
  | cons a l ih =>
    -- the head is somewhere in the other list, and all before it there is behind it here
    obtain ⟨u, v, rfl⟩ := List.append_of_mem (hperm.subset List.mem_cons_self)
    have hperm' : l.Perm (u ++ v) := (hperm.trans List.perm_middle).cons_inv
    have hfront : ∀ j ∈ u, ∀ s, m.exec a (m.exec j s) = m.exec j (m.exec a s) := by
      intro j hj
      have hjl : j ∈ l := hperm'.symm.subset (List.mem_append_left v hj)
      refine h a j (.cons_cons a (List.singleton_sublist.2 hjl)) ?_
      exact (List.singleton_sublist.2 hj).append
        (.cons_cons a (List.nil_sublist v) : [a].Sublist (a :: v))
    have htail : m.run l (m.exec a s) = m.run (u ++ v) (m.exec a s) :=
      ih hperm' fun b c hbc hcb => h b c (hbc.cons a)
        (hcb.trans ((List.Sublist.refl u).append (List.sublist_cons_self a v)))
    rw [run_cons, htail, run_append, run_append, run_cons, run_move_front hfront]

end Meaning
end Traits

/-! ### The issue order -/

namespace Schedule

variable {s : Schedule} {i j k : Nat}

/-- The instructions in their new order, without the empty slots; none if there is no order. -/
def instrs (s : Schedule) : List Nat := (s.order.toOption.getD []).filterMap Int.toNat?

theorem lt_cycles (hd : s.dual = false) (h : s.slot k ≠ noInstr) : k < s.cycles := by
  have hkey : (k : Int) ∈ s.positions.keys := by
    rw [OrderedMap.mem_keys_iff, Option.isSome_iff_ne_none]
    intro hnone
    exact h (by rw [slot, OrderedMap.getD, hnone, Option.getD_none])
  obtain ⟨init, last, hkeys⟩ : ∃ init last, s.positions.keys = init ++ [last] :=
    ⟨_, _, (List.dropLast_append_getLast (List.ne_nil_of_mem hkey)).symm⟩
  have hle : (k : Int) ≤ last := by
    have hsorted := s.positions.sorted
    rw [← OrderedMap.keys, hkeys, List.pairwise_append] at hsorted
    rw [hkeys, List.mem_append, List.mem_singleton] at hkey
    rcases hkey with hk | hk
    · have := hsorted.2.2 _ hk last (by simp)
      omega
    · omega
  rw [cycles, hkeys, List.getLast?_concat]
  simp only [hd, Bool.false_eq_true, if_false]
  split <;> omega

section

variable (hd : s.dual = false) (hp : s.Placed)
include hd hp

/-- In single issue the order is read off the slots. -/
theorem instrs_eq : s.instrs = (List.range s.cycles).filterMap fun k : Nat => (s.slot k).toNat? := by
  have horder : s.order = .ok ((List.range s.cycles).map fun k : Nat => s.slot k) := by
    rw [order, hp.bundles_eq, rows, Except.map, List.flatMap_map]
    simp [hd, List.map_eq_flatMap]
  rw [instrs, horder, Except.toOption, Option.getD_some, List.filterMap_map]
  rfl

omit hp in
theorem toNat?_slot_iff : (s.slot k).toNat? = some i ↔ s.IssuesIn i k := by
  rw [IssuesIn, hd, if_neg Bool.false_ne_true, Int.mem_toNat?]

theorem mem_instrs : i ∈ s.instrs ↔ ∃ k, s.IssuesIn i k := by
  simp only [instrs_eq hd hp, List.mem_filterMap, List.mem_range, toNat?_slot_iff hd]
  refine exists_congr fun k => and_iff_right_of_imp fun h => lt_cycles hd ?_
  rw [IssuesIn, hd, if_neg Bool.false_ne_true] at h
  rw [h, noInstr]
  omega

/-- The instruction before is issued in an earlier cycle. -/
theorem exists_lt_of_sublist (h : [i, j].Sublist s.instrs) :
    ∃ a b, a < b ∧ s.IssuesIn i a ∧ s.IssuesIn j b := by
  have hsorted : s.instrs.Pairwise fun i j => ∃ a b, a < b ∧ s.IssuesIn i a ∧ s.IssuesIn j b := by
    rw [instrs_eq hd hp, List.pairwise_filterMap]
    refine List.pairwise_lt_range.imp fun {a b} hab => ?_
    intro i hi j hj
    exact ⟨a, b, hab, (toNat?_slot_iff hd).1 hi, (toNat?_slot_iff hd).1 hj⟩
  exact List.pairwise_iff_forall_sublist.1 hsorted h

end

end Schedule

/-! ### Runs of single issue -/

namespace IssueProblem

variable {p : IssueProblem} {w : Progress} {cycle i q k : Nat}

/-- What holds before each cycle of single issue, also where a word does not hold
the distances. -/
structure Orderly (p : IssueProblem) (cycle : Nat) (w : Progress) : Prop where
  tracks : p.Tracks w cycle
  inside : ∀ i k, w.issued.get? i = some k → i < p.size
  /-- What an issued instruction waits for is issued in an earlier cycle. -/
  follows : ∀ i k, w.issued.get? i = some k →
    ∀ q d, (p.constraints.predsOf i).get? q = some d → ∃ a < k, w.issued.get? q = some a

theorem orderly_blank (p : IssueProblem) : p.Orderly 0 { schedule := p.blank } :=
  ⟨(p.sound_blank 0).tracks, by simp, by simp⟩

theorem Orderly.issueCycle (hs : p.slots = none) (h : p.Orderly cycle w) :
    p.Orderly (cycle + 1) (p.issueCycle p.constraints w cycle) := by
  have htracks : p.Tracks (p.issueCycle p.constraints w cycle) (cycle + 1) := h.tracks.issueCycle
  obtain ⟨-, he⟩ | ⟨a, ha, he⟩ | ⟨hdual, -⟩ := issueCycle_cases p p.constraints w cycle
  · rw [he] at htracks ⊢
    exact ⟨htracks, h.inside, h.follows⟩
  · obtain ⟨hlt, hnew, hready⟩ := mem_ready.1 ha
    rw [he] at htracks ⊢
    refine ⟨htracks, ?_, ?_⟩ <;> simp only [get?_insert_eq_some hnew]
    · rintro i k (⟨rfl, -⟩ | hi)
      · exact hlt
      · exact h.inside i k hi
    · rintro i k (⟨rfl, rfl⟩ | hi) q d hq
      · -- Whatever the distance is, what is waited for is issued, and not in this cycle.
        obtain ⟨b, hb, -⟩ := isMet_iff.1 ((isReady_iff.1 hready).1 q d hq)
        exact ⟨b, h.tracks.past q b hb, .inr hb⟩
      · obtain ⟨b, hbk, hb⟩ := h.follows i k hi q d hq
        exact ⟨b, hbk, .inr hb⟩
  · simp [hs] at hdual

/-- **A chain of constraints leads from earlier cycles to later ones.** -/
theorem Orderly.lt_of_chain (h : p.Orderly cycle w)
    (hchain : ConstraintGraph.Chain p.traits p.oracle q i) (hi : w.issued.get? i = some k) :
    ∃ a < k, w.issued.get? q = some a := by
  have link : ∀ {q i k}, ConstraintGraph.Links p.traits p.oracle q i →
      w.issued.get? i = some k → ∃ a < k, w.issued.get? q = some a := by
    rintro q i k ⟨c, hc⟩ hi
    obtain ⟨d, hd, -⟩ := ConstraintGraph.exists_pred_of_mem (h.inside i k hi) hc
    exact h.follows i k hi q d hd
  induction hchain generalizing k with
  | single hlink => exact link hlink hi
  | tail _ hlink ih =>
    obtain ⟨b, hbk, hb⟩ := link hlink hi
    obtain ⟨a, hab, ha⟩ := ih hb
    exact ⟨a, Nat.lt_trans hab hbk, ha⟩

/-- What is issued with everything else, in the order of the schedule. -/
theorem Orderly.instrs_perm (h : p.Orderly cycle w) (hs : p.slots = none)
    (hall : p.size ≤ w.issued.size) : w.schedule.instrs.Perm (List.range p.size) := by
  have hd : w.schedule.dual = false := by rw [h.tracks.dual, hs, Option.isSome_none]
  have hkeys : w.issued.keys ⊆ List.range p.size := by
    intro i hi
    obtain ⟨k, hk⟩ := Option.isSome_iff_exists.1 (OrderedMap.mem_keys_iff.1 hi)
    exact List.mem_range.2 (h.inside i k hk)
  have hnodup : w.schedule.instrs.Nodup := by
    refine List.pairwise_iff_forall_sublist.2 fun {i j} hij => ?_
    rintro rfl
    obtain ⟨a, b, hab, ha, hb⟩ := Schedule.exists_lt_of_sublist hd h.tracks.placed hij
    rw [h.tracks.shows] at ha hb
    rw [ha] at hb
    cases hb
    omega
  refine (List.perm_ext_iff_of_nodup hnodup List.nodup_range).2 fun i => ?_
  rw [Schedule.mem_instrs hd h.tracks.placed, List.mem_range]
  simp only [h.tracks.shows]
  refine ⟨?_, issued_of_size_le hkeys hall⟩
  rintro ⟨k, hk⟩
  exact h.inside i k hk

/-- The issue order turns around no instructions that a chain holds apart. -/
theorem Orderly.not_chain_of_sublist (h : p.Orderly cycle w) (hs : p.slots = none)
    (hqi : [q, i].Sublist w.schedule.instrs) : ¬ ConstraintGraph.Chain p.traits p.oracle i q := by
  have hd : w.schedule.dual = false := by rw [h.tracks.dual, hs, Option.isSome_none]
  obtain ⟨a, b, hab, ha, hb⟩ := Schedule.exists_lt_of_sublist hd h.tracks.placed hqi
  rw [h.tracks.shows] at ha hb
  intro hchain
  obtain ⟨c, hca, hc⟩ := h.lt_of_chain hchain ha
  rw [hb] at hc
  cases hc
  omega

/-- **A branch has the same instructions before it**, since a chain leads between it
and every other instruction. -/
theorem Orderly.mem_before_branch (h : p.Orderly cycle w) (hs : p.slots = none)
    (hall : p.size ≤ w.issued.size) {before after : List Nat} {b j : Nat}
    (hsplit : w.schedule.instrs = before ++ b :: after) (hb : p.traits.isBranch b = true) :
    j ∈ before ↔ j < b := by
  have hperm := h.instrs_perm hs hall
  have hnodup : w.schedule.instrs.Nodup := hperm.nodup_iff.2 List.nodup_range
  -- on both sides of the branch the order is that of the numbers
  have hbranch : ∀ {q i}, [q, i].Sublist w.schedule.instrs → q = b ∨ i = b → q < i := by
    intro q i hqi hor
    have hne : q ≠ i := List.pairwise_iff_forall_sublist.1 hnodup hqi
    by_contra hge
    refine h.not_chain_of_sublist hs hqi (ConstraintGraph.chain_of_branch (by omega) ?_)
    rcases hor with rfl | rfl
    · exact .inr hb
    · exact .inl hb
  constructor
  · intro hj
    have hsub : [j, b].Sublist (before ++ b :: after) :=
      (List.singleton_sublist.2 hj).append (.cons_cons b (List.nil_sublist after))
    exact hbranch (hsplit ▸ hsub) (.inr rfl)
  · intro hj
    have hbn : b ∈ w.schedule.instrs := by simp [hsplit]
    have hjn : j ∈ w.schedule.instrs := by
      rw [hperm.mem_iff, List.mem_range] at hbn ⊢
      omega
    rw [hsplit, List.mem_append, List.mem_cons] at hjn
    rcases hjn with hj' | rfl | hj'
    · exact hj'
    · omega
    · have hsub : [b, j].Sublist (before ++ b :: after) :=
        (List.nil_sublist before).append (.cons_cons b (List.singleton_sublist.2 hj'))
      have := hbranch (hsplit ▸ hsub) (.inl rfl)
      omega

/-- **Scheduling preserves meaning.**  In single issue, where any two instructions may
be enabled together, there is a schedule if a word holds the waits, and every schedule
issues the instructions in an order that has the effect of the first order and has
the same instructions before each branch. -/
theorem schedule_preserves_meaning (hs : p.slots = none) (hall : ∀ a b, p.oracle a b = true) :
    (p.traits.Fits p.size → ∃ s, p.schedule = .ok s) ∧
      ∀ s, p.schedule = .ok s →
        s.instrs.Perm (List.range p.size) ∧
          (∀ (V M : Type) (m : p.traits.Meaning V M) (st : Store V M),
            m.run s.instrs st = m.run (List.range p.size) st) ∧
          ∀ before b after, s.instrs = before ++ b :: after → p.traits.isBranch b = true →
            ∀ j, j ∈ before ↔ j < b := by
  refine ⟨fun hfits => ?_, fun s hsched => ?_⟩
  · obtain ⟨wait, hwait⟩ := exists_waits hfits
    obtain ⟨w, last, hok, -⟩ :=
      schedule_induction (P := fun _ _ => True) hwait trivial fun _ _ _ _ _ => trivial
    exact ⟨w.schedule, hok⟩
  · obtain ⟨w, last, rfl, h, hsize⟩ :=
      schedule_sound p.orderly_blank (fun _ _ hw => hw.issueCycle hs) hsched
    have hperm := h.instrs_perm hs hsize
    refine ⟨hperm, fun V M m st => ?_, fun before b after hsplit hb j =>
      h.mem_before_branch hs hsize hsplit hb⟩
    -- what is turned around is not in conflict, since a chain would hold it apart
    refine Traits.Meaning.run_eq_of_perm hperm fun a b hab hba _ => ?_
    have hlt : b < a := List.pairwise_iff_forall_sublist.1 List.pairwise_lt_range hba
    exact Traits.Meaning.exec_comm fun hc => h.not_chain_of_sublist hs hab
      (ConstraintGraph.chain_of_conflicts hall hlt hc)

/-- A load, an increment of what it loads, a copy that has to do with neither, and a
branch. -/
def loadAhead : IssueProblem where
  size := 4
  traits :=
    { reads := fun i => if i = 1 then ["a"] else if i = 2 then ["x"] else []
      writes := fun i => if i = 0 then ["a"] else if i = 1 then ["b"] else
        if i = 2 then ["c"] else []
      isMemory := (· = 0)
      latency := fun i => if i = 0 then 2 else 0
      isBranch := (· = 3) }

/-- What they do with numbers. -/
def loadAheadMeaning : loadAhead.traits.Meaning Nat Nat where
  exec i s :=
    if i = 0 then { s with operand := fun op => if op = "a" then s.memory else s.operand op }
    else if i = 1 then
      { s with operand := fun op => if op = "b" then s.operand "a" + 1 else s.operand op }
    else if i = 2 then
      { s with operand := fun op => if op = "c" then s.operand "x" else s.operand op }
    else s
  operand_kept i op s h := by
    simp only [loadAhead, Traits.writesOp, Bool.false_eq_true, or_false] at h
    split_ifs at h ⊢ <;> simp_all
  memory_kept i s _ := by split_ifs <;> rfl
  operand_seen i op s s' h heq := by
    have hop := h.operand
    have hmem := h.memory
    simp only [loadAhead, Traits.readsOp] at hop hmem
    split_ifs <;> simp_all
  memory_seen i s s' _ h := by split_ifs <;> exact h

/-- The copy goes ahead of the increment, which waits for the load. -/
theorem schedule_preserves_meaning_ahead :
    (∃ s, loadAhead.schedule = .ok s ∧ s.instrs = [0, 2, 1, 3]) ∧
      ∀ st, loadAheadMeaning.run [0, 2, 1, 3] st = loadAheadMeaning.run [0, 1, 2, 3] st := by
  have hfits : loadAhead.traits.Fits loadAhead.size := ⟨2, by decide +kernel, by decide⟩
  obtain ⟨hexists, hall⟩ :=
    schedule_preserves_meaning (p := loadAhead) rfl fun _ _ => rfl
  obtain ⟨s, hs⟩ := hexists hfits
  have horder : (loadAhead.schedule.toOption.map Schedule.instrs) = some [0, 2, 1, 3] := by
    decide +kernel
  have hinstrs : s.instrs = [0, 2, 1, 3] := by
    rw [hs] at horder
    exact Option.some.inj horder
  refine ⟨⟨s, hs, hinstrs⟩, fun st => ?_⟩
  obtain ⟨-, hmeaning, -⟩ := hall s hs
  rw [← hinstrs]
  exact hmeaning Nat Nat loadAheadMeaning st

end IssueProblem
end ConstantTime
