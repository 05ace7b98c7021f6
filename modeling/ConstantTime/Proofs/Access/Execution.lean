/-
# Executing a counter

The instructions of a counter are executed along a path: in each block first
those that go to its start, then those before its branch.  A selection reads the
source of the block that control came from, and a load that is only for a
disabled function is skipped.  A call is recorded with what it finds in the two
argument registers.

Along a path the register of each block holds the greatest number of accesses
less the amounts on the edges so far, and so does every register a later
selection reads, less the amount on its edge (`CounterPlan.Counts`).  At the end
the call finds what is left (`CounterPlan.calls_run`).
-/

import ConstantTime.Proofs.Access.Conservation
import ConstantTime.Proofs.Access.Placement
import ConstantTime.Proofs.Outcome

namespace ConstantTime

/-- The registers, and the arguments of the calls so far. -/
structure Machine where
  regs : Register → Int64
  calls : List (Int64 × Int64) := []

namespace Machine

/-- Writes a register. -/
def set (s : Machine) (r : Register) (n : Int64) : Machine :=
  { s with regs := Function.update s.regs r n }

/-- Executes an instruction; `pred` is the block that control came from. -/
def exec (pred : Option BlockId) (s : Machine) : CounterCode → Machine
  | .load _ d n negated => if negated then s else s.set d n
  | .subtract _ d r n => s.set d (s.regs r - n)
  | .select d sources =>
    match sources.find? fun x => some x.2 = pred with
    | some x => s.set d (s.regs x.1)
    | none => s
  | .copy d r => s.set d (s.regs r)
  | .call _ => { s with calls := s.calls ++ [(s.regs .most, s.regs .remaining)] }

end Machine

namespace CounterPlan

/-- The instructions at a place of a block. -/
def codesAt (is : List CounterInstr) (b : BlockId) (place : CodePlace) : List CounterCode :=
  (is.filter fun i => i.block = b ∧ i.place = place).map CounterInstr.code

/-- Executes the instructions in a block. -/
def execBlock (is : List CounterInstr) (pred : Option BlockId) (s : Machine) (b : BlockId) :
    Machine :=
  (codesAt is b .start ++ codesAt is b .beforeBranch).foldl (Machine.exec pred) s

/-- Executes the instructions along a path. -/
def follow (is : List CounterInstr) : Option BlockId → Machine → List BlockId → Machine
  | _, s, [] => s
  | pred, s, b :: rest => follow is (some b) (execBlock is pred s b) rest

/-- Executes a plan along a path from the entry. -/
def run (p : CounterPlan) (s : Machine) (path : List BlockId) : Machine :=
  follow p.instrs none s path

end CounterPlan

/-! ### Single instructions -/

namespace Machine

variable {s : Machine} {r : Register} {n : Int64}

@[simp] theorem set_regs_self : (s.set r n).regs r = n := Function.update_self ..

theorem set_regs_of_ne {r' : Register} (h : r' ≠ r) : (s.set r n).regs r' = s.regs r' :=
  Function.update_of_ne h ..

@[simp] theorem set_calls : (s.set r n).calls = s.calls := rfl

/-- Subtractions from one register into registers of their own. -/
theorem foldl_subtract (pred : Option BlockId) (s : Machine) {x : Register} {cs : List CounterCode}
    (hcs : ∀ c ∈ cs, ∃ long r n, c = .subtract long r x n ∧ r ≠ x)
    (hdst : cs.Pairwise fun c c' => c.dst? ≠ c'.dst?) :
    (cs.foldl (exec pred) s).regs x = s.regs x ∧
      (cs.foldl (exec pred) s).calls = s.calls ∧
      (∀ r, (∀ c ∈ cs, c.dst? ≠ some r) → (cs.foldl (exec pred) s).regs r = s.regs r) ∧
      ∀ long r n, .subtract long r x n ∈ cs → (cs.foldl (exec pred) s).regs r = s.regs x - n := by
  induction cs generalizing s with
  | nil => exact ⟨rfl, rfl, fun _ _ => rfl, fun _ _ _ h => by simp at h⟩
  | cons c cs ih =>
    obtain ⟨long, r, n, rfl, hr⟩ := hcs c List.mem_cons_self
    obtain ⟨hfirst, hrest⟩ := List.pairwise_cons.1 hdst
    obtain ⟨h₁, h₂, h₃, h₄⟩ := ih (exec pred s (.subtract long r x n))
      (fun c hc => hcs c (List.mem_cons_of_mem _ hc)) hrest
    have hx : (exec pred s (.subtract long r x n)).regs x = s.regs x := set_regs_of_ne hr.symm
    rw [List.foldl_cons]
    refine ⟨h₁.trans hx, h₂, fun r' hr' => ?_, fun long' r' n' hmem => ?_⟩
    · rw [h₃ r' fun c hc => hr' c (List.mem_cons_of_mem _ hc)]
      exact set_regs_of_ne fun he => hr' _ List.mem_cons_self (congrArg some he.symm)
    · rcases List.mem_cons.1 hmem with he | hmem
      · cases he
        rw [h₃ r fun c hc he => hfirst c hc he.symm]
        exact set_regs_self
      · rw [h₄ long' r' n' hmem, hx]

end Machine

namespace CounterPlan

variable {g : Graph} {c : EdgeAmounts} {most : Int64} {m : Held} {is : List CounterInstr}
  {used : Nat} {s : Machine} {q : List BlockId} {u v b : BlockId}

theorem mem_codesAt {place : CodePlace} {code : CounterCode} :
    code ∈ codesAt is b place ↔ ⟨b, place, code⟩ ∈ is := by
  unfold codesAt
  simp only [List.mem_map, List.mem_filter, decide_eq_true_eq]
  constructor
  · rintro ⟨⟨b', place', code'⟩, ⟨hi, rfl, rfl⟩, rfl⟩
    exact hi
  · exact fun hi => ⟨_, ⟨hi, rfl, rfl⟩, rfl⟩

theorem follow_snoc (pred : Option BlockId) (q : List BlockId) (hq : q.getLast? = some u) :
    follow is pred s (q ++ [v]) = execBlock is (some u) (follow is pred s q) v := by
  induction q generalizing pred s with
  | nil => cases hq
  | cons b q ih =>
    cases q with
    | nil =>
      obtain rfl : b = u := by simpa using hq
      rfl
    | cons b' q =>
      rw [List.getLast?_cons_cons] at hq
      exact ih (some b) hq

theorem onPath_snoc (c : EdgeAmounts) (hq : q.getLast? = some u) :
    c.onPath (q ++ [v]) = c.onPath q + c.on u v := by
  induction q with
  | nil => cases hq
  | cons b q ih =>
    cases q with
    | nil =>
      obtain rfl : b = u := by simpa using hq
      simp [EdgeAmounts.onPath]
    | cons b' q =>
      rw [List.getLast?_cons_cons] at hq
      rw [List.cons_append, List.cons_append, EdgeAmounts.onPath, ← List.cons_append, ih hq,
        EdgeAmounts.onPath, add_assoc]

/-- Instructions that all write one register are one instruction. -/
theorem Laid.filter_eq_singleton {W : BlockId → Prop} (hlaid : Laid g c most W m is used)
    {i : CounterInstr} {p : CounterInstr → Bool} {r : Register} (hi : i ∈ is) (hp : p i = true)
    (hdst : ∀ j ∈ is.filter p, j.code.dst? = some r) : is.filter p = [i] := by
  have hmem := List.mem_filter.2 ⟨hi, hp⟩
  have hpair := hlaid.single.sublist (List.filter_sublist (p := p))
  generalize is.filter p = js at hmem hpair hdst
  match js, hmem with
  | [j], hmem => rw [List.mem_singleton.1 hmem]
  | j :: k :: js, _ =>
    refine absurd ?_ ((List.pairwise_cons.1 hpair).1 k (by simp))
    rw [hdst j (by simp), hdst k (by simp)]

/-! ### Along a path -/

/-- After the path `q` to `u`, the register of `u` holds what is left, and every
register written before the branch of `u` holds that less its own amount. -/
structure Counts (c : EdgeAmounts) (most : Int64) (m : Held) (is : List CounterInstr)
    (q : List BlockId) (u : BlockId) (s : Machine) : Prop where
  held : s.regs (m.at u) = most - c.onPath q
  cut : ∀ long r n, ⟨u, .beforeBranch, .subtract long r (m.at u) n⟩ ∈ is →
    s.regs r = most - c.onPath q - n
  calls : s.calls = []

section Placed

variable (hg : g.Checked) (hlaid : Laid g c most (fun _ => False) m is used)
  (hplaced : ∀ b ∈ g.ids, m.contains b = true ∧ Done g c most m is b)
include hg hlaid hplaced

omit hg hplaced in
/-- An instruction at the start of a block is the only one there. -/
theorem codesAt_start {code : CounterCode} (h : ⟨b, .start, code⟩ ∈ is) :
    codesAt is b .start = [code] := by
  have hdst : ∀ i ∈ is.filter fun i => i.block = b ∧ i.place = .start,
      i.code.dst? = some (m.at b) := by
    intro i hi
    obtain ⟨hmem, hat⟩ := List.mem_filter.1 hi
    obtain ⟨rfl, hplace⟩ := of_decide_eq_true hat
    cases hlaid.fits i hmem with
    | load _ _ => cases hplace
    | continued _ _ _ _ _ => rfl
    | cut _ _ _ _ => cases hplace
    | join _ _ _ => rfl
  rw [codesAt, hlaid.filter_eq_singleton h (by simp) hdst]
  rfl

omit hg hplaced in
/-- Before the branch of a block other than the entry there are only
subtractions from its register into registers of their own. -/
theorem cuts_beforeBranch (hb : b ≠ g.entry) :
    (∀ code ∈ codesAt is b .beforeBranch, ∃ long r n,
      code = .subtract long r (m.at b) n ∧ r ≠ m.at b) ∧
    (codesAt is b .beforeBranch).Pairwise fun c c' => c.dst? ≠ c'.dst? := by
  constructor
  · intro code hcode
    have hi := mem_codesAt.1 hcode
    cases hlaid.fits _ hi with
    | load _ _ => exact absurd rfl hb
    | cut long n hp hr => exact ⟨long, _, n, rfl, fun he => hr b (he ▸ Held.get?_at hp)⟩
  · unfold codesAt
    rw [List.pairwise_map]
    exact hlaid.single.sublist List.filter_sublist

omit hplaced in
/-- **The entry** loads the counter first. -/
theorem counts_entry (hne : is ≠ []) (hs : s.calls = []) :
    Counts c most m is [g.entry] g.entry (execBlock is none s g.entry) := by
  obtain ⟨i₀, rest, rfl⟩ := List.exists_cons_of_ne_nil hne
  obtain ⟨long, r, hcode⟩ := hlaid.first i₀ rfl
  obtain ⟨hentry, rfl⟩ : m.contains g.entry = true ∧
      i₀ = ⟨g.entry, .beforeBranch, .load long (m.at g.entry) most false⟩ := by
    cases hlaid.fits i₀ List.mem_cons_self with
    | load long' hb => cases hcode; exact ⟨hb, rfl⟩
    | continued => cases hcode
    | cut => cases hcode
    | join => cases hcode
  obtain ⟨hfirst, hrest⟩ := List.pairwise_cons.1 hlaid.single
  have hnil : codesAt (⟨g.entry, .beforeBranch, .load long (m.at g.entry) most false⟩ :: rest)
      g.entry .start = [] := by
    refine List.eq_nil_iff_forall_not_mem.2 fun code hcode => ?_
    cases hlaid.fits _ (mem_codesAt.1 hcode) with
    | continued _ _ _ hpreds _ => rw [hg.preds_entry] at hpreds; cases hpreds
    | join _ _ hpreds => rw [hg.preds_entry] at hpreds; simp at hpreds
  have hcuts : ∀ code ∈ codesAt rest g.entry .beforeBranch, ∃ long r n,
      code = .subtract long r (m.at g.entry) n ∧ r ≠ m.at g.entry := by
    intro code hcode
    have hi := mem_codesAt.1 hcode
    cases hlaid.fits _ (List.mem_cons_of_mem _ hi) with
    | load long' _ =>
      exact absurd rfl (hfirst ⟨_, _, .load long' (m.at g.entry) most false⟩ hi)
    | cut long n hp hr => exact ⟨long, _, n, rfl, fun he => hr g.entry (he ▸ Held.get?_at hp)⟩
  have hpair : (codesAt rest g.entry .beforeBranch).Pairwise fun c c' => c.dst? ≠ c'.dst? := by
    unfold codesAt
    rw [List.pairwise_map]
    exact hrest.sublist List.filter_sublist
  obtain ⟨h₁, h₂, -, h₄⟩ := Machine.foldl_subtract none
    (s.set (m.at g.entry) most) hcuts hpair
  rw [Machine.set_regs_self] at h₁ h₄
  have hexec : execBlock (⟨g.entry, .beforeBranch, .load long (m.at g.entry) most false⟩ :: rest)
      none s g.entry =
      (codesAt rest g.entry .beforeBranch).foldl (Machine.exec none)
        (s.set (m.at g.entry) most) := by
    unfold execBlock
    rw [hnil, List.nil_append]
    simp [codesAt, Machine.exec]
  rw [hexec]
  refine ⟨by simpa [EdgeAmounts.onPath] using h₁, fun long' r n hi => ?_, h₂.trans hs⟩
  rcases List.mem_cons.1 hi with he | hi
  · cases he
  · simpa [EdgeAmounts.onPath] using h₄ long' r n (mem_codesAt.2 hi)

/-- **One step of a path.** -/
theorem Counts.step (h : Counts c most m is q u s) (hq : q.getLast? = some u)
    (hv : v ∈ g.succs u) : Counts c most m is (q ++ [v]) v (execBlock is (some u) s v) := by
  have hvid := hg.wellFormed.isBlock_of_mem_succs hv
  have huv := hg.wellFormed.mem_preds_iff.2 hv
  have hentry : v ≠ g.entry := by
    rintro rfl
    rw [hg.preds_entry] at huv
    simp at huv
  -- the start of the block brings its register up to date
  obtain ⟨s₁, hs₁, hheld, hcalls⟩ : ∃ s₁,
      (codesAt is v .start).foldl (Machine.exec (some u)) s = s₁ ∧
      s₁.regs (m.at v) = most - c.onPath (q ++ [v]) ∧ s₁.calls = [] := by
    rw [onPath_snoc c hq]
    have hdone := (hplaced v hvid).2
    unfold Done at hdone
    split at hdone
    · next he => rw [he] at huv; simp at huv
    · next p he =>
      rw [he, List.mem_singleton] at huv
      subst huv
      obtain ⟨-, ⟨hnone, hsame⟩ | ⟨n, hn, long, hi⟩⟩ := hdone
      · have hnil : codesAt is v .start = [] := by
          refine List.eq_nil_iff_forall_not_mem.2 fun code hcode => ?_
          cases hlaid.fits _ (mem_codesAt.1 hcode) with
          | continued _ _ _ hpreds hn =>
            rw [he] at hpreds
            cases hpreds
            rw [hnone] at hn
            cases hn
          | join _ _ hpreds => rw [he] at hpreds; simp at hpreds
        rw [hnil, hsame]
        refine ⟨s, rfl, ?_, h.calls⟩
        rw [h.held, EdgeAmounts.on, OrderedMap.getD_eq, hnone]
        simp
      · rw [codesAt_start hlaid hi]
        refine ⟨_, rfl, ?_, h.calls⟩
        change (s.set _ _).regs _ = _
        rw [Machine.set_regs_self, h.held, EdgeAmounts.on, OrderedMap.getD_eq, hn]
        change _ = most - (c.onPath q + n)
        grind
    · obtain ⟨sources, hi, hsnd, hfeeds⟩ := hdone
      rw [← hsnd] at huv
      obtain ⟨x, hx, hxu⟩ : ∃ x, sources.find? (fun x => some x.2 = some u) = some x ∧ x.2 = u := by
        obtain ⟨y, hy, hyu⟩ := List.mem_map.1 huv
        obtain ⟨x, hx⟩ := Option.isSome_iff_exists.1
          (List.find?_isSome.2 ⟨y, hy, by simp [hyu]⟩ :
            (sources.find? fun x => some x.2 = some u).isSome)
        exact ⟨x, hx, by simpa using List.find?_some hx⟩
      rw [codesAt_start hlaid hi]
      refine ⟨_, rfl, ?_, ?_⟩
      · simp only [List.foldl_cons, List.foldl_nil, Machine.exec, hx, Machine.set_regs_self]
        obtain ⟨-, ⟨hzero, hr⟩ | ⟨long, hcut⟩⟩ := hfeeds x (List.mem_of_find?_eq_some hx)
        · rw [hxu] at hzero hr
          rw [hr, h.held, hzero, add_zero]
        · rw [hxu] at hcut
          rw [h.cut long _ _ hcut]
          grind
      · simp only [List.foldl_cons, List.foldl_nil, Machine.exec, hx, Machine.set_calls, h.calls]
  obtain ⟨hcuts, hpair⟩ := cuts_beforeBranch hlaid hentry
  obtain ⟨h₁, h₂, -, h₄⟩ := Machine.foldl_subtract (some u) s₁ hcuts hpair
  unfold execBlock
  rw [List.foldl_append, hs₁]
  refine ⟨h₁.trans hheld, fun long r n hi => ?_, h₂.trans hcalls⟩
  rw [h₄ long r n (mem_codesAt.2 hi), hheld]

/-- **The registers along a path.** -/
theorem counts_follow (hq : g.IsPath g.entry q u) (hs : s.calls = []) :
    Counts c most m is q u (follow is none s q) := by
  refine hq.snoc_induction (motive := fun q u => Counts c most m is q u (follow is none s q)) ?_ ?_
  · obtain ⟨-, hdone⟩ := hplaced g.entry hg.entry_mem
    rw [Done, hg.preds_entry] at hdone
    obtain ⟨long, hi⟩ := hdone
    exact counts_entry hg hlaid (List.ne_nil_of_mem hi) hs
  · intro q u v hq hv h
    rw [follow_snoc none q hq.last]
    exact h.step hg hlaid hplaced hq.last hv

end Placed

/-! ### The hand-over -/

/-- What is added at the end. -/
def handOverCodes (long : Bool) (total : Int64) (symbol : String) (rootLike : Bool)
    (r : Register) : List CounterCode :=
  [.load long .most total false, .copy .remaining r] ++
    (if rootLike then [] else [.load long .remaining total true]) ++ [.call symbol]

theorem handOver_instrs (width total : Int64) (symbol : String) (rootLike : Bool) (d : Draft)
    (e : BlockId) : (handOver width total symbol rootLike d e).instrs = d.plan.instrs ++
      (handOverCodes (width < total) total symbol rootLike (d.register e)).map
        fun code => ⟨e, .beforeBranch, code⟩ := by
  unfold handOver handOverCodes
  cases rootLike <;> simp [Draft.emit, Draft.register]

theorem codesAt_append (is is' : List CounterInstr) (b : BlockId) (place : CodePlace) :
    codesAt (is ++ is') b place = codesAt is b place ++ codesAt is' b place := by
  simp [codesAt]

theorem codesAt_map (cs : List CounterCode) (e b : BlockId) (place : CodePlace) :
    codesAt (cs.map fun code => (⟨e, .beforeBranch, code⟩ : CounterInstr)) b place =
      if b = e ∧ place = .beforeBranch then cs else [] := by
  induction cs with
  | nil => simp [codesAt]
  | cons code cs ih =>
    unfold codesAt at ih ⊢
    rw [List.map_cons, List.filter_cons]
    by_cases h : b = e ∧ place = .beforeBranch
    · obtain ⟨rfl, rfl⟩ := h
      simpa using ih
    · have hnot : ¬ (e = b ∧ CodePlace.beforeBranch = place) := fun h' => h ⟨h'.1.symm, h'.2.symm⟩
      simp only [hnot, decide_false, Bool.false_eq_true, if_false, h, ih]

/-- Instructions at the end of `e` are executed when a path comes to `e`. -/
theorem follow_append (cs : List CounterCode) {e : BlockId} (pred : Option BlockId)
    (hq : ∀ b ∈ q, b ≠ e) :
    follow (is ++ cs.map fun code => ⟨e, .beforeBranch, code⟩) pred s (q ++ [e]) =
      cs.foldl (Machine.exec (q.getLast?.or pred)) (follow is pred s (q ++ [e])) := by
  induction q generalizing pred s with
  | nil =>
    simp only [List.nil_append, follow, execBlock, codesAt_append, codesAt_map]
    simp
  | cons b q ih =>
    have hb := hq b List.mem_cons_self
    have hblock : execBlock (is ++ cs.map fun code => ⟨e, .beforeBranch, code⟩) pred s b =
        execBlock is pred s b := by
      simp [execBlock, codesAt_append, codesAt_map, hb]
    rw [List.cons_append, follow, hblock, ih (some b) fun x hx => hq x (List.mem_cons_of_mem _ hx)]
    cases q with
    | nil => rfl
    | cons b' q =>
      rw [List.getLast?_cons_cons]
      cases hlast : (b' :: q).getLast? with
      | none => simp at hlast
      | some x => rfl

theorem calls_handOverCodes {long rootLike : Bool} {total : Int64} {symbol : String}
    {r : Register} (hr : r ≠ .most) (pred : Option BlockId) (s : Machine) :
    ((handOverCodes long total symbol rootLike r).foldl (Machine.exec pred) s).calls =
      s.calls ++ [(total, s.regs r)] := by
  cases rootLike <;>
    simp [handOverCodes, Machine.exec, Machine.set, Function.update_of_ne hr]

/-- A function of one block has a counter that is worked off from the start. -/
theorem drain_single (hg : g.Checked) (hsize : g.size = 1) {width : Int64} {steps : Nat} {d : Draft}
    (h : drain g c width most steps { queue := [g.entry] } = .ok (some d)) :
    d.register g.entry = .remaining ∧
      ∃ long, d.plan.instrs = [⟨g.entry, .beforeBranch, .load long .remaining 0 false⟩] := by
  cases steps with
  | zero => cases h
  | succ steps =>
    rw [drain_of_single hg hsize] at h
    cases h
    unfold loadEntry
    simp only [hsize, if_true]
    exact ⟨Held.at_insert .., _, rfl⟩

/-- **What is handed over** comes from a placement that has come to the end. -/
theorem ofAmounts_eq_ok {range : AccessRange} {rootLike : Bool} {config : Config}
    {plan : CounterPlan} {e : BlockId} (he : g.end? = some e)
    (h : ofAmounts g c range rootLike config = .ok plan) :
    ∃ steps d, drain g c config.immediateWidth range.max steps { queue := [g.entry] } =
        .ok (some d) ∧ d.hasRegister e = true ∧
      plan = handOver config.immediateWidth range.width config.compensationFunction rootLike d e := by
  unfold ofAmounts at h
  dsimp only at h
  split at h
  · cases h
  rw [he] at h
  obtain ⟨o, hdrain, h⟩ := Outcome.bind_eq_ok.1 h
  cases o with
  | none => cases h
  | some d =>
    dsimp only at h
    split at h
    · next hreg =>
      cases h
      exact ⟨_, d, hdrain, hreg, rfl⟩
    · cases h

/-- **The call finds what is left.**  Whatever the registers held before, along a
path to the end there is one call, and it is given the width of the range and the
greatest number of accesses less the amounts on the edges. -/
theorem calls_run (hg : g.Checked) {range : AccessRange} {rootLike : Bool} {config : Config}
    {plan : CounterPlan} (h : ofAmounts g c range rootLike config = .ok plan) {p : List BlockId}
    {e : BlockId} (he : g.end? = some e) (hends : g.succs e = []) (hp : g.IsPath g.entry p e)
    (hs : s.calls = []) :
    (plan.run s p).calls =
      [(range.width, if g.size = 1 then 0 else range.max - c.onPath p)] := by
  obtain ⟨steps, d, hdrain, hreg, rfl⟩ := ofAmounts_eq_ok he h
  obtain ⟨q, rfl, hq⟩ := hp.eq_snoc_end hends
  rw [run, handOver_instrs, follow_append _ _ hq]
  by_cases hsize : g.size = 1
  · obtain ⟨hreg', long, hinstrs⟩ := drain_single hg hsize hdrain
    obtain ⟨rfl, rfl⟩ : q = [] ∧ g.entry = e := by
      rcases hp.eq_single_or_snoc with ⟨hq', rfl⟩ | ⟨u, -, -, hu, -⟩
      · simpa using hq'
      · exact absurd hu (not_mem_succs_of_single hg hsize u e)
    rw [hreg', hinstrs, calls_handOverCodes (by simp), if_pos hsize]
    simp [follow, execBlock, codesAt, Machine.exec, hs]
  · obtain ⟨hlaid, hplaced⟩ := placed_of_drain hg hsize hdrain
    have hcounts := counts_follow hg hlaid hplaced hp hs
    obtain ⟨k, hk, -⟩ := hlaid.regs e _ (Held.get?_at hreg)
    change Held.at d.plan.registers e = _ at hk
    rw [show d.register e = Held.at d.plan.registers e from rfl,
      calls_handOverCodes (by rw [hk]; simp), hcounts.calls, hcounts.held, if_neg hsize,
      List.nil_append]

end CounterPlan
end ConstantTime
