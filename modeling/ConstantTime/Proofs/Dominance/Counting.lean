/-
# What the tallies of a region count

Let the header `h` of a constant loop be visited between `lo h` and `hi h` times
whenever the loop is entered (`Graph.Regular`).  A formula stands for a number, given
the visits of the headers (`Visits.times`), and so for a least and a greatest number
(`Visits.Bounds`); where `lo` and `hi` are the same these are one number.  The tally of a
node bounds the visits on every pass that comes to the node (`Arrived`), and what a
loop contributes when it is left bounds the visits during the stay in it
(`CountsStays`).  A block that is counted has been visited if all constant loops are
gone round (`Graph.AtLeastTwice`).

* On leaving a node, what is known on arrival still holds of all blocks outside
  the node, and the blocks of an inner loop are counted by what the loop
  contributes (`leaving_counts`).
* Each edge brings no more than that, so by induction on its length a pass finds
  its own counts wherever it comes to (`Drained.arrived`).
* A stay in a loop is cut at the visits of its header into full rounds and a last
  one, each a pass through the loop (`Faithful.exists_rounds`).  The full rounds
  agree with the tally of a round, the last one with that of the exit taken; a
  block that leads to no exit is not in it (`Faithful.countsStays`).
-/

import ConstantTime.Proofs.Dominance.Reach
import ConstantTime.Proofs.Dominance.Tallies

namespace ConstantTime

/-- The number that a formula stands for, if the headers of constant loops are visited
`N` times. -/
def Visits.times (N : BlockId → Nat) : Visits → Nat
  | .once => 1
  | .never => 0
  | .looped h round last => (N h - 1) * round.times N + last.times N
  | .eachRound _ round => round.times N

/-- The number is between those that the formula stands for. -/
def Visits.Bounds (lo hi : BlockId → Nat) (v : Visits) (n : Nat) : Prop :=
  v.times lo ≤ n ∧ n ≤ v.times hi

/-- Wherever a path enters a constant loop and leaves it again, the header is visited
between `lo` and `hi` times in between. -/
def Graph.Regular (g : Graph) (constant : ConstantBounds) (lo hi : BlockId → Nat)
    (p : List BlockId) : Prop :=
  ∀ l, constant (g.header l) = true → ∀ x stay y, x :: (stay ++ [y]) <:+: p →
    ¬ g.Within l x → stay ≠ [] → (∀ b ∈ stay, g.Within l b) → ¬ g.Within l y →
    lo (g.header l) ≤ stay.count (g.header l) ∧ stay.count (g.header l) ≤ hi (g.header l)

theorem Graph.Regular.mono {g : Graph} {constant : ConstantBounds} {lo hi : BlockId → Nat}
    {p q : List BlockId} (hp : g.Regular constant lo hi p) (h : q <:+: p) :
    g.Regular constant lo hi q :=
  fun l hl x stay y hsub => hp l hl x stay y (hsub.trans h)

/-- Every constant loop that is entered is gone round: its header is visited twice or more. -/
def Graph.AtLeastTwice (g : Graph) (constant : ConstantBounds) (lo : BlockId → Nat) : Prop :=
  ∀ h, g.isHeader h = true → constant h = true → 2 ≤ lo h

namespace ConstantLoop

/-- The tally of `n` is right on arrival after `q`: it counts `n` itself, unless that
is an inner loop without a constant bound, and blocks of nodes that were visited
before. -/
def Arrived (g : Graph) (constant : ConstantBounds) (lo hi : BlockId → Nat)
    (T : OrderedMap BlockId Tally) (o : Option LoopId) (h : BlockId) (q : List BlockId)
    (n : BlockId) : Prop :=
  ∃ t, T.get? n = some t ∧ ∀ d v, t.get? d = some v →
    (d = n ∧ v = .once ∧ (n ≠ h → g.isHeader n = true → constant n = true)) ∨
      ((∃ b ∈ q, g.nodeIn o b = g.nodeIn o d) ∧ v.Bounds lo hi (q.count d) ∧
        (g.AtLeastTwice constant lo → d ∈ q))

/-- What a loop contributes when it is left is right: its header is counted, and
every count is that of the stay. -/
def CountsStays (g : Graph) (constant : ConstantBounds) (lo hi : BlockId → Nat)
    (exits : BlockId → BlockId → Tally) (c : LoopId) : Prop :=
  ∀ stay x y, g.IsPath (g.header c) stay x → (∀ b ∈ stay, g.Within c b) → y ∈ g.succs x →
    ¬ g.Within c y → g.Regular constant lo hi (stay ++ [y]) →
    lo (g.header c) ≤ stay.count (g.header c) → stay.count (g.header c) ≤ hi (g.header c) →
    (∃ v, (exits (g.header c) y).get? (g.header c) = some v) ∧
      ∀ d v, (exits (g.header c) y).get? d = some v → g.Within c d ∧
        v.Bounds lo hi (stay.count d) ∧ (g.AtLeastTwice constant lo → d ∈ stay)

variable {g : Graph} {constant : ConstantBounds} {lo hi : BlockId → Nat} {known : Regions}
  {exits : BlockId → BlockId → Tally} {T : OrderedMap BlockId Tally} {o : Option LoopId}
  {c l : LoopId} {d h n u x y : BlockId} {v : Visits} {q stay : List BlockId}

/-! ### Leaving a node -/

/-- The counts on arrival include the node. -/
theorem Arrived.counts (hg : g.Checked) (harr : Arrived g constant lo hi T o h q n)
    (hn : g.IsNode o n) (hfresh : ∀ b ∈ q, g.nodeIn o b ≠ n) {t : Tally}
    (ht : T.get? n = some t) (hd : t.get? d = some v) :
    (∃ b ∈ q ++ [n], g.nodeIn o b = g.nodeIn o d) ∧ v.Bounds lo hi ((q ++ [n]).count d) ∧
      (g.AtLeastTwice constant lo → d ∈ q ++ [n]) := by
  have hself := hg.nodeIn_of_isNode hn
  obtain ⟨t', ht', hentry⟩ := harr
  cases ht.symm.trans ht'
  rcases hentry d v hd with ⟨rfl, rfl, -⟩ | ⟨⟨b, hb, hnode⟩, hcount, hmem⟩
  · have hnew : d ∉ q := fun hdq => hfresh d hdq hself
    refine ⟨⟨d, by simp, rfl⟩, ?_, fun _ => by simp⟩
    simp [Visits.Bounds, List.count_eq_zero.2 hnew, Visits.times]
  · have hne : n ≠ d := by
      rintro rfl
      exact hfresh b hb (hnode.trans hself)
    refine ⟨⟨b, List.mem_append_left _ hb, hnode⟩, ?_, fun hround =>
      List.mem_append_left _ (hmem hround)⟩
    rwa [List.count_append, List.count_singleton, beq_eq_false_iff_ne.2 hne]

/-- A stay in a constant loop goes round as often as the loop does. -/
theorem count_header_of_stretch (hg : g.Checked) (hh : g.IsStart o h) (hc : g.IsChild o c)
    (hconst : constant (g.header c) = true) (hst : g.IsStretch o h q (g.header c) stay u)
    (hin : ∀ b ∈ stay, g.Within c b) (hy : ¬ g.Within c y)
    (hreg : g.Regular constant lo hi (q ++ stay ++ [y])) :
    lo (g.header c) ≤ stay.count (g.header c) ∧ stay.count (g.header c) ≤ hi (g.header c) := by
  -- the stay is preceded by the last block before it
  have hq : q ≠ [] := by
    rintro rfl
    have hhead := hst.arrival.path.head
    simp only [List.nil_append, List.head?_cons, Option.some_inj] at hhead
    exact hg.header_child_ne hh hc hhead
  obtain ⟨q', x, rfl⟩ := (List.eq_nil_or_concat q).resolve_left hq
  rw [List.concat_eq_append] at hst hreg
  have hx : ¬ g.Within c x := fun hcx => hst.fresh x (by simp) (hg.nodeIn_of_child hc hcx)
  exact hreg c hconst x stay y ⟨q', [], by simp⟩ hx hst.path.ne_nil hin hy

/-- **What is known on leaving a node.** -/
theorem leaving_counts (hg : g.Checked) (hh : g.IsStart o h)
    (hexits : ∀ c, g.IsChild o c → constant (g.header c) = true →
      CountsStays g constant lo hi exits c)
    (hst : g.IsStretch o h q n stay u) (harr : Arrived g constant lo hi T o h q n)
    (hs : y ∈ g.succs u) (hout : ∀ c, g.IsChild o c → g.Within c u → ¬ g.Within c y)
    (hreg : g.Regular constant lo hi (q ++ stay ++ [y]))
    (hd : (leaving g constant exits T h n y).get? d = some v) :
    (∃ b ∈ q ++ stay, g.nodeIn o b = g.nodeIn o d) ∧ v.Bounds lo hi ((q ++ stay).count d) ∧
      (g.AtLeastTwice constant lo → d ∈ q ++ stay) := by
  obtain ⟨t, ht, hentry⟩ := id harr
  have hget : T.getD n ∅ = t := by rw [OrderedMap.getD, ht, Option.getD_some]
  rcases hst.level_or_child with ⟨hlevel, rfl⟩ | ⟨c, hc, rfl, hin⟩
  · rw [leaving_of_level hg hh hlevel, hget] at hd
    exact harr.counts hg hst.node hst.fresh ht hd
  · -- blocks of the inner loop are on the stretch only, all others before it
    have hnode : ∀ {b}, g.Within c b → g.nodeIn o b = g.header c := hg.nodeIn_of_child hc
    have hbefore : (∃ b ∈ q, g.nodeIn o b = g.nodeIn o d) ∧ v.Bounds lo hi (q.count d) ∧
        (g.AtLeastTwice constant lo → d ∈ q) →
        (∃ b ∈ q ++ stay, g.nodeIn o b = g.nodeIn o d) ∧ v.Bounds lo hi ((q ++ stay).count d) ∧
          (g.AtLeastTwice constant lo → d ∈ q ++ stay) := by
      rintro ⟨⟨b, hb, hbd⟩, hcount, hmem⟩
      refine ⟨⟨b, List.mem_append_left _ hb, hbd⟩, ?_, fun hround =>
        List.mem_append_left _ (hmem hround)⟩
      have hds : d ∉ stay := fun hds => hst.fresh b hb (hbd.trans (hnode (hin d hds)))
      rwa [List.count_append, List.count_eq_zero.2 hds, Nat.add_zero]
    rw [leaving_of_child hg hh hc, hget] at hd
    split at hd
    · next hconst =>
      have hcy := hout c hc (hin u hst.path.last_mem)
      obtain ⟨hleast, hmost⟩ := count_header_of_stretch hg hh hc hconst hst hin hcy hreg
      obtain ⟨⟨v₀, hv₀⟩, hstay⟩ := hexits c hc hconst stay u y hst.path hin hs hcy
        (hreg.mono ⟨q, [], by simp⟩) hleast hmost
      rcases Tally.get?_updatedBy_eq_some.1 hd with hd | ⟨hnone, hd⟩
      · obtain ⟨hcd, hcount, hmem⟩ := hstay d v hd
        have hdq : d ∉ q := fun hdq => hst.fresh d hdq (hnode hcd)
        refine ⟨⟨u, List.mem_append_right _ hst.path.last_mem, ?_⟩, ?_, fun hround =>
          List.mem_append_right _ (hmem hround)⟩
        · rw [hnode (hin u hst.path.last_mem), hnode hcd]
        · rwa [List.count_append, List.count_eq_zero.2 hdq, Nat.zero_add]
      · rcases hentry d v hd with ⟨rfl, -, -⟩ | hdq
        · rw [hv₀] at hnone
          cases hnone
        · exact hbefore hdq
    · next hconst =>
      rcases hentry d v hd with ⟨rfl, -, hfixed⟩ | hdq
      · exact absurd (hfixed (hg.header_child_ne hh hc) (hg.isHeader_iff.2 ⟨c, hc.1, rfl⟩)) hconst
      · exact hbefore hdq

/-- **The tallies are right wherever a pass comes to.** -/
theorem Drained.arrived (hg : g.Checked) (hh : g.IsStart o h)
    (hT : Drained g constant known o h T)
    (hexits : ∀ c, g.IsChild o c → constant (g.header c) = true →
      CountsStays g constant lo hi (exitTally g constant known (g.loops.length + 1)) c)
    (hpass : g.IsPass o h (q ++ [n]) n) (hn : g.IsNode o n) (hfresh : ∀ b ∈ q, g.nodeIn o b ≠ n)
    (hreg : g.Regular constant lo hi (q ++ [n])) : Arrived g constant lo hi T o h q n := by
  induction hk : q.length using Nat.strong_induction_on generalizing q n with
  | _ k ih =>
    rcases hpass.eq_start_or_snoc with ⟨-, rfl⟩ | ⟨p, u, happ, hq, hs, hne⟩
    · -- at the start
      refine ⟨_, hT.start, fun d v hd => .inl ?_⟩
      rw [OrderedMap.get?_insert] at hd
      split at hd
      · next he =>
        cases hd
        exact ⟨he, rfl, fun hne => absurd rfl hne⟩
      · simp at hd
    · obtain rfl : q = p := by simpa using happ
      obtain ⟨q₀, n₀, stay, rfl, hst⟩ := hq.exists_stretch hg hh
      obtain ⟨rest, rfl⟩ := hst.path.eq_cons
      have hu := hq.path.last_mem
      -- the edge leads on from the node of the stretch
      have hedge : (∀ c, g.IsChild o c → g.Within c u → ¬ g.Within c n) ∧
          n ∈ g.regionSuccs (g.nodeIn o u) h := by
        refine (hg.edge_cases hh (hq.inside u hu) hs (hg.inside_of_isNode hn)
          hne).resolve_left ?_
        rintro ⟨c, hc, hcu, hcn⟩
        refine hfresh u hu ?_
        rw [hg.nodeIn_of_child hc hcu, ← hg.nodeIn_of_child hc hcn, hg.nodeIn_of_isNode hn]
      rw [hst.nodeIn_eq hg] at hedge
      have hshort : q₀.length < k := by
        rw [← hk, List.length_append, List.length_cons]
        omega
      have harr := ih _ hshort hst.arrival hst.node hst.fresh
        (hreg.mono ⟨[], rest ++ [n], by simp⟩) rfl
      obtain ⟨t₀, ht₀, -⟩ := id harr
      obtain ⟨t, ht, hflow⟩ := hT.flows n₀ t₀ ht₀ n hedge.2
      refine ⟨t, ht, fun d v hd => ?_⟩
      rcases hflow d v hd with ⟨hdn, hv, hfixed⟩ | hd
      · exact .inl ⟨hdn, hv, fun _ => hfixed⟩
      · exact .inr (leaving_counts hg hh hexits hst harr hs hedge.1 hreg hd)

/-! ### Rounds of a loop -/

/-- `k` full rounds visit a block as often as the tally of a round says, each of them. -/
def FullRounds (g : Graph) (constant : ConstantBounds) (lo hi : BlockId → Nat) (t : Tally) (k : Nat)
    (full : List BlockId) : Prop :=
  ∀ d v, t.get? d = some v → k * v.times lo ≤ full.count d ∧ full.count d ≤ k * v.times hi ∧
    (g.AtLeastTwice constant lo → 0 < k → d ∈ full)

/-- One more full round. -/
theorem FullRounds.append {t : Tally} {k : Nat} {full last : List BlockId}
    (hfull : FullRounds g constant lo hi t k full)
    (hlast : ∀ d v, t.get? d = some v →
      v.Bounds lo hi (last.count d) ∧ (g.AtLeastTwice constant lo → d ∈ last)) :
    FullRounds g constant lo hi t (k + 1) (full ++ last) := by
  intro d v hd
  obtain ⟨hleast, hmost, -⟩ := hfull d v hd
  obtain ⟨⟨hleast', hmost'⟩, hmem⟩ := hlast d v hd
  rw [List.count_append, Nat.succ_mul, Nat.succ_mul]
  exact ⟨Nat.add_le_add hleast hleast', Nat.add_le_add hmost hmost', fun hround _ =>
    List.mem_append_right _ (hmem hround)⟩

/-- What the analysis of a region says is right. -/
structure Faithful (g : Graph) (constant : ConstantBounds) (lo hi : BlockId → Nat)
    (o : Option LoopId) (h : BlockId) (r : Region) : Prop where
  own : ∀ u t, r.nodes.get? u = some t → t.get? h = some .once
  inside : Local g o r.nodes
  complete : ∀ n ∈ g.ids, g.IsNode o n → ∃ t, r.nodes.get? n = some t
  arrived : ∀ q n, g.IsPass o h (q ++ [n]) n → g.IsNode o n → (∀ b ∈ q, g.nodeIn o b ≠ n) →
    g.Regular constant lo hi (q ++ [n]) → Arrived g constant lo hi r.nodes o h q n
  reach : r.reach = .ofStart g h

namespace Faithful

section Region

variable {r : Region} (hg : g.Checked) (hh : g.IsStart o h) (hr : Faithful g constant lo hi o h r)
include hg hh hr

/-- The start is counted on every way out of the region. -/
theorem leaving_own (hexits : ExitsLocal g exits) (hx : g.Inside o x) (hid : x ∈ g.ids) :
    (leaving g constant exits r.nodes h (g.nodeIn o x) y).get? h = some .once := by
  have hnode := hg.isNode_nodeIn hx
  obtain ⟨t, ht⟩ := hr.complete _ (hg.nodeIn_mem_ids hid hx) hnode
  exact leaving_start hg hh hexits hnode ht (hr.own _ t ht)

variable (hexits : ∀ c, g.IsChild o c → constant (g.header c) = true →
  CountsStays g constant lo hi exits c)
include hexits

/-- **A pass that leaves the region**, or goes back to its start, finds its own
counts. -/
theorem pass_counts (hq : g.IsPass o h q u) (hs : y ∈ g.succs u) (hy : y = h ∨ ¬ g.Inside o y)
    (hreg : g.Regular constant lo hi (q ++ [y]))
    (hd : (leaving g constant exits r.nodes h (g.nodeIn o u) y).get? d = some v) :
    v.Bounds lo hi (q.count d) ∧ (g.AtLeastTwice constant lo → d ∈ q) := by
  obtain ⟨q₀, n, stay, rfl, hst⟩ := hq.exists_stretch hg hh
  obtain ⟨rest, rfl⟩ := hst.path.eq_cons
  rw [hst.nodeIn_eq hg] at hd
  refine (leaving_counts hg hh hexits hst (hr.arrived q₀ n hst.arrival hst.node hst.fresh
    (hreg.mono ⟨[], rest ++ [y], by simp⟩)) hs (fun c hc _ hcy => ?_) hreg hd).2
  rcases hy with rfl | hy
  · exact hg.start_not_in_child hh hc hcy
  · exact hy (hg.inside_of_child hc hcy)

end Region

section Loop

variable {r : Region} (hg : g.Checked) (hr : Faithful g constant lo hi (some l) (g.header l) r)
  (hknown : known.get? (g.header l) = some (.ok r))
  (hexits : ∀ c, g.IsChild (some l) c → constant (g.header c) = true →
    CountsStays g constant lo hi exits c)
include hg hr hknown hexits

omit hg hr hexits in
theorem nodesOf_eq : nodesOf known (g.header l) = r.nodes := by
  rw [nodesOf, hknown]

/-- **Full rounds and a last one.**  The full rounds visit a block as often as the
tally of a round says, each of them. -/
theorem exists_rounds {s : List BlockId} (hs : g.IsPath (g.header l) s x)
    (hin : ∀ b ∈ s, g.Within l b) (hreg : g.Regular constant lo hi s) :
    ∃ full last, s = full ++ last ∧ g.IsPass (some l) (g.header l) last x ∧
      FullRounds g constant lo hi (roundTally g constant known exits (g.header l))
        (s.count (g.header l) - 1) full := by
  have hl : l < g.loops.length := Graph.lt_of_within (hin x hs.last_mem)
  have hh : g.IsStart (some l) (g.header l) := ⟨hl, rfl⟩
  have hstart : g.Inside (some l) (g.header l) := hg.within_header hl
  revert hin hreg
  refine hs.snoc_induction (motive := fun s x => (∀ b ∈ s, g.Within l b) →
    g.Regular constant lo hi s →
    ∃ full last, s = full ++ last ∧ g.IsPass (some l) (g.header l) last x ∧
      FullRounds g constant lo hi (roundTally g constant known exits (g.header l))
        (s.count (g.header l) - 1) full) ?_ ?_
  · intro _ _
    exact ⟨[], [g.header l], rfl, .start hstart, fun d v _ => by simp⟩
  · intro s x y hs hy ih hin hreg
    obtain ⟨full, last, rfl, hlast, hround⟩ := ih
      (fun b hb => hin b (List.mem_append_left _ hb)) (hreg.mono ⟨[], [y], by simp⟩)
    have hyl : g.Inside (some l) y := hin y (by simp)
    by_cases hyh : y = g.header l
    · -- the last round was a full one
      subst hyh
      refine ⟨full ++ last, [g.header l], rfl, .start hstart, ?_⟩
      have hpos : 0 < (full ++ last).count (g.header l) :=
        List.count_pos_iff.2 (List.mem_of_mem_head? hs.head)
      have hnext : (full ++ last ++ [g.header l]).count (g.header l) - 1 =
          (full ++ last).count (g.header l) - 1 + 1 := by
        rw [List.count_append, List.count_singleton_self]
        omega
      rw [hnext]
      refine hround.append fun d v hd => ?_
      have hxl : g.Within l x := hlast.inside x hlast.path.last_mem
      have hback := (get?_roundTally hg hl).1 hd x (hg.retreats_of_within hxl hy)
      rw [nodesOf_eq hknown] at hback
      exact hr.pass_counts hg hh hexits hlast hy (.inl rfl) (hreg.mono ⟨full, [], by simp⟩) hback
    · refine ⟨full, last ++ [y], by rw [List.append_assoc], hlast.snoc hy hyl hyh, ?_⟩
      have hsame :
          (full ++ last ++ [y]).count (g.header l) = (full ++ last).count (g.header l) := by
        rw [List.count_append, List.count_singleton, beq_eq_false_iff_ne.2 hyh]
        rfl
      rwa [hsame]

/-- **The last round** visits a block as often as is known. -/
theorem last_counts {last : List BlockId} (hlast : g.IsPass (some l) (g.header l) last x)
    (hs : y ∈ g.succs x) (hy : ¬ g.Within l y) (hreg : g.Regular constant lo hi (last ++ [y]))
    (hd : lastVisits g constant known exits (g.header l) y d = some v) :
    v.Bounds lo hi (last.count d) := by
  have hxl : g.Within l x := hlast.inside x hlast.path.last_mem
  have hl := Graph.lt_of_within hxl
  have hh : g.IsStart (some l) (g.header l) := ⟨hl, rfl⟩
  unfold lastVisits at hd
  split at hd
  · next m hm =>
    cases hd
    have hout := (get?_lastTally hg hxl hs hy).1 hm x hxl hs
    rw [nodesOf_eq hknown] at hout
    exact (hr.pass_counts hg hh hexits hlast hs (.inr hy) hreg hout).1
  · rw [hg.headedBy_header hl] at hd
    split at hd
    · cases hd
    · next node hnode =>
      split at hd
      · cases hd
      · next hnever =>
        cases hd
        -- a block of the last round would lead to the way out that was taken
        suffices hdl : d ∉ last by simp [Visits.Bounds, Visits.times, List.count_eq_zero.2 hdl]
        refine fun hdl => hnever ?_
        rw [hg.regionNode_eq (hlast.inside d hdl), Option.some_inj] at hnode
        rw [reachesAny, hknown]
        refine List.any_eq_true.2 ⟨g.nodeIn (some l) x, List.mem_filterMap.2 ⟨x, ?_, ?_⟩, ?_⟩
        · exact (mem_sourcesOf hg hl).2 ⟨hxl, hs, hy⟩
        · exact hg.regionNode_eq hxl
        · rw [← hnode, hr.reach]
          exact hlast.reaches hg hh d hdl

end Loop

/-- **A stay in a loop is counted right**, if stays in the loops inside it are. -/
theorem countsStays {r : Region} {fuel : Nat} (hg : g.Checked)
    (hr : Faithful g constant lo hi (some l) (g.header l) r)
    (hknown : known.get? (g.header l) = some (.ok r)) (hlocal : KnownLocal g known)
    (hconst : constant (g.header l) = true)
    (hexits : ∀ c, g.IsChild (some l) c → constant (g.header c) = true →
      CountsStays g constant lo hi (exitTally g constant known fuel) c) :
    CountsStays g constant lo hi (exitTally g constant known (fuel + 1)) l := by
  intro stay x y hpath hin hs hy hreg hleast hmost
  have hxl : g.Inside (some l) x := hin x hpath.last_mem
  have hl : l < g.loops.length := Graph.lt_of_within hxl
  have hh : g.IsStart (some l) (g.header l) := ⟨hl, rfl⟩
  have hexitsLocal := exitsLocal_exitTally hg hlocal constant fuel
  constructor
  · -- the header is counted in every round
    have hown : ∀ x y, g.Within l x →
        (leaving g constant (exitTally g constant known fuel) (nodesOf known (g.header l))
          (g.header l) (g.nodeIn (some l) x) y).get? (g.header l) = some .once := by
      intro x y hx
      rw [nodesOf_eq hknown]
      exact hr.leaving_own hg hh hexitsLocal hx (hg.mem_ids_of_within hx)
    have hround : (roundTally g constant known (exitTally g constant known fuel)
        (g.header l)).get? (g.header l) = some .once :=
      (get?_roundTally hg hl).2 fun x hx => hown x _ (hg.within_of_retreats hl hx)
    have hlast : (lastTally g constant known (exitTally g constant known fuel)
        (g.header l) y).get? (g.header l) = some .once :=
      (get?_lastTally hg hxl hs hy).2 fun x hx _ => hown x y hx
    refine ⟨_, get?_exitTally.2 ⟨_, hround, .once, ?_, rfl⟩⟩
    rw [lastVisits, hlast]
  · intro d v hd
    obtain ⟨n, hn, m, hm, rfl⟩ := get?_exitTally.1 hd
    obtain ⟨full, last, rfl, hlast, hrounds⟩ := hr.exists_rounds hg hknown hexits hpath hin
      (hreg.mono ⟨[], [y], by simp⟩)
    obtain ⟨hfull, hfull', hmem⟩ := hrounds d n hn
    obtain ⟨hlast, hlast'⟩ := hr.last_counts hg hknown hexits hlast hs hy
      (hreg.mono ⟨full, [], by simp⟩) hm
    refine ⟨exitsLocal_exitTally hg hlocal constant (fuel + 1) l hl y d _ hd, ?_, fun hround =>
      List.mem_append_left _ (hmem hround ?_)⟩
    · rw [Visits.Bounds, List.count_append]
      refine ⟨(Nat.add_le_add_right (Nat.mul_le_mul_right _ ?_) _).trans
        (Nat.add_le_add hfull hlast), (Nat.add_le_add hfull' hlast').trans
        (Nat.add_le_add_right (Nat.mul_le_mul_right _ ?_) _)⟩ <;> omega
    · have := hround _ (hg.isHeader_iff.2 ⟨l, hl, rfl⟩) hconst
      omega

end Faithful

end ConstantLoop
end ConstantTime
