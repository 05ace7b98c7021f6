/-
# Loops are analysed from the inside out

When the constant-loop analysis comes to a loop, all loops inside it have been
analysed, and what is known of them is not written again.  A property that looks at
what is known of a loop and of the loops inside it therefore holds of every loop in
the end, if the analysis of a loop brings it about wherever it holds of the loops
inside (`regions_induction`).

An analysis that succeeds has come to every loop directly inside, and none of them has
failed.  So if the analysis of one loop succeeds, so have those of all loops inside it
(`analysed_regions`).
-/

import ConstantTime.Proofs.Dominance.Tallies
import ConstantTime.Proofs.Outcome

namespace ConstantTime
namespace ConstantLoop

variable {g : Graph} {constant : ConstantBounds} {limit : Int64} {known : Regions} {l : LoopId}
  {o : Option LoopId} {b h : BlockId} {r : Region} {P : Regions → LoopId → Prop}
  {Q : LoopId → Region → Prop}

/-- The property is about what is known of a loop and of the loops inside it. -/
def LooksInside (g : Graph) (P : Regions → LoopId → Prop) : Prop :=
  ∀ known known', ∀ l < g.loops.length, (∀ m < g.loops.length, g.Within l (g.header m) →
    known'.get? (g.header m) = known.get? (g.header m)) → P known l → P known' l

/-- What is known when the loops in `done` have been analysed. -/
structure KnownOf (g : Graph) (P : Regions → LoopId → Prop) (done : List LoopId)
    (known : Regions) : Prop where
  fresh : ∀ m < g.loops.length, m ∉ done → known.get? (g.header m) = none
  holds : ∀ m ∈ done, m < g.loops.length ∧ P known m

section Regions

variable (hg : g.Checked)
include hg

/-- Inner loops are analysed before a loop, and outer ones after it. -/
theorem done_of_split {done rest : List LoopId} (hsplit : g.innerFirst = done ++ l :: rest) :
    l < g.loops.length ∧
      (∀ m < g.loops.length, g.Within l (g.header m) → m ≠ l → m ∈ done) ∧
      ∀ m ∈ done, ¬ g.Within m (g.header l) := by
  have hpair := hg.pairwise_innerFirst
  rw [hsplit] at hpair
  obtain ⟨-, hrest, hbefore⟩ := List.pairwise_append.1 hpair
  refine ⟨hg.lt_of_mem_innerFirst (by rw [hsplit]; simp), fun m hm hw hne => ?_,
    fun m hm => hbefore m hm l List.mem_cons_self⟩
  have hmem := hg.mem_innerFirst hm
  rw [hsplit, List.mem_append, List.mem_cons] at hmem
  rcases hmem with hmem | rfl | hmem
  · exact hmem
  · exact absurd rfl hne
  · exact absurd hw ((List.pairwise_cons.1 hrest).1 m hmem)

/-- **One more loop is analysed.** -/
theorem KnownOf.insert {done rest : List LoopId} {out : Outcome Region}
    (hlooks : LooksInside g P) (hsplit : g.innerFirst = done ++ l :: rest)
    (hknown : KnownOf g P done known) (hnew : P (known.insert (g.header l) out) l) :
    KnownOf g P (done ++ [l]) (known.insert (g.header l) out) := by
  obtain ⟨hl, -, hbefore⟩ := done_of_split hg hsplit
  have hother : ∀ m < g.loops.length, m ≠ l →
      (known.insert (g.header l) out).get? (g.header m) = known.get? (g.header m) := by
    intro m hm hne
    rw [OrderedMap.get?_insert, if_neg fun he => hne (hg.header_inj hm hl he)]
  refine ⟨fun m hm hmdone => ?_, fun k hk => ?_⟩
  · rw [List.mem_append, List.mem_singleton, not_or] at hmdone
    exact (hother m hm hmdone.2).trans (hknown.fresh m hm hmdone.1)
  · rcases List.mem_append.1 hk with hkdone | hk
    · obtain ⟨hklt, hPk⟩ := hknown.holds k hkdone
      refine ⟨hklt, hlooks known _ k hklt (fun m hm hw => hother m hm ?_) hPk⟩
      rintro rfl
      exact hbefore k hkdone hw
    · rw [List.mem_singleton.1 hk]
      exact ⟨hl, hnew⟩

/-- **Induction from the inside out.** -/
theorem regions_induction (hlooks : LooksInside g P)
    (step : ∀ known, ∀ l < g.loops.length,
      (∀ m < g.loops.length, known.get? (g.header m) = none ∨ P known m) →
      (∀ m < g.loops.length, g.Within l (g.header m) → m ≠ l → P known m) →
        P (known.insert (g.header l) (analyse g constant limit known (g.header l))) l) :
    ∀ l < g.loops.length, P (regions g constant limit) l := by
  have key : ∀ (rest done : List LoopId) (known : Regions), g.innerFirst = done ++ rest →
      KnownOf g P done known → KnownOf g P (done ++ rest)
        (rest.foldl (fun known l => known.insert (g.headerOf (some l))
          (analyse g constant limit known (g.headerOf (some l)))) known) := by
    intro rest
    induction rest with
    | nil =>
      intro done known _ hknown
      rwa [List.append_nil]
    | cons l rest ih =>
      intro done known hsplit hknown
      obtain ⟨hl, hinner, -⟩ := done_of_split hg hsplit
      rw [List.append_cons]
      refine ih (done ++ [l]) _ (by rw [hsplit, List.append_cons])
        (hknown.insert hg hlooks hsplit (step known l hl (fun m hm => ?_) fun m hm hw hne =>
          (hknown.holds m (hinner m hm hw hne)).2))
      by_cases hmdone : m ∈ done
      · exact .inr (hknown.holds m hmdone).2
      · exact .inl (hknown.fresh m hm hmdone)
  intro l hl
  refine ((key g.innerFirst [] ∅ rfl ⟨fun _ _ _ => OrderedMap.get?_empty, by simp⟩).holds l ?_).2
  exact hg.mem_innerFirst hl

/-- Only headers have been analysed. -/
theorem exists_header_of_get?_regions {out : Outcome Region}
    (hout : (regions g constant limit).get? b = some out) :
    ∃ l < g.loops.length, b = g.header l := by
  have key : ∀ (ls : List LoopId) (known : Regions), (∀ l ∈ ls, l < g.loops.length) →
      (∀ b r, known.get? b = some r → ∃ l < g.loops.length, b = g.header l) →
        ∀ b r, (ls.foldl (fun known l => known.insert (g.headerOf (some l))
          (analyse g constant limit known (g.headerOf (some l)))) known).get? b = some r →
            ∃ l < g.loops.length, b = g.header l := by
    intro ls
    induction ls with
    | nil => exact fun _ _ hknown => hknown
    | cons l ls ih =>
      intro known hls hknown
      exact ih _ (fun m hm => hls m (List.mem_cons_of_mem _ hm))
        (OrderedMap.forall_get?_insert hknown ⟨l, hls l List.mem_cons_self, rfl⟩)
  exact key g.innerFirst ∅ (fun l => hg.lt_of_mem_innerFirst) (by simp) b out hout

/-- The entry of the function heads no loop that was analysed. -/
theorem get?_regions_entry (constant : ConstantBounds) (limit : Int64) :
    (regions g constant limit).get? g.entry = none := by
  by_contra hsome
  obtain ⟨r, hr⟩ := Option.ne_none_iff_exists'.1 hsome
  obtain ⟨l, hl, he⟩ := exists_header_of_get?_regions hg hr
  exact hg.not_within_entry l (he ▸ hg.within_header hl)

end Regions

/-- What is known is about the loops' own blocks, if it is for each loop that is known. -/
theorem knownLocal_of (h : ∀ l < g.loops.length, known.get? (g.header l) = none ∨
    (∃ e, known.get? (g.header l) = some (.error e)) ∨
      ∃ r, known.get? (g.header l) = some (.ok r) ∧ Local g (some l) r.nodes) :
    KnownLocal g known := by
  intro l hl u t hu
  unfold nodesOf at hu
  rcases h l hl with hnone | ⟨e, herr⟩ | ⟨r, hr, hlocal⟩
  · rw [hnone] at hu
    simp at hu
  · rw [herr] at hu
    simp at hu
  · rw [hr] at hu
    exact hlocal u t hu

/-- The loop and all loops inside it have been analysed, with results of a kind. -/
def AnalysedInside (g : Graph) (Q : LoopId → Region → Prop) (known : Regions) (l : LoopId) : Prop :=
  ∀ m < g.loops.length, g.Within l (g.header m) →
    ∃ r, known.get? (g.header m) = some (.ok r) ∧ Q m r

section Analysed

variable (hg : g.Checked)
include hg

/-- **The loops directly inside** have been analysed, if the region has. -/
theorem children_analysed (hlocal : KnownLocal g known) (hh : g.IsStart o h)
    (hr : analyse g constant limit known h = .ok r)
    (hchild : ∀ c, g.IsChild o c → (∃ e, known.get? (g.header c) = some (.error e)) ∨
      AnalysedInside g Q known c) :
    ∀ c, g.IsChild o c → AnalysedInside g Q known c := by
  obtain ⟨hdrained, -, -⟩ := analyse_eq_ok hg hh (exitsLocal_exitTally hg hlocal _ _) hr
  exact fun c hc => (hchild c hc).resolve_left fun ⟨e, he⟩ => hdrained.no_error hg hh hc e he

/-- **Loops whose analysis succeeds**, if a result is of the kind wherever those of
the loops inside are. -/
theorem analysed_regions (hQ : ∀ l r, Q l r → Local g (some l) r.nodes)
    (step : ∀ known, ∀ l < g.loops.length, KnownLocal g known → ∀ r,
      analyse g constant limit known (g.header l) = .ok r →
      (∀ c, g.IsChild (some l) c → AnalysedInside g Q known c) → Q l r) :
    ∀ l < g.loops.length, (∃ e, (regions g constant limit).get? (g.header l) = some (.error e)) ∨
      AnalysedInside g Q (regions g constant limit) l := by
  refine regions_induction hg (P := fun known l => (∃ e, known.get? (g.header l) = some (.error e)) ∨
    AnalysedInside g Q known l) ?_ ?_
  · intro known known' l hl hsame
    dsimp only
    rw [hsame l hl (hg.within_header hl)]
    exact Or.imp_right fun hinf m hm hw => (hsame m hm hw).symm ▸ hinf m hm hw
  · intro known l hl hknown hinner
    cases hr : analyse g constant limit known (g.header l) with
    | error e => exact .inl ⟨e, by simp⟩
    | ok r =>
      have hlocal : KnownLocal g known := by
        refine knownLocal_of fun m hm => (hknown m hm).imp_right (Or.imp_right fun hinf => ?_)
        exact (hinf m hm (hg.within_header hm)).imp fun r => And.imp_right (hQ m r)
      have hh : g.IsStart (some l) (g.header l) := ⟨hl, rfl⟩
      have hchild : ∀ c, g.IsChild (some l) c → AnalysedInside g Q known c :=
        children_analysed hg hlocal hh hr fun c hc => by
          obtain ⟨hne, hw, -⟩ := hg.parent_eq_some hc.1 hc.2
          exact hinner c hc.1 hw hne.symm
      refine .inr fun m hm hw => ?_
      by_cases hml : m = l
      · subst hml
        exact ⟨r, by simp, step known m hl hlocal r hr hchild⟩
      · obtain ⟨c, hc, hcm⟩ := hg.exists_child hm hw (Ne.symm hml)
        rw [OrderedMap.get?_insert, if_neg fun he => hml (hg.header_inj hm hl he)]
        exact hchild c ⟨Graph.lt_of_within hcm, hc⟩ m hm hcm

/-- What is known in the end is about the loops' own blocks. -/
theorem knownLocal_regions (constant : ConstantBounds) (limit : Int64) :
    KnownLocal g (regions g constant limit) := by
  refine knownLocal_of fun l hl => .inr ?_
  refine (analysed_regions hg (Q := fun l r => Local g (some l) r.nodes) (fun _ _ h => h) ?_ l hl)
    |>.imp_right fun hinf => hinf l hl (hg.within_header hl)
  intro known l hl hlocal r hr _
  have hh : g.IsStart (some l) (g.header l) := ⟨hl, rfl⟩
  exact (analyse_eq_ok hg hh (exitsLocal_exitTally hg hlocal constant _) hr).1.inside

/-- **The answer for the function** lists the blocks of the region of its entry, or those of
them that are ends. -/
theorem get?_constantLoopDominators {endOnly : Bool} {m : DominatorTable}
    (hm : g.constantLoopDominators constant limit endOnly g.entry = .ok m) :
    ∃ r, analyse g constant limit (regions g constant limit) g.entry = .ok r ∧
      ∀ b doms, m.get? b = some doms ↔
        (∃ t, r.blocks.get? b = some t ∧ t.blocks = doms) ∧ (endOnly = true → g.succs b = []) := by
  unfold Graph.constantLoopDominators at hm
  dsimp only at hm
  rw [get?_regions_entry hg] at hm
  obtain ⟨r, hr, hrest⟩ := Outcome.bind_eq_ok.1 hm
  cases hrest
  refine ⟨r, hr, fun b doms => ?_⟩
  rw [OrderedMap.get?_filterKeys, OrderedMap.get?_mapValues]
  cases endOnly <;> simp

/-- For a block outside all loops the answer is read off the nodes of the region. -/
theorem constantLoopDominators_eq_ok {endOnly : Bool} {m : DominatorTable}
    (hm : g.constantLoopDominators constant limit endOnly g.entry = .ok m) :
    ∃ r, analyse g constant limit (regions g constant limit) g.entry = .ok r ∧
      ∀ b, g.loopOf b = none → ∀ d ∈ m.of b, ∃ t v, r.nodes.get? b = some t ∧ t.get? d = some v := by
  have hh : g.IsStart none g.entry := rfl
  obtain ⟨r, hr, hget⟩ := get?_constantLoopDominators hg hm
  refine ⟨r, hr, fun b hb d hd => ?_⟩
  obtain ⟨row, hrow, hd⟩ := DominatorTable.mem_of.1 hd
  obtain ⟨⟨t, ht, rfl⟩, -⟩ := (hget b row).1 hrow
  obtain ⟨v, hv⟩ := Tally.mem_blocks.1 hd
  obtain ⟨-, -, hblocks⟩ := analyse_eq_ok hg hh
    (exitsLocal_exitTally hg (knownLocal_regions hg constant limit) constant _) hr
  exact ⟨t, v, hblocks b hb ▸ ht, hv⟩

end Analysed

end ConstantLoop
end ConstantTime
