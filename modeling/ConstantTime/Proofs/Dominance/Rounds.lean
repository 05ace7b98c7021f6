/-
# Paths that go round loops once, or every time

A path may be asked to go round a constant loop before it leaves it: on this very
stay, or at any time before.  What is asked is a property `Done l` of a loop and the
path so far, which only a back edge of the loop brings about while the path stays in
it (`Counts`).  A path is *fair* if the constant loops that it leaves are done, and
if it takes a back edge only of a loop that is not done yet.

If a path takes back edges of all constant loops that it leaves, then there is a
fair path to the same block, past no other blocks (`Checked.exists_fair`), whichever
of the two is asked.  It follows a path without back edges, and where that enters a
constant loop that is not done it goes round the loop first, likewise: on the way
round it goes round the loops inside.  The induction is on the loops that are not
around the start (`Checked.exists_extension`).
-/

import ConstantTime.Proofs.Dominance.Soundness
import ConstantTime.Proofs.Graph.Once

namespace ConstantTime
namespace Graph

variable {g : Graph} {constant : ConstantBounds} {Done : LoopId → List BlockId → Prop}
  {l c : LoopId} {a b u v w x : BlockId} {p q r s : List BlockId}

/-! ### Steps of a path -/

/-- Every step of the path, from `u` to `v` after what came before, has a property. -/
def EachStep (S : List BlockId → BlockId → BlockId → Prop) (p : List BlockId) : Prop :=
  ∀ q u v r, p = q ++ u :: v :: r → S (q ++ [u]) u v

theorem eachStep_singleton {S : List BlockId → BlockId → BlockId → Prop} : EachStep S [x] := by
  intro q u v r h
  have := congrArg List.length h
  simp only [List.length_append, List.length_cons, List.length_nil] at this
  omega

theorem eachStep_snoc {S : List BlockId → BlockId → BlockId → Prop} (hq : q.getLast? = some u) :
    EachStep S (q ++ [v]) ↔ EachStep S q ∧ S q u v := by
  obtain ⟨q, rfl⟩ : ∃ r, q = r ++ [u] := List.getLast?_eq_some_iff.1 hq
  constructor
  · intro h
    refine ⟨fun q' u' v' r' he => h q' u' v' (r' ++ [v]) (by simp [he]), ?_⟩
    exact h q u v [] (by simp)
  · rintro ⟨h, hlast⟩ q' u' v' r' he
    rcases r'.eq_nil_or_concat with rfl | ⟨r', y, rfl⟩
    · have hsplit : q ++ [u] ++ [v] = q' ++ [u'] ++ [v'] := by rw [he]; simp
      obtain ⟨hsplit, hv⟩ := List.append_inj' hsplit rfl
      obtain ⟨rfl, hu⟩ := List.append_inj' hsplit rfl
      cases hu
      cases hv
      exact hlast
    · rw [List.concat_eq_append, ← List.cons_append, ← List.cons_append, ← List.append_assoc] at he
      obtain ⟨hsplit, -⟩ := List.append_inj' he rfl
      exact h q' u' v' r' hsplit

/-! ### When a loop counts as gone round -/

/-- While a path stays in a loop, the loop becomes done when the path takes one of its
back edges, and stays done. -/
def Counts (g : Graph) (Done : LoopId → List BlockId → Prop) : Prop :=
  ∀ l q u v, q.getLast? = some u → v ∈ g.succs u → g.Within l u → g.Within l v →
    (Done l (q ++ [v]) ↔ Done l q ∨ v = g.header l)

/-- The path takes a back edge of the loop. -/
def RoundOn (g : Graph) (l : LoopId) (q : List BlockId) : Prop :=
  ∃ e ∈ g.backEdgesOn q, e.target = g.header l

/-- The stay in the loop that the path ends in takes a back edge of it. -/
def RoundOnStay (g : Graph) (l : LoopId) (q : List BlockId) : Prop :=
  ∃ stay, stay <:+ q ∧ (∀ b ∈ stay, g.Within l b) ∧ g.RoundOn l stay

theorem RoundOn.mono (h : g.RoundOn l p) (hp : p <:+: q) : g.RoundOn l q := by
  obtain ⟨e, he, hl⟩ := h
  obtain ⟨he, hb⟩ := List.mem_filter.1 he
  exact ⟨e, List.mem_filter.2 ⟨mem_edgesOn_mono hp he, hb⟩, hl⟩

namespace Checked

variable (hg : g.Checked)
include hg

theorem roundOn_snoc (hq : q.getLast? = some u) (hs : v ∈ g.succs u) (hu : g.Within l u) :
    g.RoundOn l (q ++ [v]) ↔ g.RoundOn l q ∨ v = g.header l := by
  rw [RoundOn, backEdgesOn_snoc hq]
  constructor
  · rintro ⟨e, he, hl⟩
    rcases List.mem_append.1 he with he | he
    · exact .inl ⟨e, he, hl⟩
    · split at he
      · rw [List.mem_singleton.1 he] at hl
        exact .inr hl
      · cases he
  · rintro (⟨e, he, hl⟩ | rfl)
    · exact ⟨e, List.mem_append_left _ he, hl⟩
    · have hback := hg.isBackEdge_iff.2 (hg.retreats_of_within hu hs)
      rw [if_pos hback]
      exact ⟨⟨u, _⟩, List.mem_append_right _ (List.mem_singleton_self _), rfl⟩

theorem counts_roundOn : g.Counts g.RoundOn :=
  fun _ _ _ _ hq hs hu _ => hg.roundOn_snoc hq hs hu

theorem counts_roundOnStay : g.Counts g.RoundOnStay := by
  intro l q u v hq hs hu hv
  constructor
  · rintro ⟨stay, hsuffix, hall, hround⟩
    rcases stay.eq_nil_or_concat with rfl | ⟨stay, y, rfl⟩
    · obtain ⟨e, he, -⟩ := hround
      cases he
    rw [List.concat_eq_append] at *
    obtain ⟨before, he⟩ := hsuffix
    rw [← List.append_assoc] at he
    obtain ⟨rfl, hy⟩ := List.append_inj' he rfl
    cases hy
    rcases stay.eq_nil_or_concat with rfl | ⟨stay, y, rfl⟩
    · obtain ⟨e, he, -⟩ := hround
      cases he
    rw [List.concat_eq_append] at *
    have hy : y = u := by simpa using hq
    have hlast : (stay ++ [y]).getLast? = some u := by simp [hy]
    refine ((hg.roundOn_snoc hlast hs hu).1 hround).imp_left fun h => ?_
    exact ⟨stay ++ [y], ⟨before, rfl⟩, fun b hb => hall b (List.mem_append_left _ hb), h⟩
  · rintro (⟨stay, ⟨before, rfl⟩, hall, hround⟩ | rfl)
    · refine ⟨stay ++ [v], ⟨before, by simp⟩, fun b hb => ?_, ?_⟩
      · rcases List.mem_append.1 hb with hb | hb
        · exact hall b hb
        · rwa [List.mem_singleton.1 hb]
      · exact hround.mono ⟨[], [v], by simp⟩
    · obtain ⟨q, rfl⟩ : ∃ r, q = r ++ [u] := List.getLast?_eq_some_iff.1 hq
      refine ⟨[u, g.header l], ⟨q, by simp⟩, by simpa using ⟨hu, hv⟩, ?_⟩
      exact (hg.roundOn_snoc (q := [u]) rfl hs hu).2 (.inr rfl)

end Checked

/-! ### Fair paths -/

/-- The path leaves no constant loop that is not done, and takes back edges only of
loops that are not done. -/
structure Fair (g : Graph) (constant : ConstantBounds) (Done : LoopId → List BlockId → Prop)
    (q : List BlockId) (b : BlockId) : Prop where
  path : g.IsPath g.entry q b
  leaves : EachStep (fun q u v => ∀ l, constant (g.header l) = true → g.Within l u →
    ¬ g.Within l v → Done l q) q
  once : EachStep (fun q u v => g.Retreats u v →
    ∀ l, l < g.loops.length → v = g.header l → ¬ Done l q) q

theorem fair_entry : g.Fair constant Done [g.entry] g.entry :=
  ⟨.single _, eachStep_singleton, eachStep_singleton⟩

theorem Fair.snoc (h : g.Fair constant Done q u) (hs : v ∈ g.succs u)
    (hleaves : ∀ l, constant (g.header l) = true → g.Within l u → ¬ g.Within l v → Done l q)
    (honce : g.Retreats u v → ∀ l, l < g.loops.length → v = g.header l → ¬ Done l q) :
    g.Fair constant Done (q ++ [v]) v :=
  ⟨h.path.snoc hs, (eachStep_snoc h.path.last).2 ⟨h.leaves, hleaves⟩,
    (eachStep_snoc h.path.last).2 ⟨h.once, honce⟩⟩

/-- A fair path from the start `a` goes on fairly to `x`, past blocks that are
allowed, and changes nothing for the loops around the start. -/
structure Extends (g : Graph) (constant : ConstantBounds) (Done : LoopId → List BlockId → Prop)
    (P : BlockId → Prop) (a : BlockId) (q s : List BlockId) (x : BlockId) : Prop where
  fair : g.Fair constant Done (q ++ s) x
  allowed : ∀ y ∈ s, P y
  kept : ∀ l, g.Within l a → (Done l (q ++ s) ↔ Done l q)
  /-- What is left open are loops around the start. -/
  done : ∀ l, constant (g.header l) = true → g.Within l x → Done l (q ++ s) ∨ g.Within l a

/-- From the header of each constant loop that is allowed there is a way to a latch,
past blocks that are allowed and without back edges. -/
def RoundsIn (g : Graph) (constant : ConstantBounds) (P : BlockId → Prop) : Prop :=
  ∀ l, l < g.loops.length → constant (g.header l) = true → P (g.header l) →
    ∃ r u, g.IsPath (g.header l) r u ∧ g.Retreats u (g.header l) ∧ g.backEdgesOn r = [] ∧
      ∀ y ∈ r, P y ∧ g.Within l y

namespace Checked

variable (hg : g.Checked) {P : BlockId → Prop}
include hg

/-- Forward to a block, which may be the header of a loop that is not done yet. -/
theorem extends_forward (hcounts : g.Counts Done) (h : g.Extends constant Done P a q s u)
    (hs : v ∈ g.succs u) (hforward : ¬ g.Retreats u v) (hv : P v)
    (hu : ∀ l, g.Within l a → g.Within l u) (hin : ∀ l, g.Within l a → g.Within l v) :
    g.Fair constant Done (q ++ (s ++ [v])) v ∧ (∀ y ∈ s ++ [v], P y) ∧
      (∀ l, g.Within l a → (Done l (q ++ (s ++ [v])) ↔ Done l q)) ∧
      ∀ l, constant (g.header l) = true → g.Within l v → v ≠ g.header l →
        Done l (q ++ (s ++ [v])) ∨ g.Within l a := by
  have hne : ∀ l, g.Within l u → v ≠ g.header l := by
    rintro l hl rfl
    exact hforward (hg.retreats_of_within hl hs)
  have hsame : ∀ l, g.Within l u → g.Within l v →
      (Done l (q ++ s ++ [v]) ↔ Done l (q ++ s)) := by
    intro l hlu hlv
    rw [hcounts l _ u v h.fair.path.last hs hlu hlv, or_iff_left (hne l hlu)]
  rw [← List.append_assoc]
  refine ⟨h.fair.snoc hs (fun l hl hlu hlv => ?_) fun hr => absurd hr hforward,
    fun y hy => ?_, fun l hl => ?_, fun l hl hlv hnot => ?_⟩
  · exact (h.done l hl hlu).resolve_right fun hla => hlv (hin l hla)
  · rcases List.mem_append.1 hy with hy | hy
    · exact h.allowed y hy
    · rwa [List.mem_singleton.1 hy]
  · rw [hsame l (hu l hl) (hin l hl), h.kept l hl]
  · have hlu := hg.within_of_succ hlv hnot hs
    rw [hsame l hlu hlv]
    exact h.done l hl hlu

/-- Round a loop that is not done, from its header to its header. -/
theorem extends_round (hcounts : g.Counts Done) (hc : c < g.loops.length)
    (h : g.Extends constant Done P (g.header c) q s w) (hw : g.Retreats w (g.header c))
    (hwc : g.Within c w) (hallowed : P (g.header c)) (hnot : ¬ Done c q) :
    g.Fair constant Done (q ++ (s ++ [g.header c])) (g.header c) ∧
      (∀ y ∈ s ++ [g.header c], P y) ∧ Done c (q ++ (s ++ [g.header c])) ∧
      ∀ l, l ≠ c → g.Within l (g.header c) → (Done l (q ++ (s ++ [g.header c])) ↔ Done l q) := by
  have hsnoc : ∀ l, g.Within l (g.header c) →
      (Done l (q ++ s ++ [g.header c]) ↔ Done l (q ++ s) ∨ g.header c = g.header l) := fun l hl =>
    hcounts l _ w _ h.fair.path.last hw.1 (hg.within_trans hl hwc) hl
  rw [← List.append_assoc]
  refine ⟨h.fair.snoc hw.1 (fun l hl hlw hlc => ?_) (fun _ l hl he => ?_), fun y hy => ?_,
    ?_, fun l hl hlc => ?_⟩
  · exact (h.done l hl hlw).resolve_right hlc
  · rw [← hg.header_inj hc hl he, h.kept c (hg.within_header hc)]
    exact hnot
  · rcases List.mem_append.1 hy with hy | hy
    · exact h.allowed y hy
    · rwa [List.mem_singleton.1 hy]
  · exact (hsnoc c (hg.within_header hc)).2 (.inr rfl)
  · rw [hsnoc l hlc, h.kept l hlc, or_iff_left]
    exact fun he => hl (hg.header_inj hc (lt_of_within hlc) he).symm

/-- **A fair path goes on fairly** along a path without back edges that stays in the
loops around its start. -/
theorem exists_extension (hcounts : g.Counts Done) (hrounds : g.RoundsIn constant P)
    (hq : g.Fair constant Done q a) (hr : g.IsPath a r x) (hforward : g.backEdgesOn r = [])
    (hin : ∀ y ∈ r, P y ∧ ∀ l, g.Within l a → g.Within l y) :
    ∃ s, g.Extends constant Done P a q s x := by
  induction hn : g.loops.length - (g.around a).length using Nat.strong_induction_on
    generalizing a q r x with
  | _ n ih =>
    subst hn
    refine hr.snoc_induction (motive := fun r x => g.backEdgesOn r = [] →
      (∀ y ∈ r, P y ∧ ∀ l, g.Within l a → g.Within l y) →
      ∃ s, g.Extends constant Done P a q s x) (fun _ _ => ?_) ?_ hforward hin
    · exact ⟨[], by simpa using hq, by simp, by simp, fun l _ hl => .inr hl⟩
    intro r u v hr hs ihr hforward hin
    rw [backEdgesOn_snoc hr.last, List.append_eq_nil_iff] at hforward
    obtain ⟨s, h⟩ := ihr hforward.1 fun y hy => hin y (List.mem_append_left _ hy)
    have hfwd : ¬ g.Retreats u v := fun hr => by simp [hg.isBackEdge_iff.2 hr] at hforward
    obtain ⟨hPv, hav⟩ := hin v (by simp)
    have hau := (hin u (List.mem_append_left _ hr.last_mem)).2
    obtain ⟨hfair, hallowed, hkept, hdone⟩ :=
      hg.extends_forward hcounts h hs hfwd hPv hau hav
    by_cases hopen : ∃ c, c < g.loops.length ∧ v = g.header c ∧ constant (g.header c) = true ∧
        ¬ Done c (q ++ (s ++ [v]))
    · -- The path enters a loop that is not done, and goes round it first.
      obtain ⟨c, hc, rfl, hconst, hnot⟩ := hopen
      obtain ⟨r', w, hr', hw, hforward', hin'⟩ := hrounds c hc hconst hPv
      have hwc := (hin' w hr'.last_mem).2
      have hac : ¬ g.Within c a := fun hac => hfwd (hg.retreats_of_within (hau c hac) hs)
      have hmore : g.loops.length - (g.around (g.header c)).length <
          g.loops.length - (g.around a).length := by
        have hsub : c :: g.around a ⊆ g.around (g.header c) := by
          intro l hl
          rcases List.mem_cons.1 hl with rfl | hl
          · exact mem_around.2 (hg.within_header hc)
          · exact mem_around.2 (hav l (mem_around.1 hl))
        have hnodup := List.nodup_cons.2 ⟨fun hmem => hac (mem_around.1 hmem), nodup_around g a⟩
        have hlt := hnodup.length_le_of_subset hsub
        have hle : (g.around (g.header c)).length ≤ g.loops.length := by
          rw [around]
          exact (List.length_filter_le ..).trans (Nat.le_of_eq List.length_range)
        rw [List.length_cons] at hlt
        omega
      obtain ⟨s', h'⟩ := ih _ hmore hfair hr' hforward'
        (fun y hy => ⟨(hin' y hy).1, fun l hl => hg.within_trans hl (hin' y hy).2⟩) rfl
      obtain ⟨hfair', hallowed', hdone', hkept'⟩ :=
        hg.extends_round hcounts hc h' hw hwc hPv hnot
      refine ⟨s ++ [g.header c] ++ (s' ++ [g.header c]), ?_, fun y hy => ?_, fun l hl => ?_,
        fun l hl hlc => ?_⟩
      · rwa [← List.append_assoc q]
      · exact (List.mem_append.1 hy).elim (hallowed y) (hallowed' y)
      · rw [← List.append_assoc q, hkept' l (fun he => hac (he ▸ hl)) (hav l hl), hkept l hl]
      · rw [← List.append_assoc q]
        by_cases hlc' : l = c
        · rw [hlc']
          exact .inl hdone'
        · rw [hkept' l hlc' hlc]
          exact hdone l hl hlc fun he => hlc' (hg.header_inj hc (lt_of_within hlc) he).symm
    · refine ⟨s ++ [v], hfair, hallowed, hkept, fun l hl hlv => ?_⟩
      by_cases hv : v = g.header l
      · by_contra hnot
        exact hopen ⟨l, lt_of_within hlv, hv, hl, fun hd => hnot (.inl hd)⟩
      · exact hdone l hl hlv hv

/-! ### Rounds of a path -/

/-- A path that takes a back edge of a loop has been on a way round it. -/
theorem exists_round (hl : l < g.loops.length) (hp : g.IsPath g.entry p b) (h : g.RoundOn l p) :
    ∃ r u, g.IsPath (g.header l) r u ∧ g.Retreats u (g.header l) ∧ g.backEdgesOn r = [] ∧
      ∀ y ∈ r, y ∈ p ∧ g.Within l y := by
  obtain ⟨⟨u, h⟩, he, rfl⟩ := h
  obtain ⟨he, hback⟩ := List.mem_filter.1 he
  have hr : g.Retreats u (g.header l) := hg.isBackEdge_iff.1 hback
  obtain ⟨q, r, rfl⟩ := mem_edgesOn.1 he
  have hqu := hp.of_append.1
  obtain ⟨q₁, q₂, hsplit, -, hfrom⟩ := hqu.split (hg.onEveryPath_of_retreats hr _ hqu)
  obtain ⟨f, hf, hnodup, hsub⟩ := hfrom.exists_nodup
  have hin : ∀ y ∈ f, g.Within l y := by
    obtain ⟨f, rfl⟩ := hf.eq_cons
    intro y hy
    rw [hg.within_iff_natural hl]
    rcases List.mem_cons.1 hy with rfl | hy
    · exact hg.header_mem_natural_self
    · exact hg.mem_natural_of_path hf (List.nodup_cons.1 hnodup).1 (hg.latch_mem_natural hr) y hy
  refine ⟨f, u, hf, hr, ?_, fun y hy => ⟨?_, hin y hy⟩⟩
  · refine List.filter_eq_nil_iff.2 fun e he hb => ?_
    have hmem : e.target ∈ f := List.mem_of_mem_tail (target_mem_tail he)
    exact hg.not_retreats_of_nodup hf hnodup he (hg.onEveryPath_header (hin _ hmem))
      (hg.isBackEdge_iff.1 hb)
  · have hmem : y ∈ q ++ [u] := by
      rw [hsplit]
      exact List.mem_append_right _ (hsub y hy)
    rw [List.append_cons]
    exact List.mem_append_left _ hmem

omit hg in
/-- A path that comes out of a loop has left it. -/
theorem exists_leaving (hp : g.IsPath a p b) (hx : x ∈ p) (hxl : g.Within l x)
    (hb : ¬ g.Within l b) :
    ∃ q u v r, p = q ++ u :: v :: r ∧ g.Within l u ∧ ¬ g.Within l v := by
  obtain ⟨q, r, rfl, -, hfrom⟩ := hp.split hx
  obtain ⟨stretch, after, he, hne, hall, hout⟩ := Shape.IsPath.exists_stretch_from hxl r
  rw [he] at hfrom ⊢
  obtain ⟨stretch, u, rfl⟩ := (stretch.eq_nil_or_concat).resolve_left hne
  rw [List.concat_eq_append] at *
  cases after with
  | nil =>
    rw [List.append_nil] at hfrom
    have hub : u = b := by simpa using hfrom.last
    exact absurd (hall u (by simp)) (hub ▸ hb)
  | cons v after =>
    exact ⟨q ++ stretch, u, v, after, by simp, hall u (by simp), hout v (by simp)⟩

/-- **There is a fair path past the same blocks**, whatever it takes to have gone
round a loop. -/
theorem exists_fair (hcounts : g.Counts Done) (hp : g.IsPath g.entry p b)
    (hb : ∀ l, ¬ g.Within l b)
    (hround : EachStep (fun q u v => ∀ l, constant (g.header l) = true → g.Within l u →
      ¬ g.Within l v → g.RoundOn l q) p) :
    ∃ q, g.Fair constant Done q b ∧ ∀ y ∈ q, y ∈ p := by
  have hrounds : g.RoundsIn constant (· ∈ p) := by
    intro l hl hconst hmem
    obtain ⟨q, u, v, r, hsplit, hu, hv⟩ :=
      exists_leaving hp hmem (hg.within_header hl) (hb l)
    have hon := hround q u v r hsplit l hconst hu hv
    exact hg.exists_round hl hp (hon.mono ⟨[], v :: r, by simp [hsplit]⟩)
  obtain ⟨r, hr, hnodup, hsub⟩ := hp.exists_nodup
  obtain ⟨s, h⟩ := hg.exists_extension hcounts hrounds fair_entry hr
    (hg.backEdgesOn_eq_nil hr hnodup)
    fun y hy => ⟨hsub y hy, fun l hl => absurd hl (hg.not_within_entry l)⟩
  refine ⟨[g.entry] ++ s, h.fair, fun y hy => ?_⟩
  rcases List.mem_append.1 hy with hy | hy
  · rw [List.mem_singleton.1 hy]
    exact List.mem_of_mem_head? (by simp [hp.head])
  · exact h.allowed y hy

end Checked

/-! ### Going round on every stay -/

theorem roundOn_iff : g.RoundOn l q ↔
    ∃ u, [u, g.header l] <:+: q ∧ g.isBackEdge u (g.header l) = true := by
  constructor
  · rintro ⟨⟨u, v⟩, he, rfl⟩
    obtain ⟨he, hb⟩ := List.mem_filter.1 he
    obtain ⟨before, after, rfl⟩ := mem_edgesOn.1 he
    exact ⟨u, ⟨before, after, by simp⟩, hb⟩
  · rintro ⟨u, hinfix, hb⟩
    have he : ⟨u, g.header l⟩ ∈ edgesOn q := mem_edgesOn_mono hinfix List.mem_cons_self
    exact ⟨_, List.mem_filter.2 ⟨he, hb⟩, rfl⟩

/-- A path that goes round on every stay has gone round before it leaves. -/
theorem GoesRound.eachStep (h : g.GoesRound constant p) :
    EachStep (fun q u v => ∀ l, constant (g.header l) = true → g.Within l u →
      ¬ g.Within l v → g.RoundOn l q) p := by
  rintro q u v r rfl l hconst hu hv
  obtain ⟨before, stay, he, hne, hall, hout⟩ := Shape.IsPath.exists_stretch_to hu q
  rw [he]
  have hround := h l hconst before stay (v :: r) (by rw [← he]; simp) hne hall (by simp) hout
    (by simpa using hv)
  exact (roundOn_iff.2 hround).mono (List.suffix_append before stay).isInfix

/-- A path that has gone round on the stay that it ends, whenever it leaves, goes round
on every stay. -/
theorem goesRound_of_eachStep (h : EachStep (fun q u v => ∀ l, constant (g.header l) = true →
    g.Within l u → ¬ g.Within l v → g.RoundOnStay l q) p) : g.GoesRound constant p := by
  intro l hconst xs stay ys hp hne hall hys hxs hout
  rw [← roundOn_iff]
  obtain ⟨stay, u, rfl⟩ := (stay.eq_nil_or_concat).resolve_left hne
  obtain ⟨v, ys, rfl⟩ := List.exists_cons_of_ne_nil hys
  rw [List.concat_eq_append] at *
  obtain ⟨stay', hsuffix, hall', hround⟩ := h (xs ++ stay) u v ys (by simp [hp]) l hconst
    (hall u (by simp)) (hout v (by simp))
  rw [List.append_assoc] at hsuffix
  -- the stay that has gone round does not begin before the other
  rcases List.suffix_or_suffix_of_suffix hsuffix (List.suffix_append xs (stay ++ [u])) with
    hsub | ⟨before, rfl⟩
  · exact hround.mono hsub.isInfix
  · obtain ⟨pre, hpre⟩ := hsuffix
    rw [← List.append_assoc] at hpre
    have hxs' : pre ++ before = xs := List.append_cancel_right hpre
    rcases before.eq_nil_or_concat with rfl | ⟨before, y, rfl⟩
    · exact hround
    · rw [List.concat_eq_append] at *
      exact absurd (hall' y (by simp)) (hxs y (by simp [← hxs']))

end Graph
end ConstantTime
