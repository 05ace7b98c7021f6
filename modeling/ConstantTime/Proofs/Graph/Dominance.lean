/-
# Dominators are the blocks on every path

"Single-Path Constant-Time Transformation Engine", §12.1.

`Ordered.dominates_iff` says that a graph calls a block a dominator of another
exactly if it is on every path to it.  It holds of every graph whose blocks the
entry all reaches, whether or not its loops can be entered past their headers.

The tree of immediate dominators begins with the entry alone, and the way up
from a block is at first too long rather than too short.  Two things are kept
whenever a block is hung anew (`Grown.insert`):

* a block on every path to another is above it (`Grown.complete`), and
* from where a block hangs a path leads to it that passes nothing that stands
  before (`Grown.trail`).

The second is what the first rests on: a block above the one that is hung anew
stands before it, so a path down from there does not pass it again.

In the other direction the sweeps count.  A *setback* is a step of a path that
does not go forward in the order.  After `k` sweeps everything above a block is
on every path to it with fewer than `k` setbacks (`Ordered.sweeping_sweeps`).  A path
that passes no block twice has fewer setbacks than there are blocks, so after
that many sweeps the tree is right (`Ordered.anc_iff_of_sweeping`), and a right tree
is not changed by another sweep (`Ordered.sweep_eq_of_sweeping`).
-/

import ConstantTime.Proofs.Graph.DominatorTree
import ConstantTime.Proofs.Graph.Search

namespace ConstantTime
namespace Graph

open Dominators

/-- How many steps of a path do not go forward in the order. -/
def setbacks (g : Graph) (p : List BlockId) : Nat :=
  (p.zip p.tail).countP fun e => g.place e.2 ≤ g.place e.1

variable {g : Graph} {idom : ImmediateDominators} {a b d u v x : BlockId} {p q : List BlockId}

theorem setbacks_snoc (hp : p.getLast? = some u) :
    g.setbacks (p ++ [v]) = g.setbacks p + if g.place v ≤ g.place u then 1 else 0 := by
  induction p with
  | nil => cases hp
  | cons w p ih =>
    cases p with
    | nil =>
      obtain rfl : w = u := by simpa using hp
      simp [setbacks, List.countP_cons]
    | cons c p =>
      rw [List.getLast?_cons_cons] at hp
      have := ih hp
      simp only [setbacks, List.cons_append, List.tail_cons, List.zip_cons_cons,
        List.countP_cons] at this ⊢
      omega

theorem setbacks_lt_length (hp : p ≠ []) : g.setbacks p < p.length := by
  have h₁ := List.countP_le_length (p := fun e : BlockId × BlockId => decide (g.place e.2 ≤ g.place e.1))
    (l := p.zip p.tail)
  have h₂ := List.length_pos_iff.2 hp
  rw [List.length_zip, List.length_tail] at h₁
  unfold setbacks
  omega

theorem setbacks_le_append (p q : List BlockId) : g.setbacks p ≤ g.setbacks (p ++ q) := by
  induction q using List.reverseRecOn with
  | nil => simp
  | append_singleton q v ih =>
    rw [← List.append_assoc]
    rcases (p ++ q).eq_nil_or_concat' with he | ⟨r, u, he⟩
    · obtain ⟨rfl, rfl⟩ := List.append_eq_nil_iff.1 he
      simp [setbacks]
    · rw [setbacks_snoc (u := u) (by rw [he, List.getLast?_concat])]
      omega

/-! ### What every update keeps -/

/-- A tree in which nothing that is on every path to a block is missing above
it. -/
structure Grown (g : Graph) (idom : ImmediateDominators) : Prop
    extends Rooted g.toShape g.place idom where
  get?_entry : idom.get? g.entry = some g.entry
  trail : ∀ {b d}, Up g.toShape idom b d →
    ∃ p, g.IsPath d p b ∧ ∀ x ∈ p, g.place d ≤ g.place x
  complete : ∀ {a b}, idom.contains b = true → g.OnEveryPath a b → Anc g.toShape idom a b

/-- From an ancestor a path leads down that passes nothing that stands before. -/
theorem Grown.exists_trail (h : g.Grown idom) (ha : Anc g.toShape idom a b) :
    ∃ p, g.IsPath a p b ∧ ∀ x ∈ p, g.place a ≤ g.place x := by
  induction ha with
  | refl => exact ⟨[b], .single b, by simp⟩
  | @tail c d hanc hup ih =>
    obtain ⟨p, hp, hle⟩ := ih
    obtain ⟨q, hq, hle'⟩ := h.trail hup
    have hdc := hle' c hq.last_mem
    refine ⟨q ++ p.tail, hq.append hp, fun x hx => ?_⟩
    rcases List.mem_append.1 hx with hx | hx
    · exact hle' x hx
    · exact hdc.trans (hle x (List.mem_of_mem_tail hx))

/-- What is on every path to a block, and not the block, is on every path to its
predecessors. -/
theorem onEveryPath_pred (h : g.OnEveryPath a b) (hne : a ≠ b) (hs : b ∈ g.succs u) :
    g.OnEveryPath a u := by
  intro p hp
  have := h _ (hp.snoc hs)
  rw [List.mem_append, List.mem_singleton] at this
  exact this.resolve_right hne

/-- What is on every path to a block is above the place where it is hung. -/
theorem Grown.anc_hung (h : g.Grown idom) (hd : g.Hung idom b d) (hbe : b ≠ g.entry)
    (hpath : g.OnEveryPath a b) : Anc g.toShape (idom.insert b d) a b := by
  by_cases hab : a = b
  · subst hab
    exact .refl
  · have hnear := hd.nearest a fun u hs hu => h.complete hu (onEveryPath_pred hpath hab hs)
    refine .head ⟨hbe, by rw [OrderedMap.get?_insert, if_pos rfl]⟩ ?_
    exact (h.anc_insert_iff hd.contains hd.place_lt).2 hnear

/-- **Hanging a block keeps the tree complete.** -/
theorem Grown.insert (h : g.Grown idom) (hd : g.Hung idom b d) (hb : b ∈ g.ids)
    (hbe : b ≠ g.entry) (hs : b ∈ g.succs u) (hlt : g.place u < g.place b)
    (hu : idom.contains u = true) : g.Grown (idom.insert b d) where
  toRooted := h.toRooted.insert hb hd.contains hd.place_lt
  get?_entry := by rw [OrderedMap.get?_insert, if_neg (Ne.symm hbe), h.get?_entry]
  trail {x y} hup := by
    obtain ⟨hxe, hx⟩ := hup
    rw [OrderedMap.get?_insert] at hx
    split at hx
    · next hxb =>
      cases hx
      subst hxb
      have hanc := hd.anc u hs hu
      obtain ⟨p, hp, hle⟩ := h.exists_trail hanc
      refine ⟨p ++ [x], hp.snoc hs, fun y hy => ?_⟩
      rcases List.mem_append.1 hy with hy | hy
      · exact hle y hy
      · rw [List.mem_singleton.1 hy]
        exact hd.place_lt.le
    · exact h.trail ⟨hxe, hx⟩
  complete {a x} hx hpath := by
    by_cases hxb : x = b
    · subst hxb
      exact h.anc_hung hd hbe hpath
    · have hin : idom.contains x = true := (OrderedMap.contains_insert.1 hx).resolve_left hxb
      rcases Rooted.anc_insert_or (b := b) (d := d) (h.complete hin hpath) with
        hanc | ⟨hab, hanc, hbx, hbx'⟩
      · exact hanc
      -- `a` is above the block that is hung anew, so the way down from there misses it
      obtain ⟨q, hq, hle⟩ := h.exists_trail hbx
      have hab' := h.place_lt_of_anc hanc hab
      have hpath' : g.OnEveryPath a b := by
        intro p hp
        rcases List.mem_append.1 (hpath _ (hp.append hq)) with hmem | hmem
        · exact hmem
        · exact absurd (hle a (List.mem_of_mem_tail hmem)) (Nat.not_le.2 hab')
      exact Relation.ReflTransGen.trans hbx' (h.anc_hung hd hbe hpath')

theorem grown_start (hentry : g.entry ∈ g.ids) :
    g.Grown ((∅ : ImmediateDominators).insert g.entry g.entry) where
  entry := OrderedMap.contains_insert.2 (.inl rfl)
  isBlock {b d} h := by
    rw [OrderedMap.get?_insert] at h
    split at h
    · next hb => rw [hb]; exact hentry
    · simp at h
  above {b d} hup := by
    have := hup.2
    rw [OrderedMap.get?_insert, if_neg hup.1] at this
    simp at this
  get?_entry := by rw [OrderedMap.get?_insert, if_pos rfl]
  trail {b d} hup := by
    have := hup.2
    rw [OrderedMap.get?_insert, if_neg hup.1] at this
    simp at this
  complete {a b} hb hpath := by
    obtain rfl : b = g.entry := by
      rcases OrderedMap.contains_insert.1 hb with hb | hb
      · exact hb
      · simp [OrderedMap.contains] at hb
    obtain rfl : a = g.entry := by simpa using hpath _ (.single g.entry)
    exact .refl

/-! ### What every sweep gains -/

/-- Everything above `b` is on every path to `b` with fewer than `k` setbacks. -/
def Tight (g : Graph) (k : Nat) (idom : ImmediateDominators) (b : BlockId) : Prop :=
  ∀ a, Anc g.toShape idom a b → ∀ p, g.IsPath g.entry p b → g.setbacks p < k → a ∈ p

/-- Sweep `k` has come past the blocks of `done`. -/
structure Sweeping (g : Graph) (k : Nat) (done : List BlockId) (idom : ImmediateDominators) : Prop
    extends Grown g idom where
  contains : ∀ x ∈ done, idom.contains x = true
  full : 0 < k → ∀ x ∈ g.ids, idom.contains x = true
  tight : ∀ x, g.Tight k idom x
  tighter : ∀ x ∈ done, g.Tight (k + 1) idom x

/-- What is above a block after it was hung is on a path to it, if what was above
the block that the path comes from is on the path. -/
theorem Hung.mem_path (h : g.Grown idom) (hd : g.Hung idom b d) (hbe : b ≠ g.entry)
    (ha : Anc g.toShape (idom.insert b d) a b) (hp : g.IsPath g.entry p b)
    (hstep : ∀ w q, p = q ++ [b] → g.IsPath g.entry q w → b ∈ g.succs w →
      idom.contains w = true ∧ (Anc g.toShape idom a w → a ∈ q)) : a ∈ p := by
  by_cases hab : a = b
  · rw [hab]
    exact hp.last_mem
  have hup : Up g.toShape (idom.insert b d) b d :=
    ⟨hbe, by rw [OrderedMap.get?_insert, if_pos rfl]⟩
  have had := (h.anc_insert_iff hd.contains hd.place_lt).1 (ha.of_up hab hup)
  rcases hp.eq_single_or_snoc with ⟨-, he⟩ | ⟨w, q, rfl, hs, hq⟩
  · exact absurd he.symm hbe
  · obtain ⟨hw, hmem⟩ := hstep w q rfl hq hs
    exact List.mem_append_left _ (hmem (Relation.ReflTransGen.trans (hd.anc w hs hw) had))

/-- **One update of a sweep.**  All that stands before the block has been swept. -/
theorem Sweeping.insert {k : Nat} {done : List BlockId} (h : g.Sweeping k done idom)
    (hdone : ∀ x, x ∈ done ↔ x ∈ g.ids ∧ g.place x < g.place b) (hd : g.Hung idom b d)
    (hb : b ∈ g.ids) (hbe : b ≠ g.entry) (hs : b ∈ g.succs u) (hlt : g.place u < g.place b) :
    g.Sweeping k (done ++ [b]) (idom.insert b d) := by
  have hu := h.contains u ((hdone u).2 ⟨Shape.mem_ids_of_mem_succs hs, hlt⟩)
  have htight : g.Tight k (idom.insert b d) b := by
    intro a ha p hp hk
    refine hd.mem_path h.toGrown hbe ha hp fun w q hpq hq hs => ?_
    subst hpq
    have := setbacks_le_append (g := g) q [b]
    exact ⟨h.full (by omega) w (Shape.mem_ids_of_mem_succs hs),
      fun haw => h.tight w a haw q hq (by omega)⟩
  refine ⟨h.toGrown.insert hd hb hbe hs hlt hu, fun x hx => ?_, fun hk x hx => ?_,
    fun x a ha p hp hk => ?_, fun x hx a ha p hp hk => ?_⟩
  · rw [OrderedMap.contains_insert]
    rcases List.mem_append.1 hx with hx | hx
    · exact .inr (h.contains x hx)
    · exact .inl (List.mem_singleton.1 hx)
  · exact OrderedMap.contains_insert.2 (.inr (h.full hk x hx))
  · rcases Rooted.anc_or_of_insert ha with ha | ⟨hbx, hab⟩
    · exact h.tight x a ha p hp hk
    · -- the path passes the block that was hung anew
      obtain ⟨q, r, rfl, hq, -⟩ := hp.split (h.tight x b hbx p hp hk)
      have hsplit : q ++ b :: r = (q ++ [b]) ++ r := by simp
      have := setbacks_le_append (g := g) (q ++ [b]) r
      rw [hsplit] at hk ⊢
      exact List.mem_append_left _ (htight a hab _ hq (by omega))
  · rcases List.mem_append.1 hx with hx | hx
    · have hlt := ((hdone x).1 hx).2
      exact h.tighter x hx a ((h.anc_insert_iff (h.contains x hx) hlt).1 ha) p hp hk
    obtain rfl := List.mem_singleton.1 hx
    refine hd.mem_path h.toGrown hbe ha hp fun w q hpq hq hs => ?_
    subst hpq
    rw [setbacks_snoc hq.last] at hk
    have hw := Shape.mem_ids_of_mem_succs hs
    by_cases hback : g.place x ≤ g.place w
    · rw [if_pos hback] at hk
      exact ⟨h.full (by omega) w hw, fun haw => h.tight w a haw q hq (by omega)⟩
    · have hmem := (hdone w).2 ⟨hw, by omega⟩
      rw [if_neg hback] at hk
      exact ⟨h.contains w hmem, fun haw => h.tighter w hmem a haw q hq (by omega)⟩

namespace Ordered

variable (hg : g.Ordered)
include hg

theorem sweeping_update {k : Nat} {done : List BlockId} (h : g.Sweeping k done idom)
    (hb : b ∈ g.ids) (hdone : ∀ x, x ∈ done ↔ x ∈ g.ids ∧ g.place x < g.place b) :
    g.Sweeping k (done ++ [b]) (update g.toShape g.place idom b) := by
  by_cases hbe : b = g.entry
  · subst hbe
    rw [update, if_pos rfl]
    refine ⟨h.toGrown, fun x hx => ?_, h.full, h.tight, fun x hx => ?_⟩
    · rcases List.mem_append.1 hx with hx | hx
      · exact h.contains x hx
      · rw [List.mem_singleton.1 hx]
        exact h.entry
    · rcases List.mem_append.1 hx with hx | hx
      · exact h.tighter x hx
      · -- nothing is above the entry
        intro a ha p hp _
        rw [List.mem_singleton.1 hx] at ha
        rcases Relation.ReflTransGen.cases_head ha with rfl | ⟨d, hup, -⟩
        · exact List.mem_of_mem_head? hp.head
        · exact absurd rfl hup.1
  · obtain ⟨u, hs, hlt⟩ := hg.exists_pred_before hb hbe
    have hu := h.contains u ((hdone u).2 ⟨Shape.mem_ids_of_mem_succs hs, hlt⟩)
    obtain ⟨d, he, hd⟩ := hg.exists_hung h.toRooted hbe hs hlt hu
    rw [he]
    exact h.insert hdone hd hb hbe hs hlt

/-- The blocks that a sweep has come past. -/
theorem mem_done_iff {done rest : List BlockId} (he : done ++ b :: rest = g.order) :
    x ∈ done ↔ x ∈ g.ids ∧ g.place x < g.place b := by
  have hnd := hg.nodup_order
  constructor
  · intro hx
    refine ⟨hg.mem_order_iff.1 (by rw [← he]; simp [hx]), place_lt_of_sublist hnd ?_⟩
    rw [← he]
    exact (List.singleton_sublist.2 hx).append ((List.nil_sublist rest).cons_cons b)
  · rintro ⟨hx, hlt⟩
    have hmem := hg.mem_order x hx
    rw [← he, List.mem_append, List.mem_cons] at hmem
    rcases hmem with hx | rfl | hx
    · exact hx
    · omega
    · have hle := place_lt_of_sublist hnd (u := b) (v := x) (by
        rw [← he]
        exact ((List.singleton_sublist.2 hx).cons_cons b).trans (List.sublist_append_right _ _))
      unfold Graph.place at hlt
      omega

/-- **A part of a sweep.** -/
theorem sweeping_foldl {k : Nat} (h : g.Sweeping k [] idom) {done rest : List BlockId}
    (he : done ++ rest = g.order) :
    g.Sweeping k done (done.foldl (update g.toShape g.place) idom) := by
  induction done using List.reverseRecOn generalizing rest with
  | nil => exact h
  | append_singleton done b ih =>
    rw [List.append_assoc] at he
    rw [List.foldl_append]
    have hb : b ∈ g.ids := hg.mem_order_iff.1 (by rw [← he]; simp)
    exact hg.sweeping_update (ih he) hb fun x => hg.mem_done_iff he

/-- **A whole sweep.** -/
theorem sweeping_sweep {k : Nat} (h : g.Sweeping k [] idom) :
    g.Sweeping (k + 1) [] (sweep g.toShape g.order g.place idom) := by
  have h' := hg.sweeping_foldl h (List.append_nil g.order)
  refine ⟨h'.toGrown, by simp, fun _ x hx => h'.contains x (hg.mem_order x hx), fun x => ?_, by simp⟩
  by_cases hx : x ∈ g.ids
  · exact h'.tighter x (hg.mem_order x hx)
  · -- no path leads there
    intro a _ p hp _
    exact absurd (hp.mem_ids hg.wellFormed hg.entry_mem x hp.last_mem) hx

/-- **After `k` sweeps.** -/
theorem sweeping_sweeps (k : Nat) : g.Sweeping k []
    ((sweep g.toShape g.order g.place)^[k] ((∅ : ImmediateDominators).insert g.entry g.entry)) := by
  induction k with
  | zero => exact ⟨grown_start hg.entry_mem, by simp, by simp, fun x a _ p _ hk => by omega, by simp⟩
  | succ k ih =>
    rw [Function.iterate_succ_apply']
    exact hg.sweeping_sweep ih

/-! ### A tree that is right -/

/-- **After as many sweeps as there are blocks the tree is right.** -/
theorem anc_iff_of_sweeping {k : Nat} (h : g.Sweeping k [] idom) (hk : g.size ≤ k)
    (hb : b ∈ g.ids) : Anc g.toShape idom a b ↔ g.OnEveryPath a b := by
  have hpos := hg.size_pos
  refine ⟨fun ha p hp => ?_, h.complete (h.full (by omega) b hb)⟩
  obtain ⟨q, hq, hnd, hsub⟩ := hp.exists_nodup
  have hlen := hnd.length_le_of_subset fun x hx =>
    hq.mem_ids hg.wellFormed hg.entry_mem x hx
  rw [Shape.length_ids] at hlen
  have hlt := setbacks_lt_length (g := g) hq.ne_nil
  exact hsub a (h.tight b a ha q hq (by omega))

/-- **A tree that is right does not change.** -/
theorem sweep_eq_of_sweeping {k : Nat} (h : g.Sweeping k [] idom) (hk : g.size ≤ k) :
    sweep g.toShape g.order g.place idom = idom := by
  have h' := hg.sweeping_sweep h
  have hpos := hg.size_pos
  refine OrderedMap.ext fun b => ?_
  by_cases hb : b ∈ g.ids
  · by_cases hbe : b = g.entry
    · rw [hbe, h.get?_entry, h'.get?_entry]
    obtain ⟨d, hd⟩ := OrderedMap.contains_iff.1 (h.full (by omega) b hb)
    obtain ⟨d', hd'⟩ := OrderedMap.contains_iff.1 (h'.full (by omega) b hb)
    have hup : Up g.toShape idom b d := ⟨hbe, hd⟩
    have hup' : Up g.toShape _ b d' := ⟨hbe, hd'⟩
    obtain ⟨hlt, hin⟩ := h.above hup
    obtain ⟨hlt', hin'⟩ := h'.above hup'
    -- each of the two blocks that `b` hangs from is on every path to it, so above the other
    have hpath := (hg.anc_iff_of_sweeping h hk hb).1 (.single hup)
    have hpath' := (hg.anc_iff_of_sweeping h' (by omega) hb).1 (.single hup')
    have h₁ : Anc g.toShape idom d' d :=
      Anc.of_up ((hg.anc_iff_of_sweeping h hk hb).2 hpath') (by rintro rfl; omega) hup
    have h₂ : Anc g.toShape _ d d' :=
      Anc.of_up ((hg.anc_iff_of_sweeping h' (by omega) hb).2 hpath) (by rintro rfl; omega) hup'
    have hle := (h.anc_contains hin h₁).2
    have hle' := (h'.anc_contains hin' h₂).2
    rw [hd, hd', hg.place_inj (h.mem_ids hin) (h'.mem_ids hin') (Nat.le_antisymm hle' hle)]
  · have hnone : ∀ T, Rooted g.toShape g.place T → T.get? b = none := fun T hT => by
      cases hget : T.get? b with
      | none => rfl
      | some d => exact absurd (hT.isBlock hget) hb
    rw [hnone _ h.toRooted, hnone _ h'.toRooted]

omit hg in
/-- Sweeping until nothing changes is sweeping as often as allowed. -/
theorem iterate_eq (s : Shape) (order : List BlockId) (place : BlockId → Nat) (fuel : Nat)
    (idom : ImmediateDominators) :
    iterate s order place fuel idom = (sweep s order place)^[fuel] idom := by
  induction fuel generalizing idom with
  | zero => rfl
  | succ fuel ih =>
    rw [Function.iterate_succ_apply, iterate]
    split
    · next he => rw [he, Function.iterate_fixed he]
    · exact ih _

/-- **The immediate dominators are what as many sweeps find as there are blocks**,
and another sweep would not change them. -/
theorem idom_eq_sweeps :
    g.idom = (sweep g.toShape g.order g.place)^[g.size]
      ((∅ : ImmediateDominators).insert g.entry g.entry) ∧
      sweep g.toShape g.order g.place g.idom = g.idom := by
  have hfix := hg.sweep_eq_of_sweeping (hg.sweeping_sweeps g.size) (Nat.le_refl _)
  have hle : g.size ≤ g.size * g.size + 1 := (Nat.le_mul_self g.size).trans (Nat.le_succ _)
  have he : g.idom = (sweep g.toShape g.order g.place)^[g.size]
      ((∅ : ImmediateDominators).insert g.entry g.entry) := by
    rw [hg.idom_eq, Dominators.immediate, iterate_eq]
    obtain ⟨n, hn⟩ := Nat.exists_eq_add_of_le hle
    rw [hn, Nat.add_comm, Function.iterate_add_apply]
    exact Function.iterate_fixed hfix n
  exact ⟨he, by rw [he]; exact hfix⟩

theorem sweeping_idom : g.Sweeping g.size [] g.idom := by
  rw [hg.idom_eq_sweeps.1]
  exact hg.sweeping_sweeps g.size

/-- **What is above a block is on every path to it, and nothing else.** -/
theorem anc_iff (hb : b ∈ g.ids) : Anc g.toShape g.idom a b ↔ g.OnEveryPath a b :=
  hg.anc_iff_of_sweeping hg.sweeping_idom (Nat.le_refl _) hb

theorem dominates_iff (hb : b ∈ g.ids) : g.dominates a b = true ↔ g.OnEveryPath a b := by
  have h := hg.sweeping_idom
  rw [← hg.anc_iff hb]
  refine ⟨anc_of_isAncestor, fun ha => ?_⟩
  have hlt := hg.place_lt_size hb
  exact h.isAncestor_of_anc (h.full hg.size_pos b hb) ha (by omega)

end Ordered

/-! ### Backward edges -/

/-- In an accepted graph the target of an edge that goes backward is on every path
to its source. -/
theorem Checked.onEveryPath_of_retreating (hg : g.Checked) (hs : v ∈ g.succs u)
    (hle : g.place v ≤ g.place u) : g.OnEveryPath v u := by
  have hl := hg.loops_eq
  unfold Loops.ofShape at hl
  dsimp only at hl
  split at hl
  · cases hl
  · next hnone =>
    have hu := Shape.mem_ids_of_mem_succs hs
    have hmem : (⟨u, v⟩ : FlowEdge) ∈ Loops.retreating g.toShape g.order := by
      unfold Loops.retreating
      dsimp only
      refine List.mem_flatMap.2 ⟨u, hg.mem_order u hu,
        List.mem_map.2 ⟨v, List.mem_filter.2 ⟨hs, ?_⟩, rfl⟩⟩
      simpa [Graph.place] using hle
    have := List.find?_eq_none.1 hnone _ hmem
    exact (hg.anc_iff hu).1 (anc_of_isAncestor (by simpa using this))

end Graph

/-! ### Graphs whose loops have not been looked for -/

namespace Shape

open Dominators

/-- The place of a block in the reverse postorder. -/
def place (s : Shape) (b : BlockId) : Nat := (placesOf s.reversePostorder).getD b 0

/-- The immediate dominators after some sweeps, and the part `done` of another. -/
def dominatorsAfter (s : Shape) (sweeps : Nat) (done : List BlockId) : ImmediateDominators :=
  done.foldl (update s s.place)
    ((sweep s s.reversePostorder s.place)^[sweeps]
      ((∅ : ImmediateDominators).insert s.entry s.entry))

/-- A shape with its order and its dominators only. -/
def ordered (s : Shape) : Graph :=
  { s with
    order := s.reversePostorder
    idom := Dominators.immediate s s.reversePostorder
    loops := []
    innermost := ∅ }

theorem ordered_ordered {s : Shape} (hs : s.WellFormed) (hpos : 0 < s.size)
    (hreach : ∀ b ∈ s.ids, ∃ p, s.IsPath s.entry p b) : s.ordered.Ordered where
  wellFormed := hs
  size_pos := hpos
  order_eq := rfl
  mem_order b hb := by
    obtain ⟨p, hp⟩ := hreach b hb
    have hentry : s.entry ∈ s.ids := mem_ids.2 ⟨Int.le_refl 0, Int.natCast_pos.2 hpos⟩
    exact mem_reversePostorder hs hentry hp
  idom_eq := rfl

end Shape

/-- **Dominators, exactly.**  A graph calls a block a dominator of another if and
only if it is on every path from the entry to it.  The sweeps that find the
dominators come to a standstill for every graph whose blocks the entry all
reaches, and so does, at each stage of each sweep, the walk of two fingers from
any blocks of the tree. -/
theorem dominates_iff_onEveryPath :
    (∀ g : Graph, g.Accepted → ∀ a b, b ∈ g.ids → (g.dominates a b = true ↔ g.OnEveryPath a b)) ∧
      ∀ s : Shape, s.WellFormed → 0 < s.size → (∀ b ∈ s.ids, ∃ p, s.IsPath s.entry p b) →
        (∃ k, s.dominatorsAfter (k + 1) [] = s.dominatorsAfter k [] ∧
          Dominators.immediate s s.reversePostorder = s.dominatorsAfter k []) ∧
        ∀ k done, done <+: s.reversePostorder → ∀ a c,
          (s.dominatorsAfter k done).contains a = true →
          (s.dominatorsAfter k done).contains c = true →
          Dominators.Fingers s.place (s.dominatorsAfter k done) a c
            (Dominators.meet s.place (s.dominatorsAfter k done) (2 * s.size) a c) := by
  refine ⟨fun g hg a b hb => hg.checked.dominates_iff hb, fun s hs hpos hreach => ?_⟩
  have hg := Shape.ordered_ordered hs hpos hreach
  obtain ⟨he, hfix⟩ := hg.idom_eq_sweeps
  refine ⟨⟨s.size, ?_, he⟩, fun k done ⟨rest, hdone⟩ a c ha hc => ?_⟩
  · rw [Shape.dominatorsAfter, List.foldl_nil, Function.iterate_succ_apply']
    rwa [he] at hfix
  · exact hg.fingers_meet (hg.sweeping_foldl (hg.sweeping_sweeps k) hdone).toRooted ha hc

/-- Two ways to the last block. -/
def Graph.forked : Graph := Graph.drawn 4 [(0, 1), (0, 2), (1, 3), (2, 3)] (by decide +kernel)

/-- A loop of two blocks that is entered at both. -/
def Shape.twoEntries : Shape :=
  ((Builder.new "f").run
    [.newBlocks 3, .addEdge 0 1, .addEdge 0 2, .addEdge 1 2, .addEdge 2 1]).draft

/-- Neither way round is on every path, and the sweeps end also where a loop is
entered at two blocks. -/
theorem dominates_iff_onEveryPath_forked :
    (Graph.forked.OnEveryPath 0 3 ∧ ¬ Graph.forked.OnEveryPath 1 3) ∧
      ∃ k, Shape.twoEntries.dominatorsAfter (k + 1) [] = Shape.twoEntries.dominatorsAfter k [] := by
  obtain ⟨hexact, hends⟩ := dominates_iff_onEveryPath
  have hg : Graph.forked.Accepted := Graph.accepted_drawn _
  have hid : (3 : BlockId) ∈ Graph.forked.ids := by decide +kernel
  have hreach : ∀ b ∈ Shape.twoEntries.ids,
      ∃ p, Shape.twoEntries.IsPath Shape.twoEntries.entry p b := by
    have hids : Shape.twoEntries.ids = [0, 1, 2] := by decide +kernel
    rw [hids]
    intro b hb
    simp only [List.mem_cons, List.not_mem_nil, or_false] at hb
    rcases hb with rfl | rfl | rfl
    · exact ⟨[0], .single 0⟩
    · exact ⟨[0, 1], by decide +kernel, rfl, rfl⟩
    · exact ⟨[0, 2], by decide +kernel, rfl, rfl⟩
  refine ⟨⟨(hexact _ hg 0 3 hid).1 (by decide +kernel), fun h => ?_⟩, ?_⟩
  · have := (hexact _ hg 1 3 hid).2 h
    revert this
    decide +kernel
  · obtain ⟨⟨k, hk, -⟩, -⟩ := hends Shape.twoEntries
      (Builder.wellFormed_run (Builder.wellFormed_nil "f") _) (by decide +kernel) hreach
    exact ⟨k, hk⟩

end ConstantTime
