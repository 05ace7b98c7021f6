/-
# Reachability inside a region is exact

The rows of a region are filled in one after another, each from the rows of its
successors.  Seen from any block a graph has no cycle, so the search that lists the
blocks finishes each after all that it leads to (`Reachability.afterAllNext_postorder`).
A row is therefore never read before it has been filled in: filling rows in under that
condition (`Reachability.ofStart?`) does not fail and gives the same rows.

By induction on the list the row of a block then holds what paths along the edges lead
to, and nothing else (`Reachability.mem_rowsOf`).
-/

import ConstantTime.Proofs.Dominance.Reach
import ConstantTime.Proofs.Postdominance.Edges

namespace ConstantTime

open Relation (ReflTransGen TransGen)

/-! ### Trails -/

namespace Trail

variable {next : BlockId → List BlockId} {a b d : BlockId} {p q : List BlockId}

theorem reflTransGen (hp : Trail next a p b) : ReflTransGen (fun u v => v ∈ next u) a b :=
  hp.induction (P := fun x => ReflTransGen (fun u v => v ∈ next u) a x)
    (fun _ _ hu hs => hu.tail hs) .refl

theorem exists_of_reflTransGen (h : ReflTransGen (fun u v => v ∈ next u) a b) :
    ∃ q, Trail next a (a :: q) b := by
  induction h using ReflTransGen.head_induction_on with
  | refl => exact ⟨[], .single b⟩
  | head hs _ ih =>
    obtain ⟨q, hq⟩ := ih
    exact ⟨_, hq.cons hs⟩

/-- A trail goes on along another. -/
theorem append (hp : Trail next a p b) (hq : Trail next b (b :: q) d) :
    Trail next a (p ++ q) d := by
  induction p generalizing a with
  | nil => exact absurd hp.head (by simp)
  | cons w p ih =>
    rcases hp.eq_single_or_cons with ⟨he, rfl⟩ | ⟨v, p', he, hv, hp'⟩
    · rw [he]
      exact hq
    · obtain ⟨rfl, rfl⟩ := List.cons.inj he
      exact (ih hp').cons hv

theorem exists_of_transGen (h : TransGen (fun u v => v ∈ next u) a b) :
    ∃ q, Trail next a (a :: q ++ [b]) b := by
  obtain ⟨c, hac, hcb⟩ := TransGen.tail'_iff.1 h
  obtain ⟨q, hq⟩ := exists_of_reflTransGen hac
  exact ⟨q, hq.append ((single b).cons hcb)⟩

/-- A trail is cut at one of its later blocks. -/
theorem transGen_of_append (hp : Trail next a (a :: p ++ d :: q) b) :
    TransGen (fun u v => v ∈ next u) a d ∧ Trail next d (d :: q) b := by
  induction p generalizing a with
  | nil =>
    rcases hp.eq_single_or_cons with ⟨he, -⟩ | ⟨v, p', he, hv, hp'⟩
    · simp at he
    · obtain rfl : d :: q = p' := by simpa using he
      obtain rfl : d = v := by simpa using hp'.head
      exact ⟨.single hv, hp'⟩
  | cons w p ih =>
    rcases hp.eq_single_or_cons with ⟨he, -⟩ | ⟨v, p', he, hv, hp'⟩
    · simp at he
    · obtain rfl : w :: p ++ d :: q = p' := by simpa using he
      obtain rfl : w = v := by simpa using hp'.head
      exact (ih hp').imp_left (.head hv)

/-- What is strictly inside some trail is reached in one step or more, and has one step or
more to go. -/
theorem exists_through_iff : (∃ q r, Trail next a (a :: q ++ d :: r ++ [b]) b) ↔
    TransGen (fun u v => v ∈ next u) a d ∧ TransGen (fun u v => v ∈ next u) d b := by
  constructor
  · rintro ⟨q, r, hp⟩
    rw [List.append_assoc, List.cons_append] at hp
    obtain ⟨had, hrest⟩ := hp.transGen_of_append
    exact ⟨had, hrest.transGen_of_append.1⟩
  · rintro ⟨had, hdb⟩
    obtain ⟨q, hq⟩ := exists_of_transGen had
    obtain ⟨r, hr⟩ := exists_of_transGen hdb
    exact ⟨q, r, by simpa using hq.append hr⟩

end Trail

/-! ### Rows filled in one after another -/

namespace Reachability

variable {next : BlockId → List BlockId} {rows : DominatorTable} {done : List BlockId}
  {a b s x : BlockId}

/-- The rows when the blocks of a list have been treated, in their order. -/
def rowsOf (next : BlockId → List BlockId) (done : List BlockId) : DominatorTable :=
  done.foldl (fun rows b => rows.insert b (row next rows b)) ∅

/-- The row of a block, if the rows of all its successors have been filled in. -/
def row? (next : BlockId → List BlockId) (rows : DominatorTable) (b : BlockId) :
    Option BlockSet :=
  (next b).foldlM (fun r s => (rows.get? s).map r.union) (.singleton b)

/-- Reachability in the region of a start block, if no row is read before it has been
filled in. -/
def ofStart? (g : Graph) (start : BlockId) : Option Reachability :=
  ((postorder g start).foldlM (fun rows b =>
    (row? (g.regionSuccs · start) rows b).map (rows.insert b)) ∅).map .mk

/-- Every block of the list comes after all that it leads to. -/
def AfterAllNext (next : BlockId → List BlockId) (done : List BlockId) : Prop :=
  ∀ before b after, done = before ++ b :: after → ∀ s ∈ next b, s ∈ before

/-- What follows an element in a list without repetition stands behind its place. -/
theorem mem_of_sublist_middle {l r : List BlockId} (hnd : (l ++ b :: r).Nodup)
    (hsub : [b, s].Sublist (l ++ b :: r)) : s ∈ r := by
  obtain ⟨hfront, hback⟩ : b ∉ l ∧ b ∉ r := by
    simpa using (List.nodup_cons.1 (List.nodup_middle.1 hnd)).1
  obtain ⟨front, back, he, hl, hr⟩ := List.sublist_append_iff.1 hsub
  rcases front with _ | ⟨c, front⟩
  · rw [List.nil_append] at he
    subst he
    rcases List.sublist_cons_iff.1 hr with hr | ⟨rest, he, hr⟩
    · exact absurd (hr.subset List.mem_cons_self) hback
    · obtain ⟨-, rfl⟩ := List.cons.inj he
      exact hr.subset List.mem_cons_self
  · obtain ⟨rfl, -⟩ := List.cons.inj he
    exact absurd (hl.subset List.mem_cons_self) hfront

theorem AfterAllNext.of_append {rest : List BlockId} (h : AfterAllNext next (done ++ rest)) :
    AfterAllNext next done := fun before b after he s hs =>
  h before b (after ++ rest) (by simp [he]) s hs

theorem rowsOf_snoc : rowsOf next (done ++ [b]) =
    (rowsOf next done).insert b (row next (rowsOf next done) b) := by
  rw [rowsOf, List.foldl_append]
  rfl

theorem exists_get?_rowsOf : (∃ r, (rowsOf next done).get? a = some r) ↔ a ∈ done := by
  induction done using List.reverseRecOn with
  | nil => simp [rowsOf]
  | append_singleton done b ih =>
    rw [rowsOf_snoc, OrderedMap.get?_insert, List.mem_append, List.mem_singleton]
    split
    · next he => simp [he]
    · next hne => rw [ih, or_iff_left hne]

theorem of_rowsOf_of_notMem (ha : a ∉ done) : (rowsOf next done).of a = ∅ := by
  refine OrderedSet.ext fun x => iff_of_false (fun hx => ha ?_) OrderedSet.not_mem_empty
  obtain ⟨r, hr, -⟩ := DominatorTable.mem_of.1 hx
  exact exists_get?_rowsOf.1 ⟨r, hr⟩

/-- **The row of a block** holds what paths lead to. -/
theorem mem_rowsOf (h : AfterAllNext next done) (ha : a ∈ done) :
    x ∈ (rowsOf next done).of a ↔ ReflTransGen (fun u v => v ∈ next u) a x := by
  induction done using List.reverseRecOn generalizing a with
  | nil => cases ha
  | append_singleton done b ih =>
    rw [rowsOf_snoc, of_insert]
    split
    · next he =>
      subst he
      have hsucc : ∀ s ∈ next a, s ∈ done := h done a [] rfl
      rw [mem_row, ReflTransGen.cases_head_iff, eq_comm]
      refine or_congr_right (exists_congr fun s => and_congr_right fun hs => ?_)
      exact ih h.of_append (hsucc s hs)
    · next hne =>
      exact ih h.of_append ((List.mem_append.1 ha).resolve_right (by simpa using hne))

/-- A row can be filled in once those of the successors are. -/
theorem row?_eq (h : ∀ s ∈ next b, ∃ r, rows.get? s = some r) :
    row? next rows b = some (row next rows b) := by
  have key : ∀ (l : List BlockId) (r : BlockSet), (∀ s ∈ l, ∃ r, rows.get? s = some r) →
      l.foldlM (fun r s => (rows.get? s).map r.union) r =
        some (l.foldl (fun r s => r.union (rows.of s)) r) := by
    intro l
    induction l with
    | nil => exact fun _ _ => rfl
    | cons s l ih =>
      intro r hl
      obtain ⟨r', hr'⟩ := hl s List.mem_cons_self
      have hof : rows.of s = r' := by rw [DominatorTable.of, OrderedMap.getD, hr']; rfl
      rw [List.foldlM_cons, hr', List.foldl_cons, hof]
      exact ih _ fun t ht => hl t (List.mem_cons_of_mem _ ht)
  exact key _ _ h

/-- No row is read too early. -/
theorem foldlM_row? (h : AfterAllNext next done) :
    done.foldlM (fun rows b => (row? next rows b).map (rows.insert b)) (∅ : DominatorTable) =
      some (rowsOf next done) := by
  induction done using List.reverseRecOn with
  | nil => rfl
  | append_singleton done b ih =>
    have hrows : ∀ s ∈ next b, ∃ r, (rowsOf next done).get? s = some r := fun s hs =>
      exists_get?_rowsOf.2 (h done b [] rfl s hs)
    rw [List.foldlM_append, ih h.of_append, rowsOf_snoc]
    simp [row?_eq hrows]

end Reachability

open Reachability

/-! ### The region of any block -/

section Start

variable {g : Graph} {start : BlockId} (hg : g.Checked) (hstart : start ∈ g.ids)
include hg hstart

/-- What the search lists is what the start leads to. -/
theorem Reachability.mem_postorder {a : BlockId} :
    a ∈ postorder g start ↔ ReflTransGen (g.Leads start) start a := by
  have hnext : ∀ a ∈ g.ids, ∀ b ∈ g.regionSuccs a start, b ∈ g.ids :=
    fun _ _ _ hb => hg.mem_ids_of_mem_regionSuccs hb
  have hdepth : g.ids.length ≤ g.size + 1 := Nat.le_succ_of_le (Nat.le_of_eq g.length_ids)
  rw [postorder, List.mem_reverse]
  constructor
  · exact fun ha => finished_induction hnext hstart hdepth
      (P := fun x => ReflTransGen (g.Leads start) start x) .refl (fun _ _ hu hs => hu.tail hs) ha
  · intro ha
    induction ha with
    | refl => exact mem_finished_root hnext hstart hdepth
    | tail _ hs ih => exact mem_finished_of_next hnext hstart hdepth ih hs

/-- **Every block is listed after all that it leads to.** -/
theorem Reachability.afterAllNext_postorder :
    AfterAllNext (g.regionSuccs · start) (postorder g start) := by
  have hnext : ∀ a ∈ g.ids, ∀ b ∈ g.regionSuccs a start, b ∈ g.ids :=
    fun _ _ _ hb => hg.mem_ids_of_mem_regionSuccs hb
  have hdepth : g.ids.length ≤ g.size + 1 := Nat.le_succ_of_le (Nat.le_of_eq g.length_ids)
  have hlisted := visit_finished hnext hstart hdepth
  intro before b after he s hs
  rw [postorder, List.reverse_eq_iff, List.reverse_append, List.reverse_cons, List.append_assoc,
    List.singleton_append] at he
  have hnodup := hlisted.nodup
  have hsettled := hlisted.settled b (by rw [he]; simp) s hs
  rw [he] at hnodup hsettled
  rcases hsettled with hseen | hsub | ⟨-, -, p, -, hp, -⟩
  · exact absurd hseen OrderedSet.not_mem_empty
  · exact List.mem_reverse.1 (mem_of_sublist_middle hnodup hsub)
  · -- a trail back would close a cycle
    exact absurd (TransGen.head' hs hp.reflTransGen) hg.not_transGen_leads

end Start

/-- **Reachability in the region of any block is exact.**  Whatever block the region starts
at, no row is read before it has been filled in.  A block reaches another if and only if
steps of the region lead from the start to the first and from there to the second, and what
is between two blocks is what lies strictly inside some path from the one to the other. -/
theorem Reachability.ofStart_exact {g : Graph} (hg : g.Accepted) {start : BlockId}
    (hstart : start ∈ g.ids) :
    ofStart? g start = some (ofStart g start) ∧
      (∀ a b, (ofStart g start).reaches a b = true ↔
        ReflTransGen (g.Leads start) start a ∧ ReflTransGen (g.Leads start) a b) ∧
      ∀ a d b, (ofStart g start).between a d b = true ↔
        ReflTransGen (g.Leads start) start a ∧
          ∃ q r, Trail (g.regionSuccs · start) a (a :: q ++ d :: r ++ [b]) b := by
  have hc := hg.checked
  have hlisted : AfterAllNext (g.regionSuccs · start) (postorder g start) :=
    afterAllNext_postorder hc hstart
  have hreaches : ∀ a b, (ofStart g start).reaches a b = true ↔
      ReflTransGen (g.Leads start) start a ∧ ReflTransGen (g.Leads start) a b := by
    intro a b
    change decide (b ∈ (rowsOf (g.regionSuccs · start) (postorder g start)).of a) = true ↔ _
    rw [decide_eq_true_iff, ← mem_postorder hc hstart]
    by_cases ha : a ∈ postorder g start
    · exact (mem_rowsOf hlisted ha).trans (and_iff_right ha).symm
    · simp [of_rowsOf_of_notMem ha, ha]
  refine ⟨by rw [ofStart?, foldlM_row? hlisted]; rfl, hreaches, fun a d b => ?_⟩
  rw [between, Bool.and_eq_true, Bool.and_eq_true, Bool.and_eq_true, hreaches, hreaches,
    decide_eq_true_iff, decide_eq_true_iff, Trail.exists_through_iff]
  constructor
  · rintro ⟨⟨⟨hda, hdb⟩, ha, had⟩, -, hb⟩
    exact ⟨ha, (Relation.reflTransGen_iff_eq_or_transGen.1 had).resolve_left hda,
      (Relation.reflTransGen_iff_eq_or_transGen.1 hb).resolve_left (Ne.symm hdb)⟩
  · rintro ⟨ha, had, hdb⟩
    -- a block of a path is at none of its ends, since that would close a cycle
    have hcycle : ∀ x, ¬ TransGen (g.Leads start) x x := fun _ => hc.not_transGen_leads
    have hda : d ≠ a := fun he => hcycle a (he ▸ had)
    have hdb' : d ≠ b := fun he => hcycle b (he ▸ hdb)
    exact ⟨⟨⟨hda, hdb'⟩, ha, had.to_reflTransGen⟩, ha.trans had.to_reflTransGen,
      hdb.to_reflTransGen⟩

/-- Seen from the end of a loop, its header is drawn together and leads nowhere.  Seen from
the header of the loop around, the first loop inside is between it and the second. -/
theorem Reachability.ofStart_exact_siblings :
    ((ofStart Graph.siblings 3).reaches 3 2 = true ∧
      ∀ b, ReflTransGen (Graph.siblings.Leads 3) 2 b → b = 2) ∧
      ∃ q r, Trail (Graph.siblings.regionSuccs · 1) 1 (1 :: q ++ 2 :: r ++ [4]) 4 := by
  have hg : Graph.siblings.Accepted := Graph.accepted_drawn _
  have hblocks : (1 : BlockId) ∈ Graph.siblings.ids ∧ (3 : BlockId) ∈ Graph.siblings.ids := by
    decide +kernel
  obtain ⟨-, hend, -⟩ := ofStart_exact hg hblocks.2
  obtain ⟨-, -, hheader⟩ := ofStart_exact hg hblocks.1
  have hreach : (ofStart Graph.siblings 3).reaches 3 2 = true := by decide +kernel
  have hrow : ((ofStart Graph.siblings 3).rows.of 2).toList = [2] := by decide +kernel
  refine ⟨⟨hreach, fun b hb => ?_⟩, ((hheader 1 2 4).1 (by decide +kernel)).2⟩
  have hin : b ∈ (ofStart Graph.siblings 3).rows.of 2 :=
    of_decide_eq_true ((hend 2 b).2 ⟨((hend 3 2).1 hreach).2, hb⟩)
  rwa [← OrderedSet.mem_toList, hrow, List.mem_singleton] at hin

end ConstantTime
