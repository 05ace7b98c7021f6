/-
# Reachability inside a region misses nothing

"Single-Path Constant-Time Transformation Engine", §12.2.

Along the edges of a region places ascend, so the search that lists its nodes
lists each of them after all that it leads to.  The row of a node then holds the
node and is closed under the edges of the region (`Reachability.row_closed`), so
it holds the node of every block that a pass goes on to (`IsPass.reaches`).
-/

import ConstantTime.Dominance.Reach
import ConstantTime.Proofs.Graph.Passes
import ConstantTime.Proofs.Graph.Search

namespace ConstantTime

namespace Reachability

variable {next : BlockId → List BlockId} {rows : DominatorTable} {a b x : BlockId}

theorem mem_row : x ∈ row next rows b ↔ x = b ∨ ∃ s ∈ next b, x ∈ rows.of s := by
  have key : ∀ (l : List BlockId) (r : BlockSet),
      x ∈ l.foldl (fun r s => r.union (rows.of s)) r ↔ x ∈ r ∨ ∃ s ∈ l, x ∈ rows.of s := by
    intro l
    induction l with
    | nil => simp
    | cons s l ih =>
      intro r
      rw [List.foldl_cons, ih, OrderedSet.mem_union, List.exists_mem_cons_iff, or_assoc]
  rw [row, key, OrderedSet.mem_singleton]

theorem of_insert (rows : DominatorTable) (b x : BlockId) (r : BlockSet) :
    DominatorTable.of (rows.insert b r) x = if x = b then r else rows.of x :=
  OrderedMap.getD_insert

/-- **The row of a block is closed**, if every block is listed before what it leads
to and the rows are filled in from the end. -/
theorem row_closed {listed : List BlockId} (hnd : listed.Nodup)
    (hnext : ∀ u ∈ listed, ∀ s ∈ next u, [u, s].Sublist listed) (ha : a ∈ listed) :
    let rows : DominatorTable :=
      listed.foldr (fun b rows => rows.insert b (row next rows b)) (∅ : DominatorTable)
    a ∈ rows.of a ∧ ∀ n ∈ rows.of a, ∀ s ∈ next n, s ∈ rows.of a := by
  induction listed generalizing a with
  | nil => simp at ha
  | cons b rest ih =>
    obtain ⟨hb, hndrest⟩ := List.nodup_cons.1 hnd
    have hrest : ∀ u ∈ rest, ∀ s ∈ next u, [u, s].Sublist rest := by
      intro u hu s hs
      rcases List.sublist_cons_iff.1 (hnext u (List.mem_cons_of_mem _ hu) s hs) with h | ⟨r, h, -⟩
      · exact h
      · cases h
        exact absurd hu hb
    have hsucc : ∀ s ∈ next b, s ∈ rest := by
      intro s hs
      rcases List.sublist_cons_iff.1 (hnext b List.mem_cons_self s hs) with h | ⟨r, h, hr⟩
      · exact h.subset (by simp)
      · cases h
        exact hr.subset (by simp)
    intro rows
    have hof : ∀ x, rows.of x = if x = b then row next (rest.foldr
        (fun b rows => rows.insert b (row next rows b)) (∅ : DominatorTable)) b
        else DominatorTable.of (rest.foldr
        (fun b rows => rows.insert b (row next rows b)) (∅ : DominatorTable)) x :=
      fun x => of_insert _ b x _
    rw [hof]
    split
    · next he =>
      subst he
      refine ⟨mem_row.2 (.inl rfl), fun n hn s hs => mem_row.2 ?_⟩
      rcases mem_row.1 hn with rfl | ⟨t, ht, hnt⟩
      · exact .inr ⟨s, hs, (ih hndrest hrest (hsucc s hs)).1⟩
      · exact .inr ⟨t, ht, (ih hndrest hrest (hsucc t ht)).2 n hnt s hs⟩
    · next hne => exact ih hndrest hrest ((List.mem_cons.1 ha).resolve_left hne)

end Reachability

namespace Graph

open Reachability

variable {g : Graph} {o : Option LoopId} {h n s u : BlockId} {q : List BlockId}

namespace Checked

variable (hg : g.Checked) (hh : g.IsStart o h)
include hg hh

/-- **What a node of a region reaches.** -/
theorem reaches_closed (hid : n ∈ g.ids) (hn : g.IsNode o n) :
    (ofStart g h).reaches n n = true ∧ ∀ m, (ofStart g h).reaches n m = true →
      ∀ s ∈ g.regionSuccs m h, (ofStart g h).reaches n s = true := by
  have hids := hg.start_mem_ids hh
  have hnext : ∀ a ∈ g.ids, ∀ b ∈ g.regionSuccs a h, b ∈ g.ids :=
    fun _ _ _ hb => hg.mem_ids_of_mem_regionSuccs hb
  have hdepth : g.ids.length ≤ g.size + 1 := by
    rw [Shape.length_ids]
    omega
  have hnode : ∀ x ∈ (visit (g.regionSuccs · h) (g.size + 1) {} h).finished, g.IsNode o x :=
    fun x hx => finished_induction hnext hids hdepth (hg.isNode_start hh)
      (fun a c ha hc => (hg.isNode_of_mem_regionSuccs hh ha hc).1) hx
  have hlisted : n ∈ (visit (g.regionSuccs · h) (g.size + 1) {} h).finished :=
    hg.node_induction hh (mem_finished_root hnext hids hdepth)
      (fun a s ha hs => mem_finished_of_next hnext hids hdepth ha hs) hid hn
  have hrows : (ofStart g h).rows = (visit (g.regionSuccs · h) (g.size + 1) {} h).finished.foldr
      (fun b rows => rows.insert b (row (g.regionSuccs · h) rows b)) (∅ : DominatorTable) := by
    unfold ofStart postorder
    rw [List.foldl_reverse]
  obtain ⟨hself, hclosed⟩ := row_closed (visit_finished hnext hids hdepth).nodup
    (fun u hu s hs => sublist_of_acyclic hnext hids hdepth g.place
      (fun a ha c hc => (hg.isNode_of_mem_regionSuccs hh (hnode a ha) hc).2.2) hu hs) hlisted
  rw [← hrows] at hself hclosed
  unfold reaches
  exact ⟨by simpa using hself, fun m hm s hs => by simpa using hclosed m (by simpa using hm) s hs⟩

end Checked

/-- **A pass is seen**: the node of each of its blocks reaches the node where the
pass is. -/
theorem IsPass.reaches (hg : g.Checked) (hh : g.IsStart o h) (hq : g.IsPass o h q u) :
    ∀ b ∈ q, (ofStart g h).reaches (g.nodeIn o b) (g.nodeIn o u) = true := by
  have hclosed : ∀ {q u b}, g.IsPass o h q u → b ∈ q → _ := fun hq hb =>
    hg.reaches_closed hh (hg.nodeIn_mem_ids (hq.mem_ids hg hh _ hb) (hq.inside _ hb))
      (hg.isNode_nodeIn (hq.inside _ hb))
  refine hq.snoc_induction (motive := fun q u =>
    ∀ b ∈ q, (ofStart g h).reaches (g.nodeIn o b) (g.nodeIn o u) = true) ?_ ?_
  · intro b hb
    have hstart : g.IsPass o h [h] h := .start (hg.inside_of_level (hg.loopOf_start hh))
    obtain rfl := List.mem_singleton.1 hb
    exact (hclosed hstart hb).1
  · intro q u y hq hs hy hne ih b hb
    rcases List.mem_append.1 hb with hb | hb
    · have hu := hq.inside u hq.path.last_mem
      rcases hg.edge_cases hh hu hs hy hne with ⟨c, hc, hcu, hcy⟩ | ⟨-, hsucc⟩
      · rw [hg.nodeIn_of_child hc hcy, ← hg.nodeIn_of_child hc hcu]
        exact ih b hb
      · obtain ⟨hnode, -, -⟩ := hg.isNode_of_mem_regionSuccs hh (hg.isNode_nodeIn hu) hsucc
        rw [hg.nodeIn_of_isNode hnode]
        exact (hclosed hq hb).2 _ (ih b hb) y hsucc
    · obtain rfl := List.mem_singleton.1 hb
      exact (hclosed (hq.snoc hs hy hne) (by simp)).1

end Graph
end ConstantTime
