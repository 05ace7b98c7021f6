/-
# What the relation of classes says about paths

"Single-Path Constant-Time Transformation Engine", §12.4.

Two classes are related if a search that leaves out the back edges comes from one of them to
the other.  In an accepted graph every block is reached from the entry without a back edge, so
this is the same as a path from the entry that takes no back edge and visits both
(`related_iff_visits`).

A path enables a predicate if it visits the class, or does not, as the predicate is negated or not.
Plain predicates are dependent if and only if such a path enables both (`dependent_plain_iff`).
The answer that two predicates are independent is given only for the two predicates of one
class, and for plain predicates of classes that are not related, so no path enables both
(`not_enabled_of_independent`).  All other predicates are taken to be dependent.
-/

import ConstantTime.Predicate.Basic
import ConstantTime.Proofs.Graph.Once
import ConstantTime.Proofs.Predicate.Roots

namespace ConstantTime

open ConstantTime.Graph

variable {g : Graph} {a b u v x y : BlockId} {p q r : List BlockId}

/-! ### Paths without back edges -/

namespace Graph

/-- Control can pass the blocks of `p` in turn, from `a` to `b`, over no back edge. -/
structure IsForward (g : Graph) (a : BlockId) (p : List BlockId) (b : BlockId) : Prop
    extends Shape.IsPath g.toShape a p b where
  forward : g.backEdgesOn p = []

namespace IsForward

theorem single (a : BlockId) : g.IsForward a [a] a := ⟨.single a, rfl⟩

theorem snoc (hp : g.IsForward a p u) (hv : v ∈ Classes.forwardSuccs g u) :
    g.IsForward a (p ++ [v]) v := by
  obtain ⟨hs, hb⟩ := List.mem_filter.1 hv
  refine ⟨hp.toIsPath.snoc hs, ?_⟩
  rw [backEdgesOn_snoc hp.last, hp.forward, List.nil_append, if_neg (by simpa using hb)]

theorem append (hp : g.IsForward a (q ++ [x]) x) (hr : g.IsForward x (x :: r) b) :
    g.IsForward a (q ++ x :: r) b := by
  refine ⟨by simpa using hp.toIsPath.append hr.toIsPath, ?_⟩
  rw [backEdgesOn_append, hp.forward, hr.forward]
  rfl

theorem split (hp : g.IsForward a p b) (hx : x ∈ p) :
    ∃ q r, p = q ++ x :: r ∧ g.IsForward a (q ++ [x]) x ∧ g.IsForward x (x :: r) b := by
  obtain ⟨q, r, rfl, hq, hr⟩ := hp.toIsPath.split hx
  obtain ⟨hqf, hrf⟩ := List.append_eq_nil_iff.1 (backEdgesOn_append (g := g) ▸ hp.forward)
  exact ⟨q, r, rfl, ⟨hq, hqf⟩, ⟨hr, hrf⟩⟩

/-- Of two blocks on a path one leads to the other. -/
theorem connects (hp : g.IsForward a p b) (hx : x ∈ p) (hy : y ∈ p) :
    (∃ q, g.IsForward x q y) ∨ ∃ q, g.IsForward y q x := by
  obtain ⟨q, r, rfl, hq, hr⟩ := hp.split hx
  rcases List.mem_append.1 hy with hy | hy
  · obtain ⟨-, s, -, -, hs⟩ := hq.split (List.mem_append_left [x] hy)
    exact .inr ⟨_, hs⟩
  · obtain ⟨s, -, -, hs, -⟩ := hr.split hy
    exact .inl ⟨_, hs⟩

end IsForward

/-- **Every block is reached without a back edge.** -/
theorem Checked.exists_isForward (hg : g.Checked) (hb : b ∈ g.ids) :
    ∃ p, g.IsForward g.entry p b := by
  obtain ⟨p, hp, hasc, -⟩ := hg.exists_ascending hb
  have hnodup : p.Nodup := hasc.imp fun hlt => ne_of_apply_ne g.place hlt.ne
  exact ⟨p, hp, hg.backEdgesOn_eq_nil hp hnodup⟩

end Graph

/-! ### Related classes -/

namespace Classes

variable {cs : Classes}

/-- Does a path visit a block of the class? -/
def visits (cs : Classes) (p : List BlockId) (c : Int) : Bool :=
  0 ≤ c && p.any (· ∈ cs.blocksOf c.toNat)

/-- Does a path enable a predicate?  It enables that of a class, unless it is negated, by
visiting the class. -/
def enabled (cs : Classes) (p : List BlockId) : Predicate → Bool
  | .always => true
  | .on c negated => cs.visits p c != negated

theorem visits_iff {c : Nat} : cs.visits p c = true ↔ ∃ x ∈ p, x ∈ cs.blocksOf c := by
  simp [visits]

/-- A path visits only classes that exist. -/
theorem exists_of_visits {c : Int} (h : cs.visits p c = true) :
    ∃ k : Nat, c = k ∧ k < cs.size := by
  simp only [visits, Bool.and_eq_true, decide_eq_true_eq, List.any_eq_true] at h
  obtain ⟨hc, x, -, hx⟩ := h
  refine ⟨c.toNat, (Int.toNat_of_nonneg hc).symm, ?_⟩
  rw [blocksOf] at hx
  split at hx
  · next hget => exact (List.getElem?_eq_some_iff.1 hget).1
  · cases hx

/-- What steps over no back edge come to is what paths without back edges lead to. -/
theorem reflTransGen_iff : Relation.ReflTransGen (Leads (forwardSuccs g) ∅) x y ↔
    ∃ q, g.IsForward x q y := by
  constructor
  · intro h
    induction h with
    | refl => exact ⟨[x], .single x⟩
    | tail _ hs ih =>
      obtain ⟨q, hq⟩ := ih
      exact ⟨_, hq.snoc hs.1⟩
  · rintro ⟨q, hq⟩
    refine hq.toIsPath.snoc_induction (motive := fun q y => g.backEdgesOn q = [] →
      Relation.ReflTransGen (Leads (forwardSuccs g) ∅) x y) (fun _ => .refl)
      (fun q u v hq hs ih hforward => ?_) hq.forward
    rw [backEdgesOn_snoc hq.last, List.append_eq_nil_iff] at hforward
    refine (ih hforward.1).tail ⟨List.mem_filter.2 ⟨hs, ?_⟩, OrderedSet.not_mem_empty⟩
    simpa using hforward.2

variable (hg : g.Checked) (hids : ∀ k, ∀ x ∈ cs.blocksOf k, x ∈ g.ids)
include hg hids

/-- **The search from a class** comes to another if a path without back edges leads there. -/
theorem leadsTo_iff {i j : Nat} : cs.leadsTo g i j = true ↔
    ∃ x ∈ cs.blocksOf i, ∃ y ∈ cs.blocksOf j, ∃ q, g.IsForward x q y := by
  have hnext : ∀ x ∈ g.ids, ∀ y ∈ forwardSuccs g x, y ∈ g.ids := fun x _ y hy =>
    hg.wellFormed.isBlock_of_mem_succs (List.mem_filter.1 hy).1
  simp only [leadsTo, List.any_eq_true, decide_eq_true_eq, mem_closure_iff hnext (hids i),
    OrderedSet.not_mem_empty, false_or, Reached, not_false_eq_true, true_and, reflTransGen_iff]
  constructor
  · rintro ⟨y, hy, x, hx, hq⟩
    exact ⟨x, hx, y, hy, hq⟩
  · rintro ⟨x, hx, y, hy, hq⟩
    exact ⟨y, hy, x, hx, hq⟩

/-- **Classes are related** if a path from the entry without back edges visits both. -/
theorem related_iff_visits {i j : Nat} (hi : i < cs.size) (hj : j < cs.size) :
    cs.related g i j = true ↔
      ∃ p z, g.IsForward g.entry p z ∧ cs.visits p i = true ∧ cs.visits p j = true := by
  have hboth : ∀ {x y : BlockId} {q : List BlockId}, x ∈ g.ids → g.IsForward x q y →
      ∃ p, g.IsForward g.entry p y ∧ x ∈ p ∧ y ∈ p := by
    intro x y q hx hq
    obtain ⟨p, hp⟩ := hg.exists_isForward hx
    obtain ⟨p, rfl⟩ := List.getLast?_eq_some_iff.1 hp.last
    obtain ⟨q, rfl⟩ := hq.eq_cons
    exact ⟨_, hp.append hq, by simp, List.mem_append_right _ hq.last_mem⟩
  simp only [related, visits_iff, Int.toNat_natCast]
  rw [if_pos (by simp [hi, hj]), Bool.or_eq_true, leadsTo_iff hg hids, leadsTo_iff hg hids]
  constructor
  · rintro (⟨x, hx, y, hy, q, hq⟩ | ⟨y, hy, x, hx, q, hq⟩)
    · obtain ⟨p, hp, hxp, hyp⟩ := hboth (hids i x hx) hq
      exact ⟨p, y, hp, ⟨x, hxp, hx⟩, ⟨y, hyp, hy⟩⟩
    · obtain ⟨p, hp, hyp, hxp⟩ := hboth (hids j y hy) hq
      exact ⟨p, x, hp, ⟨x, hxp, hx⟩, ⟨y, hyp, hy⟩⟩
  · rintro ⟨p, z, hp, ⟨x, hxp, hx⟩, ⟨y, hyp, hy⟩⟩
    exact (hp.connects hxp hyp).imp (fun hq => ⟨x, hx, y, hy, hq⟩) fun hq => ⟨y, hy, x, hx, hq⟩

/-- **Plain predicates are dependent** if and only if a path enables both. -/
theorem dependent_plain_iff (hne : ∀ k < cs.size, cs.blocksOf k ≠ []) {i j : Nat}
    (hi : i < cs.size) (hj : j < cs.size) :
    Predicate.dependent (cs.related g) (.on i false) (.on j false) = true ↔
      ∃ p z, g.IsForward g.entry p z ∧
        cs.enabled p (.on i false) = true ∧ cs.enabled p (.on j false) = true := by
  simp only [enabled, Bool.bne_false]
  rw [Predicate.dependent]
  split
  · next hij =>
    -- a predicate and itself: some path visits the class
    obtain rfl : i = j := Int.ofNat.inj hij
    obtain ⟨x, hx⟩ := List.exists_mem_of_ne_nil _ (hne i hi)
    obtain ⟨p, hp⟩ := hg.exists_isForward (hids i x hx)
    have hvisits : cs.visits p i = true := visits_iff.2 ⟨x, hp.last_mem, hx⟩
    exact ⟨fun _ => ⟨p, x, hp, hvisits, hvisits⟩, fun _ => rfl⟩
  · rw [Bool.or_false, Bool.or_false]
    exact related_iff_visits hg hids hi hj

/-- **Independent predicates** are not enabled together. -/
theorem not_enabled_of_independent {P Q : Predicate}
    (h : Predicate.dependent (cs.related g) P Q = false) (hp : g.IsForward g.entry p x) :
    ¬ (cs.enabled p P = true ∧ cs.enabled p Q = true) := by
  rintro ⟨hP, hQ⟩
  cases P with
  | always => cases h
  | on i m =>
  cases Q with
  | always => cases h
  | on j n =>
  rw [Predicate.dependent] at h
  split at h
  · next heq =>
    -- of one class, one of them negated
    subst heq
    rw [enabled, bne_iff_ne] at hP hQ
    exact beq_eq_false_iff_ne.1 h
      ((Bool.eq_not.2 hP.symm).trans (Bool.eq_not.2 hQ.symm).symm)
  · -- plain predicates of classes that are not related
    simp only [Bool.or_eq_false_iff] at h
    obtain ⟨⟨hrelated, rfl⟩, rfl⟩ := h
    rw [enabled, Bool.bne_false] at hP hQ
    obtain ⟨k, rfl, hk⟩ := exists_of_visits hP
    obtain ⟨l, rfl, hl⟩ := exists_of_visits hQ
    rw [(related_iff_visits hg hids hk hl).2 ⟨p, x, hp, hP, hQ⟩] at hrelated
    cases hrelated

omit hg hids

/-- The blocks of the classes of a function are its blocks. -/
theorem mem_ids_of_mem_blocksOf {d : Dependences} (k : Nat) :
    ∀ x ∈ (ofDependences g d).blocksOf k, x ∈ g.ids := by
  intro x hx
  rw [blocksOf] at hx
  split at hx
  · next hget => exact (isClass_of_mem (List.mem_of_getElem? hget)).sublist.subset hx
  · cases hx

/-- Every class has a block. -/
theorem blocksOf_ne_nil {d : Dependences} {k : Nat} (hk : k < (ofDependences g d).size) :
    (ofDependences g d).blocksOf k ≠ [] := by
  have hget : (ofDependences g d).list[k]? = some (ofDependences g d).list[k] :=
    List.getElem?_eq_getElem hk
  rw [blocksOf, hget]
  exact (isClass_of_mem (List.getElem_mem hk)).ne_nil

/-- **The oracle for predicates.**  Whatever the dependences of an accepted graph, two classes are
related if and only if some path from the entry that takes no back edge visits a block of each.
Their plain predicates are said to be dependent if and only if some such path enables both, and
no such path enables both of any two predicates that are said to be independent. -/
theorem related_exact_and_dependent_sound {g : Graph} (hg : g.Accepted) (d : Dependences) :
    (∀ i j : Nat, i < (ofDependences g d).size → j < (ofDependences g d).size →
      ((ofDependences g d).related g i j = true ↔ ∃ p z, g.IsForward g.entry p z ∧
        (ofDependences g d).visits p i = true ∧ (ofDependences g d).visits p j = true)) ∧
    (∀ i j : Nat, i < (ofDependences g d).size → j < (ofDependences g d).size →
      (Predicate.dependent ((ofDependences g d).related g) (.on i false) (.on j false) = true ↔
        ∃ p z, g.IsForward g.entry p z ∧ (ofDependences g d).enabled p (.on i false) = true ∧
          (ofDependences g d).enabled p (.on j false) = true)) ∧
    ∀ P Q, Predicate.dependent ((ofDependences g d).related g) P Q = false →
      ∀ p z, g.IsForward g.entry p z →
        ¬ ((ofDependences g d).enabled p P = true ∧ (ofDependences g d).enabled p Q = true) :=
  ⟨fun _ _ hi hj => related_iff_visits hg.checked mem_ids_of_mem_blocksOf hi hj,
    fun _ _ hi hj =>
      dependent_plain_iff hg.checked mem_ids_of_mem_blocksOf (fun _ => blocksOf_ne_nil) hi hj,
    fun _ _ h _ _ hp => not_enabled_of_independent hg.checked mem_ids_of_mem_blocksOf h hp⟩

/-- In `branching` a path passes the header and a branch, and their plain predicates are dependent;
no path passes both branches, although control comes from one to the other over the back edge. -/
theorem related_exact_and_dependent_sound_branching :
    (∃ p z, branching.IsForward branching.entry p z ∧
      (ofDependences branching branchingDeps).visits p 1 = true ∧
      (ofDependences branching branchingDeps).visits p 2 = true) ∧
    Predicate.dependent ((ofDependences branching branchingDeps).related branching)
      (.on 1 false) (.on 2 false) = true ∧
    ∀ p z, branching.IsForward branching.entry p z →
      ¬ ((ofDependences branching branchingDeps).enabled p (.on 2 false) = true ∧
        (ofDependences branching branchingDeps).enabled p (.on 3 false) = true) := by
  obtain ⟨hexact, hplain, hsound⟩ :=
    related_exact_and_dependent_sound (Graph.accepted_drawn _ : branching.Accepted) branchingDeps
  obtain ⟨p, z, hp, hone, htwo⟩ :=
    (hexact 1 2 (by decide +kernel) (by decide +kernel)).1 (by decide +kernel)
  refine ⟨⟨p, z, hp, hone, htwo⟩, ?_, hsound (.on 2 false) (.on 3 false) (by decide +kernel)⟩
  exact (hplain 1 2 (by decide +kernel) (by decide +kernel)).2
    ⟨p, z, hp, by simpa [enabled] using hone, by simpa [enabled] using htwo⟩

end Classes
end ConstantTime
