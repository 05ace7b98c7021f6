/-
# Paths

A path is the list of blocks that control passes, each a successor of the one
before.  Dominance is said with paths: `g.OnEveryPath a b` holds if no path from
the entry reaches `b` without passing `a`.

A path from the entry is most often taken apart at its end, which is what
`IsPath.snoc_induction` does; `IsPath.split` cuts a path at a block that lies on
it.
-/

import ConstantTime.Graph.Shape
import Mathlib.Data.List.Chain
import Mathlib.Data.List.Nodup

namespace ConstantTime
namespace Shape

variable {g : Shape}

/-- Control can pass the blocks of `p` in turn, from `a` to `b`. -/
structure IsPath (g : Shape) (a : BlockId) (p : List BlockId) (b : BlockId) : Prop where
  /-- Every block of the path is a successor of the one before. -/
  chain : p.IsChain fun u v => v ∈ g.succs u
  head : p.head? = some a
  last : p.getLast? = some b

/-- Every path from the entry to `b` passes `a`. -/
def OnEveryPath (g : Shape) (a b : BlockId) : Prop :=
  ∀ p, g.IsPath g.entry p b → a ∈ p

namespace IsPath

variable {a b c u v x : BlockId} {p q : List BlockId}

theorem single (a : BlockId) : g.IsPath a [a] a :=
  ⟨.singleton _, rfl, rfl⟩

theorem cons (h : v ∈ g.succs u) (hp : g.IsPath v p b) : g.IsPath u (u :: p) b := by
  cases p with
  | nil => exact absurd hp.head (by simp)
  | cons w p =>
    obtain rfl : w = v := by simpa using hp.head
    refine ⟨List.isChain_cons_cons.2 ⟨h, hp.chain⟩, rfl, ?_⟩
    rw [List.getLast?_cons_cons]
    exact hp.last

theorem snoc (hp : g.IsPath a p u) (h : v ∈ g.succs u) : g.IsPath a (p ++ [v]) v := by
  refine ⟨List.isChain_append.2 ⟨hp.chain, .singleton _, fun x hx y hy => ?_⟩, ?_, ?_⟩
  · rw [hp.last, Option.mem_some_iff] at hx
    simp only [List.head?_cons, Option.mem_some_iff] at hy
    exact hx ▸ hy ▸ h
  · rw [List.head?_append, hp.head]
    rfl
  · exact List.getLast?_concat

theorem ne_nil (hp : g.IsPath a p b) : p ≠ [] := by
  rintro rfl
  exact absurd hp.head (by simp)

theorem eq_cons (hp : g.IsPath a p b) : ∃ q, p = a :: q := by
  have := hp.head
  cases p with
  | nil => cases this
  | cons w q => exact ⟨q, by simpa using this⟩

theorem last_mem (hp : g.IsPath a p b) : b ∈ p := List.mem_of_getLast? hp.last

/-- A path is its first block alone, or goes on from a successor. -/
theorem eq_single_or_cons (hp : g.IsPath a p b) :
    (p = [a] ∧ a = b) ∨ ∃ v q, p = a :: q ∧ v ∈ g.succs a ∧ g.IsPath v q b := by
  cases p with
  | nil => exact absurd rfl hp.ne_nil
  | cons w q =>
    obtain rfl : w = a := by simpa using hp.head
    cases q with
    | nil => exact .inl ⟨rfl, by simpa using hp.last⟩
    | cons v q =>
      obtain ⟨hv, hq⟩ := List.isChain_cons_cons.1 hp.chain
      refine .inr ⟨v, v :: q, rfl, hv, hq, rfl, ?_⟩
      have := hp.last
      rwa [List.getLast?_cons_cons] at this

/-- A path is its last block alone, or has come from a predecessor. -/
theorem eq_single_or_snoc (hp : g.IsPath a p b) :
    (p = [a] ∧ a = b) ∨ ∃ u q, p = q ++ [b] ∧ b ∈ g.succs u ∧ g.IsPath a q u := by
  rcases p.eq_nil_or_concat' with rfl | ⟨q, w, rfl⟩
  · exact absurd rfl hp.ne_nil
  obtain rfl : w = b := by simpa using hp.last
  rcases q.eq_nil_or_concat' with rfl | ⟨r, u, rfl⟩
  · obtain rfl : w = a := by simpa using hp.head
    exact .inl ⟨rfl, rfl⟩
  · obtain ⟨hq, -, he⟩ := List.isChain_append.1 hp.chain
    refine .inr ⟨u, r ++ [u], rfl, he u (by simp) w (by simp), hq, ?_, by simp⟩
    have := hp.head
    rwa [List.head?_append_of_ne_nil _ (by simp)] at this

/-- **Induction along a path.**  What holds of the first block alone and is
kept by every step holds of every path. -/
theorem snoc_induction {motive : List BlockId → BlockId → Prop} (base : motive [a] a)
    (step : ∀ p u v, g.IsPath a p u → v ∈ g.succs u → motive p u → motive (p ++ [v]) v)
    (hp : g.IsPath a p b) : motive p b := by
  induction hn : p.length generalizing p b with
  | zero => exact absurd (List.length_eq_zero_iff.1 hn) hp.ne_nil
  | succ n ih =>
    rcases hp.eq_single_or_snoc with ⟨rfl, rfl⟩ | ⟨u, q, rfl, hb, hq⟩
    · exact base
    · exact step q u b hq hb (ih hq (by simpa using hn))

theorem append (hp : g.IsPath a p b) (hq : g.IsPath b q c) : g.IsPath a (p ++ q.tail) c := by
  cases q with
  | nil => exact absurd rfl hq.ne_nil
  | cons w q =>
    obtain rfl : w = b := by simpa using hq.head
    rw [List.tail_cons]
    cases q with
    | nil =>
      obtain rfl : w = c := by simpa using hq.last
      rwa [List.append_nil]
    | cons v q =>
      obtain ⟨hv, hchain⟩ := List.isChain_cons_cons.1 hq.chain
      refine ⟨List.isChain_append.2 ⟨hp.chain, hchain, fun x hx y hy => ?_⟩, ?_, ?_⟩
      · rw [hp.last, Option.mem_some_iff] at hx
        simp only [List.head?_cons, Option.mem_some_iff] at hy
        exact hx ▸ hy ▸ hv
      · rw [List.head?_append, hp.head]
        rfl
      · have := hq.last
        rw [List.getLast?_cons_cons] at this
        rw [List.getLast?_append, this]
        rfl

/-- A path cut at a block that lies on it. -/
theorem of_append (hp : g.IsPath a (p ++ x :: q) b) :
    g.IsPath a (p ++ [x]) x ∧ g.IsPath x (x :: q) b := by
  obtain ⟨h₁, h₂, h₃⟩ := List.isChain_append.1 hp.chain
  refine ⟨⟨List.isChain_append.2 ⟨h₁, .singleton _, fun y hy z hz => ?_⟩, ?_, by simp⟩,
    h₂, rfl, ?_⟩
  · exact h₃ y hy z (by simpa using hz)
  · have := hp.head
    cases p <;> simpa using this
  · have := hp.last
    rwa [List.getLast?_append_of_ne_nil _ (by simp)] at this

theorem succ_of_infix (hp : g.IsPath a p b) (h : [u, v] <:+: p) : v ∈ g.succs u :=
  List.isChain_pair.1 ( List.IsChain.infix hp.chain h)

/-- A block without successors comes last on a path, and only there. -/
theorem eq_snoc_end (hp : g.IsPath a p b) (hb : g.succs b = []) :
    ∃ q, p = q ++ [b] ∧ ∀ x ∈ q, x ≠ b := by
  rcases hp.eq_single_or_snoc with ⟨rfl, rfl⟩ | ⟨u, q, rfl, -, -⟩
  · exact ⟨[], rfl, by simp⟩
  · refine ⟨q, rfl, ?_⟩
    rintro x hx rfl
    obtain ⟨q₁, q₂, rfl⟩ := List.append_of_mem hx
    rw [List.append_assoc, List.cons_append] at hp
    rcases hp.of_append.2.eq_single_or_cons with ⟨h, -⟩ | ⟨v, -, -, hv, -⟩
    · simp at h
    · rw [hb] at hv
      simp at hv

theorem split (hp : g.IsPath a p b) (hx : x ∈ p) :
    ∃ q r, p = q ++ x :: r ∧ g.IsPath a (q ++ [x]) x ∧ g.IsPath x (x :: r) b := by
  obtain ⟨q, r, rfl⟩ := List.append_of_mem hx
  exact ⟨q, r, rfl, hp.of_append⟩

/-- A path cut short: past the same blocks, none of them twice. -/
theorem exists_nodup (hp : g.IsPath a p b) :
    ∃ q, g.IsPath a q b ∧ q.Nodup ∧ ∀ x ∈ q, x ∈ p := by
  refine snoc_induction (motive := fun p b => ∃ q, g.IsPath a q b ∧ q.Nodup ∧ ∀ x ∈ q, x ∈ p)
    ⟨[a], .single a, List.nodup_singleton a, by simp⟩ ?_ hp
  rintro p u v - hs ⟨q, hq, hnd, hsub⟩
  by_cases hv : v ∈ q
  · -- the path has been here before, and can stop there
    obtain ⟨q₁, q₂, rfl, hq₁, -⟩ := hq.split hv
    have hsplit : q₁ ++ v :: q₂ = (q₁ ++ [v]) ++ q₂ := by simp
    rw [hsplit] at hnd hsub
    refine ⟨q₁ ++ [v], hq₁, (List.nodup_append.1 hnd).1, fun x hx => ?_⟩
    exact List.mem_append_left _ (hsub x (List.mem_append_left _ hx))
  · refine ⟨q ++ [v], hq.snoc hs, List.nodup_append.2 ⟨hnd, by simp, ?_⟩, fun x hx => ?_⟩
    · rintro x hx y hy rfl
      exact hv (List.mem_singleton.1 hy ▸ hx)
    · rcases List.mem_append.1 hx with hx | hx
      · exact List.mem_append_left _ (hsub x hx)
      · exact List.mem_append_right _ hx

/-! ### Stretches -/

/-- The longest stretch with a property that ends in a block. -/
theorem exists_stretch_to {P : BlockId → Prop} (hx : P x) (xs : List BlockId) :
    ∃ before stretch, xs ++ [x] = before ++ stretch ∧ stretch ≠ [] ∧ (∀ y ∈ stretch, P y) ∧
      ∀ y ∈ before.getLast?, ¬ P y := by
  induction xs using List.reverseRecOn generalizing x with
  | nil => exact ⟨[], [x], rfl, by simp, by simpa using hx, by simp⟩
  | append_singleton xs w ih =>
    by_cases hw : P w
    · obtain ⟨before, stretch, he, -, hall, hout⟩ := ih hw
      refine ⟨before, stretch ++ [x], by rw [he, List.append_assoc], by simp, ?_, hout⟩
      intro y hy
      rcases List.mem_append.1 hy with hy | hy
      · exact hall y hy
      · exact List.mem_singleton.1 hy ▸ hx
    · exact ⟨xs ++ [w], [x], rfl, by simp, by simpa using hx, by simpa using hw⟩

/-- The longest stretch with a property that starts in a block. -/
theorem exists_stretch_from {P : BlockId → Prop} (hx : P x) (ys : List BlockId) :
    ∃ stretch after, x :: ys = stretch ++ after ∧ stretch ≠ [] ∧ (∀ y ∈ stretch, P y) ∧
      ∀ y ∈ after.head?, ¬ P y := by
  induction ys generalizing x with
  | nil => exact ⟨[x], [], rfl, by simp, by simpa using hx, by simp⟩
  | cons w ys ih =>
    by_cases hw : P w
    · obtain ⟨stretch, after, he, -, hall, hout⟩ := ih hw
      refine ⟨x :: stretch, after, by rw [he, List.cons_append], by simp, ?_, hout⟩
      intro y hy
      rcases List.mem_cons.1 hy with rfl | hy
      · exact hx
      · exact hall y hy
    · exact ⟨[x], w :: ys, rfl, by simp, by simpa using hx, by simpa using hw⟩

/-- All ways to cut a list twice are found by counting. -/
theorem forall_split_iff {P : List BlockId → List BlockId → List BlockId → Prop}
    {p : List BlockId} :
    (∀ xs ys zs, p = xs ++ ys ++ zs → P xs ys zs) ↔
      ∀ i < p.length + 1, ∀ n < p.length + 1,
        P (p.take i) ((p.drop i).take n) ((p.drop i).drop n) := by
  constructor
  · intro h i _ n _
    exact h _ _ _ (by rw [List.append_assoc, List.take_append_drop, List.take_append_drop])
  · rintro h xs ys zs rfl
    have hlen : (xs ++ ys ++ zs).length = xs.length + ys.length + zs.length := by
      rw [List.length_append, List.length_append]
    have := h xs.length (by omega) ys.length (by omega)
    rwa [List.append_assoc, List.drop_left, List.take_left, List.take_left, List.drop_left] at this

end IsPath

theorem OnEveryPath.refl (b : BlockId) : g.OnEveryPath b b := fun _ hp => hp.last_mem

end Shape
end ConstantTime
