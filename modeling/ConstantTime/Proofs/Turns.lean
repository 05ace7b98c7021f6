/-
# Equations solved in turn

A state holds a value for each of several cells.  Treating a cell replaces its value by
what the cells that it needs make of it, or leaves it while they do not say yet; a round
treats all cells in a fixed order and in place (`Turns`).  Values are replaced and not
joined, so they may go up and down: the rounds come to an end because no cell needs itself,
however indirectly.  A cell whose needs keep their values from now on keeps its own from
the next round on (`Turns.stays_next`), so every round that changes anything brings at
least one cell to rest, and there are no more such rounds than cells (`Turns.exists_fixed`).
-/

import ConstantTime.Proofs.Ordered
import Mathlib.Logic.Function.Iterate

namespace ConstantTime

variable {σ κ ω : Type}

/-- One treatment of every cell, in order. -/
def oneRound (treat : σ → κ → σ) (ks : List κ) (s : σ) : σ := ks.foldl treat s

/-- Cells that are treated in turn: `value` is what the cells that a cell needs make of it. -/
structure Turns (look : σ → κ → Option ω) (treat : σ → κ → σ) (value : σ → κ → Option ω)
    (needs : κ → κ → Prop) (ks : List κ) : Prop where
  nodup : ks.Nodup
  own : ∀ s, ∀ k ∈ ks, look (treat s k) k = (value s k).or (look s k)
  frame : ∀ s, ∀ k ∈ ks, ∀ x ∈ ks, x ≠ k → look (treat s k) x = look s x
  same : ∀ s, ∀ k ∈ ks, look (treat s k) k = look s k → treat s k = s
  value_congr : ∀ s s', ∀ k ∈ ks, (∀ d, needs k d → look s' d = look s d) →
    value s' k = value s k
  listed : ∀ k ∈ ks, ∀ d, needs k d → d ∈ ks
  induction : ∀ P : κ → Prop, (∀ k ∈ ks, (∀ d, needs k d → P d) → P k) → ∀ k ∈ ks, P k

namespace Turns

variable {look : σ → κ → Option ω} {treat : σ → κ → σ} {value : σ → κ → Option ω}
  {needs : κ → κ → Prop} {ks : List κ} {s : σ} {k : κ}
  (ht : Turns look treat value needs ks)

/-- The cell has the same value after any number of rounds. -/
def Stays (look : σ → κ → Option ω) (treat : σ → κ → σ) (ks : List κ) (s : σ) (k : κ) : Prop :=
  ∀ n, look ((oneRound treat ks)^[n] s) k = look s k

theorem Stays.next (h : Stays look treat ks s k) : Stays look treat ks (oneRound treat ks s) k := by
  intro n
  have h₁ : look (oneRound treat ks s) k = look s k := h 1
  rw [← Function.iterate_succ_apply, h (n + 1), h₁]

include ht

theorem look_foldl_of_notMem {xs : List κ} (hxs : ∀ x ∈ xs, x ∈ ks) (hk : k ∈ ks) (hnot : k ∉ xs)
    (s : σ) : look (xs.foldl treat s) k = look s k := by
  induction xs generalizing s with
  | nil => rfl
  | cons x xs ih =>
    rw [List.mem_cons, not_or] at hnot
    rw [List.foldl_cons, ih (fun y hy => hxs y (List.mem_cons_of_mem _ hy)) hnot.2,
      ht.frame s x (hxs x List.mem_cons_self) k hk hnot.1]

/-- **A round gives a cell what its needs make of it**, if these have the same values before
and after the round: in the middle each of them has the one or the other. -/
theorem look_oneRound (hk : k ∈ ks) {t : σ} (hbefore : ∀ d, needs k d → look t d = look s d)
    (hafter : ∀ d, needs k d → look (oneRound treat ks t) d = look s d) :
    look (oneRound treat ks t) k = (value s k).or (look t k) := by
  obtain ⟨pre, post, hsplit⟩ := List.append_of_mem hk
  have hpre : ∀ x ∈ pre, x ∈ ks := fun x hx => by simp [hsplit, hx]
  have hpost : ∀ x ∈ post, x ∈ ks := fun x hx => by simp [hsplit, hx]
  have hnodup := ht.nodup
  rw [hsplit] at hnodup
  obtain ⟨-, hrest, hdisj⟩ := List.nodup_append.1 hnodup
  have hround : oneRound treat ks t = post.foldl treat (treat (pre.foldl treat t) k) := by
    rw [oneRound, hsplit, List.foldl_append, List.foldl_cons]
  have hmiddle : ∀ d, needs k d → look (pre.foldl treat t) d = look s d := by
    intro d hd
    have hdks := ht.listed k hk d hd
    by_cases hdpre : d ∈ pre
    · have hdlater : d ∉ k :: post := fun hm => hdisj d hdpre d hm rfl
      have hlater : ∀ x ∈ k :: post, x ∈ ks := fun x hx => by
        rw [hsplit]
        exact List.mem_append_right _ hx
      rw [← hafter d hd, hround]
      exact (ht.look_foldl_of_notMem hlater hdks hdlater _).symm
    · rw [ht.look_foldl_of_notMem hpre hdks hdpre, hbefore d hd]
  rw [hround, ht.look_foldl_of_notMem hpost hk (List.nodup_cons.1 hrest).1, ht.own _ k hk,
    ht.value_congr s _ k hk hmiddle,
    ht.look_foldl_of_notMem hpre hk fun hm => hdisj k hm k List.mem_cons_self rfl]

/-- **A cell comes to rest** in the round after the cells it needs. -/
theorem stays_next (hk : k ∈ ks) (hneeds : ∀ d, needs k d → Stays look treat ks s d) :
    Stays look treat ks (oneRound treat ks s) k := by
  have step : ∀ n, look ((oneRound treat ks)^[n + 1] s) k =
      (value s k).or (look ((oneRound treat ks)^[n] s) k) := by
    intro n
    rw [Function.iterate_succ_apply']
    refine ht.look_oneRound hk (fun d hd => hneeds d hd n) fun d hd => ?_
    rw [← Function.iterate_succ_apply' (oneRound treat ks)]
    exact hneeds d hd (n + 1)
  have hall : ∀ n, look ((oneRound treat ks)^[n + 1] s) k = (value s k).or (look s k) := by
    intro n
    induction n with
    | zero => exact step 0
    | succ n ih =>
      rw [step (n + 1), ih]
      cases value s k <;> rfl
  intro n
  rw [← Function.iterate_succ_apply, hall n]
  exact (hall 0).symm

/-- A round changes nothing once every cell has come to rest. -/
theorem oneRound_eq_self (h : ∀ k ∈ ks, Stays look treat ks s k) : oneRound treat ks s = s := by
  have hkeep : ∀ k ∈ ks, treat s k = s :=
    foldl_eq_self look ht.nodup ht.frame ht.same fun k hk => h k hk 1
  have key : ∀ xs : List κ, (∀ x ∈ xs, x ∈ ks) → xs.foldl treat s = s := by
    intro xs
    induction xs with
    | nil => exact fun _ => rfl
    | cons x xs ih =>
      intro hxs
      rw [List.foldl_cons, hkeep x (hxs x List.mem_cons_self)]
      exact ih fun y hy => hxs y (List.mem_cons_of_mem _ hy)
  exact key ks fun _ hx => hx

open Classical in
/-- **There are no more rounds than cells** before one that changes nothing. -/
theorem exists_fixed (s : σ) : ∃ n ≤ ks.length,
    (oneRound treat ks)^[n + 1] s = (oneRound treat ks)^[n] s := by
  -- the cells that have not come to rest become fewer
  suffices h : ∀ m (s : σ), (ks.filter fun k => ¬ Stays look treat ks s k).length ≤ m →
      ∃ n ≤ m, (oneRound treat ks)^[n + 1] s = (oneRound treat ks)^[n] s from
    h ks.length s (List.length_filter_le _ _)
  intro m
  induction m with
  | zero =>
    intro s hm
    refine ⟨0, Nat.le_refl 0, ht.oneRound_eq_self fun k hk => ?_⟩
    have := List.eq_nil_of_length_eq_zero (Nat.le_zero.1 hm)
    simpa using List.filter_eq_nil_iff.1 this k hk
  | succ m ih =>
    intro s hm
    by_cases hall : ∀ k ∈ ks, Stays look treat ks s k
    · exact ⟨0, Nat.zero_le _, ht.oneRound_eq_self hall⟩
    obtain ⟨k, hk, hneeds, hmoves⟩ : ∃ k ∈ ks, (∀ d, needs k d → Stays look treat ks s d) ∧
        ¬ Stays look treat ks s k := by
      by_contra hnone
      push Not at hnone
      exact hall (ht.induction _ hnone)
    have hlt : (ks.filter fun k => ¬ Stays look treat ks (oneRound treat ks s) k).length <
        (ks.filter fun k => ¬ Stays look treat ks s k).length := by
      have hnot : k ∉ ks.filter fun k => ¬ Stays look treat ks (oneRound treat ks s) k := by
        simpa [hk] using ht.stays_next hk hneeds
      refine Nat.lt_of_succ_le (List.Nodup.length_le_of_subset
        (List.nodup_cons.2 ⟨hnot, ht.nodup.filter _⟩) fun x hx => ?_)
      rcases List.mem_cons.1 hx with rfl | hx
      · simpa [hk] using hmoves
      · have hx := List.mem_filter.1 hx
        have hmoves' : ¬ Stays look treat ks (oneRound treat ks s) x := by simpa using hx.2
        simpa [hx.1] using fun hstays : Stays look treat ks s x => hmoves' hstays.next
    obtain ⟨n, hn, hfix⟩ := ih (oneRound treat ks s) (by omega)
    exact ⟨n + 1, Nat.succ_le_succ hn, hfix⟩

end Turns
end ConstantTime
