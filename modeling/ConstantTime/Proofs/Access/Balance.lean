/-
# The counter makes up for the difference

When the counter is chosen, what it hands over at the end of an execution is
exactly what is missing from the greatest number of accesses.  The range of the
analysis brackets the accesses of the execution, the amounts on the edges add up
to them, and the instructions take these amounts off the counter; what is left is
then neither negative nor more than the range is wide.
-/

import ConstantTime.Access.Decision
import ConstantTime.Proofs.Access.Bracket
import ConstantTime.Proofs.Access.Execution
import Mathlib.Algebra.Order.BigOperators.Group.List

namespace ConstantTime

theorem sum_eq_ofInt (count : AccessCounts) (p : List BlockId) :
    (p.map count).sum = Int64.ofInt (count.performed p) := by
  unfold AccessCounts.performed
  induction p with
  | nil => rfl
  | cons b p ih =>
    rw [List.map_cons, List.sum_cons, List.map_cons, List.sum_cons, Int64.ofInt_add,
      Int64.ofInt_toInt, ih]

theorem performed_nonneg {count : AccessCounts} (hcount : ∀ b, 0 ≤ count b) (p : List BlockId) :
    0 ≤ count.performed p := by
  refine List.sum_nonneg fun x hx => ?_
  obtain ⟨b, -, rfl⟩ := List.mem_map.1 hx
  exact Int64.le_iff_toInt_le.1 (hcount b)

/-- What is left of the greatest number, as a word. -/
theorem toInt_sub_ofInt {most : Int64} {t : Int} (h₀ : 0 ≤ t) (h : t ≤ most.toInt) :
    (most - Int64.ofInt t).toInt = most.toInt - t := by
  have hlt := most.toInt_lt
  rw [← Int64.ofInt_toInt most, ← Int64.ofInt_sub, Int64.ofInt_toInt,
    Int64.toInt_ofInt_of_le (by omega) (by omega)]

/-- The range of a whole execution, seen from the range of the end. -/
theorem AccessAnalysis.total_eq_ok {a : AccessAnalysis} {g : Graph} {rootLike : Bool}
    {range r : AccessRange} {e : BlockId} {t : Int} (h : a.total g rootLike = .ok range)
    (he : g.end? = some e) (hr : a.blocks.get? e = some r) (hn : r.Nonneg) (ht : r.Holds t)
    (h₀ : 0 ≤ t) : range.max = r.max ∧ 0 ≤ range.min.toInt ∧ range.min.toInt ≤ t := by
  unfold total at h
  rw [he] at h
  dsimp only at h
  rw [hr] at h
  cases h
  cases rootLike
  · exact ⟨rfl, Int.le_refl _, h₀⟩
  · exact ⟨rfl, hn.1, ht.1⟩

namespace AccessProblem

/-- **What a decision rests on**, unless it needs no analysis. -/
theorem decide_cases {p : AccessProblem} {config : Config} {d : Decision}
    (h : p.decide config = .ok d) :
    (d.strategy = .opposite ∧ d.plan = none) ∨
      ∃ a, d.analysis = some a ∧
        AccessAnalysis.ofGraph p.graph p.count p.bound config.maxIterations = .ok a ∧
        a.total p.graph p.rootLike = .ok d.range ∧
        ((d.strategy = .none ∧ d.plan = none ∧ d.range.width = 0) ∨
          (d.strategy ≠ .none ∧ ∀ plan, d.plan = some plan →
            CounterPlan.ofAmounts p.graph (EdgeAmounts.compensate p.graph p.count) d.range
              p.rootLike config = .ok plan)) := by
  unfold decide at h
  dsimp only at h
  split at h
  · cases h
    exact .inl ⟨rfl, rfl⟩
  cases ha : AccessAnalysis.ofGraph p.graph p.count p.bound config.maxIterations with
  | error _ => rw [ha] at h; cases h
  | ok a =>
    rw [ha] at h
    change (do let range ← a.total p.graph p.rootLike; _) = _ at h
    cases hr : a.total p.graph p.rootLike with
    | error _ => rw [hr] at h; cases h
    | ok range =>
      rw [hr] at h
      change (if range.width = 0 then _ else _) = _ at h
      refine .inr ⟨a, ?_⟩
      split at h
      · next hwidth =>
        cases h
        exact ⟨rfl, rfl, hr, .inl ⟨rfl, rfl, hwidth⟩⟩
      · -- whether the amounts are checked or not, the plan is made of the same things
        have hrest : ∀ x : Outcome Decision, (do
            if config.verify then
              (EdgeAmounts.compensate p.graph p.count).verify p.graph p.count config.maxIterations
            x) = .ok d → x = .ok d := by
          intro x hx
          split at hx
          · cases hv : (EdgeAmounts.compensate p.graph p.count).verify p.graph p.count
              config.maxIterations with
            | error _ => rw [hv] at hx; cases hx
            | ok _ => rw [hv] at hx; exact hx
          · exact hx
        have h := hrest _ h
        cases hc : CounterPlan.ofAmounts p.graph (EdgeAmounts.compensate p.graph p.count) range
            p.rootLike config with
        | error _ => rw [hc] at h; cases h
        | ok plan' =>
          rw [hc] at h
          cases h
          refine ⟨rfl, rfl, hr, .inr ⟨?_, fun plan hplan => ?_⟩⟩
          · dsimp only
            split <;> simp
          · dsimp only at hplan
            split at hplan
            · cases hplan
              exact hc
            · cases hplan

/-- What a decision with a plan rests on. -/
theorem decide_eq_ok {p : AccessProblem} {config : Config} {d : Decision} {plan : CounterPlan}
    (h : p.decide config = .ok d) (hplan : d.plan = some plan) :
    ∃ a, d.analysis = some a ∧
      AccessAnalysis.ofGraph p.graph p.count p.bound config.maxIterations = .ok a ∧
      a.total p.graph p.rootLike = .ok d.range ∧
      CounterPlan.ofAmounts p.graph (EdgeAmounts.compensate p.graph p.count) d.range p.rootLike
        config = .ok plan := by
  rcases decide_cases h with ⟨-, hno⟩ | ⟨a, ha, hofGraph, htotal, ⟨-, hno, -⟩ | ⟨-, hof⟩⟩
  · rw [hno] at hplan
    cases hplan
  · rw [hno] at hplan
    cases hplan
  · exact ⟨a, ha, hofGraph, htotal, hof plan hplan⟩

/-- What a decision to do nothing rests on. -/
theorem decide_eq_none {p : AccessProblem} {config : Config} {d : Decision}
    (h : p.decide config = .ok d) (hnone : d.strategy = .none) :
    ∃ a, AccessAnalysis.ofGraph p.graph p.count p.bound config.maxIterations = .ok a ∧
      a.total p.graph p.rootLike = .ok d.range ∧ d.range.width = 0 := by
  rcases decide_cases h with ⟨hopp, -⟩ | ⟨a, -, hofGraph, htotal, ⟨-, -, hwidth⟩ | ⟨hsome, -⟩⟩
  · rw [hopp] at hnone
    cases hnone
  · exact ⟨a, hofGraph, htotal, hwidth⟩
  · exact absurd hnone hsome

end AccessProblem

open AccessAnalysis

/-- **The counter makes up for the difference.**  Let the counter be chosen for an
accepted function with one end and non-negative counts, and let no number of the
analysis have wrapped around.  On every path to the end whose stays in loops keep
their bounds, the code of the counter makes one call; it is given the width of the
range and what the path lacks to the greatest number of accesses, which is between
nothing and that width. -/
theorem counter_balances {p : AccessProblem} {config : Config} {d : Decision} {plan : CounterPlan}
    {a : AccessAnalysis} {e : BlockId} {path : List BlockId} (hg : p.graph.Accepted)
    (hend : p.graph.end? = some e) (hcount : ∀ b, 0 ≤ p.count b)
    (hdecide : p.decide config = .ok d) (hplan : d.plan = some plan)
    (hanalysis : d.analysis = some a) (hwrap : a.NoWrap p.graph p.count p.bound)
    (hpath : p.graph.IsPath p.graph.entry path e) (hkeeps : p.graph.KeepsBounds p.bound path)
    (regs : Register → Int64) :
    ∃ left : Int64, (plan.run ⟨regs, []⟩ path).calls = [(d.range.width, left)] ∧
      left.toInt = d.range.max.toInt - p.count.performed path ∧ 0 ≤ left ∧
      left ≤ d.range.width := by
  have hc := hg.checked
  obtain ⟨heid, hends⟩ := Shape.end?_eq_some hend
  obtain ⟨a', ha', hofGraph, htotal, hofAmounts⟩ := AccessProblem.decide_eq_ok hdecide hplan
  cases ha'.symm.trans hanalysis
  have hset := hc.settled_ofGraph hofGraph
  -- the range brackets the accesses of the path
  obtain ⟨r, hr, hn⟩ := hc.known hset hwrap hcount heid
  have hholds := hc.performed_holds hset hwrap hcount hkeeps hpath hends hr
  have hpos := performed_nonneg hcount path
  obtain ⟨hmax, hmin₀, hmin⟩ := total_eq_ok htotal hend hr hn hholds hpos
  have hle : p.count.performed path ≤ d.range.max.toInt := hmax ▸ hholds.2
  -- what the call finds
  have hleft : (if p.graph.size = 1 then 0
      else d.range.max - (EdgeAmounts.compensate p.graph p.count).onPath path).toInt =
      d.range.max.toInt - p.count.performed path := by
    split
    · next hsize =>
      -- the only block performs the greatest number
      obtain rfl : e = p.graph.entry := by
        have := Shape.mem_ids.1 heid
        rw [hsize] at this
        unfold Shape.entry
        lia
      have hr' := hset.block _ heid (.exactly (p.count p.graph.entry))
        (by rw [upTo, if_pos (by simp)])
      cases hr.symm.trans hr'
      have h₁ : (p.count p.graph.entry).toInt ≤ p.count.performed path := hholds.1
      have h₂ : d.range.max = p.count p.graph.entry := hmax
      rw [h₂] at hle ⊢
      rw [Int64.toInt_zero]
      omega
    · next hsize =>
      have hsize : 2 ≤ p.graph.size := by
        have := hc.size_pos
        omega
      rw [hc.onPath_compensate hsize hpath hends, sum_eq_ofInt, toInt_sub_ofInt hpos hle]
  refine ⟨_, CounterPlan.calls_run hc hofAmounts hend hends hpath rfl, hleft, ?_, ?_⟩
  · rw [Int64.le_iff_toInt_le, hleft, Int64.toInt_zero]
    omega
  · have hwidth := toInt_sub_ofInt hmin₀ (hmin.trans hle)
    rw [Int64.ofInt_toInt] at hwidth
    rw [Int64.le_iff_toInt_le, hleft, AccessRange.width, hwidth]
    omega

namespace AccessProblem

/-- A loop with three accesses in its body whose header is visited up to three
times. -/
def threeVisits : AccessProblem where
  graph := Graph.drawn 4 [(0, 1), (1, 2), (2, 1), (1, 3)] (by decide +kernel)
  count b := if b = 2 then 3 else 0
  bound _ := ⟨1, 3⟩
  rootLike := true
  pseudoRoot := false
  endDominators := none

/-- The decision for `threeVisits` when a counter is asked for. -/
def threeVisitsDecision : Decision :=
  (threeVisits.decide { compensation := .counter, maxIterations := 50 }).toOption.get
    (by decide +kernel)

end AccessProblem

/-- After two visits of the header of `threeVisits`, three of the six accesses are
left. -/
theorem counter_balances_two_visits :
    ∃ plan, AccessProblem.threeVisitsDecision.plan = some plan ∧
      (plan.run ⟨fun _ => 0, []⟩ [0, 1, 2, 1, 3]).calls = [(6, 3)] := by
  have hplan : AccessProblem.threeVisitsDecision.plan.isSome := by decide +kernel
  refine ⟨_, (Option.some_get hplan).symm, ?_⟩
  have hg : (Graph.drawn 4 [(0, 1), (1, 2), (2, 1), (1, 3)] (by decide +kernel)).Accepted :=
    Graph.accepted_drawn _
  have hpath : AccessProblem.threeVisits.graph.IsPath 0 [0, 1, 2, 1, 3] 3 :=
    ⟨by decide +kernel, by decide +kernel, by decide +kernel⟩
  obtain ⟨left, hcalls, hleft, -, -⟩ := counter_balances (p := AccessProblem.threeVisits)
    (a := AccessProblem.threeVisitsDecision.analysis.get (by decide +kernel)) hg
    (by decide +kernel) (fun b => by dsimp only [AccessProblem.threeVisits]; split <;> decide)
    (Outcome.eq_ok_get (by decide +kernel)) (Option.some_get hplan).symm (Option.some_get _).symm
    (by decide +kernel) hpath (by decide +kernel) fun _ => 0
  have hthree : left.toInt = (3 : Int64).toInt := by
    rw [hleft]
    decide +kernel
  have hsix : AccessProblem.threeVisitsDecision.range.width = 6 := by decide +kernel
  rw [← hsix, ← Int64.toInt_inj.1 hthree]
  exact hcalls

-- Nothing is added at a header, so what arrives there and its own accesses may be too many for
-- one word together.
example :
    let p : AccessProblem :=
      { graph := Graph.drawn 6 [(0, 1), (1, 2), (2, 1), (1, 3), (3, 4), (3, 5), (4, 5)]
          (by decide +kernel)
        count := fun b =>
          if b = 1 then 2 ^ 62 else if b = 2 then 2 ^ 62 - 1 else if b = 4 then 1 else 0
        bound := fun _ => ⟨0, 1⟩, rootLike := true, pseudoRoot := false, endDominators := none }
    (p.decide { compensation := .counter, maxIterations := 50 }).toOption.any fun d =>
      d.plan.isSome && d.analysis.any fun a => a.NoWrap p.graph p.count p.bound := by
  decide +kernel

end ConstantTime
