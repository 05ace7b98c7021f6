/-
# Which compensation to use

"Single-Path Constant-Time Transformation Engine", §4.4 and §12.5.

Either every access gets a twin under the opposite predicate, or a counter is
worked off at the end.  If all executions perform the same number of accesses
neither is needed; otherwise the configuration decides, or the cost.
-/

import ConstantTime.Access.Counter

namespace ConstantTime

/-- How the accesses of a function are made up for. -/
inductive Strategy where
  /-- Not at all: all executions perform the same number. -/
  | none
  | counter
  | opposite
deriving DecidableEq, Repr, Inhabited

/-- The strategy as text. -/
def Strategy.text : Strategy → String
  | .none => "none"
  | .counter => "counter"
  | .opposite => "opposite"

/-- A function as the decision sees it. -/
structure AccessProblem where
  graph : Graph
  count : AccessCounts
  bound : LoopBounds
  /-- Is the function only called while it is enabled? -/
  rootLike : Bool
  pseudoRoot : Bool
  /-- The blocks known to execute a fixed number of times before the end. -/
  endDominators : Option BlockSet

/-- The decision and what it rests on. -/
structure Decision where
  strategy : Strategy
  range : AccessRange := ⟨0, 0⟩
  analysis : Option AccessAnalysis := none
  amounts : EdgeAmounts := ∅
  /-- The code of the counter, if it was chosen. -/
  plan : Option CounterPlan := none
  counterCost : Int64 := 0
  oppositeCost : Int64 := 0
deriving DecidableEq, Inhabited

namespace AccessProblem

/-- Need the accesses of a block no twin? -/
def isSkipped (p : AccessProblem) (b : BlockId) : Bool :=
  p.pseudoRoot && p.endDominators.any (b ∈ ·)

/-- The number of twins under opposite predicates. -/
def oppositeCost (p : AccessProblem) : Int64 :=
  (p.graph.ids.filter fun b => !p.isSkipped b).foldl (fun n b => n + p.count b) 0

/-- Chooses how to compensate. -/
def decide (p : AccessProblem) (config : Config) : Outcome Decision :=
  let g := p.graph
  if config.compensation = .opposite then
    .ok { strategy := .opposite, oppositeCost := p.oppositeCost }
  else do
    let analysis ← AccessAnalysis.ofGraph g p.count p.bound config.maxIterations
    let range ← analysis.total g p.rootLike
    if range.width = 0 then
      return { strategy := .none, range := range, analysis := some analysis }
    let amounts := EdgeAmounts.compensate g p.count
    if config.verify then amounts.verify g p.count config.maxIterations
    let plan ← CounterPlan.ofAmounts g amounts range p.rootLike config
    let counterCost := Int64.ofNat plan.cost
    let counts := counterCost < p.oppositeCost || config.compensation = .counter
    return {
      strategy := if counts then .counter else .opposite
      range := range
      analysis := some analysis
      amounts := amounts
      plan := if counts then some plan else none
      counterCost := counterCost
      oppositeCost := p.oppositeCost }

end AccessProblem
end ConstantTime
