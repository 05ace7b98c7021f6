/-
# List scheduling

"Single-Path Constant-Time Transformation Engine", §4.5 and §12.6.

Cycle by cycle the best ready instruction is issued; with dual issue a second
one may join it.  An instruction is ready when every constraint on it is met and
it touches no operand that is poisoned in this cycle.  The best is the one with
the longest latency, then with the most instructions waiting for it, then, in
dual issue, a long one, then the first.

Every instruction waits at most for the longest distance or latency there is,
which bounds the number of cycles.
-/

import ConstantTime.Schedule.Basic
import ConstantTime.Schedule.Constraint

namespace ConstantTime

/-- What a schedule is made from. -/
structure IssueProblem where
  /-- The number of instructions. -/
  size : Nat
  traits : Traits
  /-- The slots of dual issue; none for single issue. -/
  slots : Option Slots := none
  oracle : Oracle := fun _ _ => true

namespace IssueProblem

/-- The constraints between the instructions. -/
def constraints (p : IssueProblem) : ConstraintGraph := .ofTraits p.size p.traits p.oracle

/-- Does the instruction fill a bundle alone? -/
def isLong (p : IssueProblem) (i : Nat) : Bool := p.slots.any fun s => s.isLong i

/-- The instructions issued so far, with their cycles. -/
abbrev Issued := OrderedMap Nat Nat

/-- Does an issued instruction keep another from issuing in a cycle?  A call
bears the last cycle in which the operands are poisoned. -/
def holdsBack (t : Traits) (w at_ i cycle : Nat) : Bool :=
  let last := Int64.ofNat at_ + t.latency w
  let now := Int64.ofNat cycle
  decide (at_ < cycle) && decide (now ≤ last) && (!t.isCall i || decide (now ≤ last - 1)) &&
    (t.poisoned w).any fun op => t.readsOp i op || t.writesOp i op

/-- Is a constraint met in a cycle? -/
def isMet (issued : Issued) (cycle p : Nat) (c : Constraint) : Bool :=
  match issued.get? p with
  | none => false
  | some k => Int64.ofNat k + c.distance ≤ Int64.ofNat cycle

/-- May the instruction issue in a cycle? -/
def isReady (p : IssueProblem) (g : ConstraintGraph) (issued : Issued) (cycle i : Nat) : Bool :=
  (g.predsOf i).entries.all (fun (q, c) => isMet issued cycle q c) &&
    issued.entries.all fun (w, k) => !holdsBack p.traits w k i cycle

/-- May the candidate share the bundle of the first instruction? -/
def mayJoin (p : IssueProblem) (s : Slots) (first cand : Nat) : Bool :=
  !s.isLong cand && (s.maySecond cand || s.maySecond first) &&
    (s.mayBundle first cand || !p.oracle first cand)

/-- Is the first instruction to be preferred? -/
def isBetter (p : IssueProblem) (g : ConstraintGraph) (a b : Nat) : Bool :=
  let la := p.traits.effectiveLatency a
  let lb := p.traits.effectiveLatency b
  let sa := (g.succsOf a).length
  let sb := (g.succsOf b).length
  if la ≠ lb then lb < la
  else if sa ≠ sb then sb < sa
  else if p.isLong a ≠ p.isLong b then p.isLong a
  else a < b

/-- The best of several instructions. -/
def best (p : IssueProblem) (g : ConstraintGraph) : List Nat → Option Nat
  | [] => none
  | i :: rest => some (rest.foldl (fun b j => if p.isBetter g j b then j else b) i)

/-- The instructions that may issue in a cycle. -/
def ready (p : IssueProblem) (g : ConstraintGraph) (issued : Issued) (cycle : Nat) : List Nat :=
  (List.range p.size).filter fun i => !issued.contains i && p.isReady g issued cycle i

/-- The instruction that joins the first one, if any. -/
def partner (p : IssueProblem) (g : ConstraintGraph) (issued : Issued) (cycle first : Nat) :
    Option Nat :=
  match p.slots with
  | none => none
  | some s =>
    if s.isLong first then none
    else p.best g ((p.ready g issued cycle).filter (p.mayJoin s first))

/-- The work done so far. -/
structure Progress where
  issued : Issued := ∅
  schedule : Schedule
deriving DecidableEq, Inhabited

/-- Issues the pair of a cycle; the partner takes the first slot if it may not
take the second. -/
def issuePair (p : IssueProblem) (w : Progress) (cycle first second : Nat) : Progress :=
  let mayTrail := p.slots.all fun s => s.maySecond second
  let (a, b) := if mayTrail then (first, second) else (second, first)
  { issued := (w.issued.insert first cycle).insert second cycle
    schedule := (w.schedule.place cycle false a).place cycle true b }

/-- One cycle. -/
def issueCycle (p : IssueProblem) (g : ConstraintGraph) (w : Progress) (cycle : Nat) : Progress :=
  match p.best g (p.ready g w.issued cycle) with
  | none => w
  | some first =>
    match p.partner g (w.issued.insert first cycle) cycle first with
    | none =>
      { issued := w.issued.insert first cycle
        schedule := w.schedule.place cycle false first }
    | some second => p.issuePair w cycle first second

/-- Cycles until everything is issued, at most as many as allowed. -/
def issueFrom (p : IssueProblem) (g : ConstraintGraph) :
    (cycles cycle : Nat) → Progress → Except Progress Progress
  | cycles, cycle, w =>
    if p.size ≤ w.issued.size then .ok w
    else
      match cycles with
      | 0 => .error w
      | cycles + 1 => p.issueFrom g cycles (cycle + 1) (p.issueCycle g w cycle)

/-- The last cycle that may be needed. -/
def cycleLimit (p : IssueProblem) (g : ConstraintGraph) : Int64 :=
  let waits := (List.range p.size).map p.traits.latency ++
    g.preds.flatMap fun m => m.values.map Constraint.distance
  Int64.ofNat p.size * (waits.foldl max 0 + 1) + 1

/-- A schedule of the instructions. -/
def schedule (p : IssueProblem) : Outcome Schedule :=
  let g := p.constraints
  let limit := p.cycleLimit g
  let blank : Schedule :=
    { dual := p.slots.isSome, long := (List.range p.size).map p.isLong }
  match p.issueFrom g (limit.toInt + 1).toNat 0 { schedule := blank } with
  | .ok w => .ok w.schedule
  | .error w =>
    reject (Cause.unscheduled (p.size - w.issued.size) p.size limit).finding

end IssueProblem
end ConstantTime
