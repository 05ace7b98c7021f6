/-
# Counting down

"Single-Path Constant-Time Transformation Engine", §12.5.

The entry loads the greatest number of accesses into a counter; the amounts on
the edges are taken off it; at the end what is left is handed to a function
that performs as many accesses.

Each block has a register that holds the counter at its end.  A block with one
predecessor shares the register of that predecessor, or subtracts the amount on
the edge; a block where several ways meet gets a register of its own, the
predecessors subtract before they branch, and the results are joined at its
start.  Such a block waits until all its predecessors have a register.
-/

import ConstantTime.Access.Compensation

namespace ConstantTime

/-- The registers of the counter. -/
inductive Register where
  /-- A register for the counter at some place. -/
  | virtual (n : Nat)
  /-- The argument that says how much there is to compensate. -/
  | most
  /-- The argument that says how much is left. -/
  | remaining
deriving DecidableEq, Repr, Inhabited

/-- The register as text. -/
def Register.text : Register → String
  | .virtual n => s!"%c{n}"
  | .most => "r23"
  | .remaining => "r24"

/-- What an instruction of the counter does.  A long form takes an operand that
does not fit an immediate. -/
inductive CounterCode where
  /-- Loads a number; if negated, only while the function is disabled. -/
  | load (long : Bool) (dst : Register) (value : Int64) (negated : Bool)
  /-- Takes a number off the counter. -/
  | subtract (long : Bool) (dst src : Register) (value : Int64)
  /-- The counter of the predecessor that control came from. -/
  | select (dst : Register) (sources : List (Register × BlockId))
  | copy (dst src : Register)
  /-- Calls the function that performs what is left. -/
  | call (symbol : String)
deriving DecidableEq, Repr, Inhabited

namespace CounterCode

/-- The name of the operation. -/
def op : CounterCode → String
  | .load false _ _ _ => "LIi"
  | .load true _ _ _ => "LIl"
  | .subtract false _ _ _ => "SUBi"
  | .subtract true _ _ _ => "SUBl"
  | .select _ _ => "PHI"
  | .copy _ _ => "COPY"
  | .call _ => "CALLND"

/-- The register that is written. -/
def dst? : CounterCode → Option Register
  | .load _ d _ _ => some d
  | .subtract _ d _ _ => some d
  | .select d _ => some d
  | .copy d _ => some d
  | .call _ => none

/-- The registers that are read. -/
def srcs : CounterCode → List Register
  | .load _ _ _ _ => []
  | .subtract _ _ s _ => [s]
  | .select _ l => l.map Prod.fst
  | .copy _ s => [s]
  | .call _ => [.most, .remaining]

/-- The blocks that the sources come from. -/
def incoming : CounterCode → List BlockId
  | .select _ l => l.map Prod.snd
  | _ => []

/-- The number in the instruction. -/
def value : CounterCode → Int64
  | .load _ _ n _ => n
  | .subtract _ _ _ n => n
  | _ => 0

/-- Is it executed only while the function is disabled? -/
def isNegated : CounterCode → Bool
  | .load _ _ _ n => n
  | _ => false

/-- The function that is called. -/
def symbol : CounterCode → String
  | .call s => s
  | _ => ""

/-- The operands as text. -/
def operands : CounterCode → String
  | .load _ _ n _ => s!" {n}"
  | .subtract _ _ s n => s!" {s.text}, {n}"
  | .select _ l => String.join (l.map fun (r, b) => s!" [{r.text}, {b.label}]")
  | .copy _ s => s!" {s.text}"
  | .call s => s!" {s}"

/-- The instruction as text. -/
def text (c : CounterCode) : String :=
  let guard := if c.isNegated then "(!p0) " else ""
  let target := match c.dst? with
    | some d => s!" {d.text} ="
    | none => ""
  guard ++ c.op ++ target ++ c.operands

end CounterCode

/-- Where in a block an instruction goes. -/
inductive CodePlace where
  | start
  | beforeBranch
deriving DecidableEq, Repr, Inhabited

/-- The place as text. -/
def CodePlace.text : CodePlace → String
  | .start => "start"
  | .beforeBranch => "before_branch"

/-- An instruction of the counter and where it goes. -/
structure CounterInstr where
  block : BlockId
  place : CodePlace
  code : CounterCode
deriving DecidableEq, Repr, Inhabited

/-- The code of a counter. -/
structure CounterPlan where
  instrs : List CounterInstr := []
  /-- The register that holds the counter at the end of each block. -/
  registers : OrderedMap BlockId Register := ∅
  /-- The number of instructions that are certainly added. -/
  cost : Nat := 0
deriving DecidableEq, Inhabited

namespace CounterPlan

/-- The instructions that go into a block. -/
def inBlock (p : CounterPlan) (b : BlockId) : List CounterInstr :=
  p.instrs.filter fun i => i.block = b

/-- The plan under construction. -/
structure Draft where
  plan : CounterPlan := {}
  /-- How many virtual registers have been given out. -/
  used : Nat := 0
  queue : List BlockId
deriving DecidableEq, Inhabited

namespace Draft

/-- A new virtual register. -/
def fresh (d : Draft) : Draft × Register :=
  ({ d with used := d.used + 1 }, .virtual (d.used + 1))

/-- Adds an instruction. -/
def emit (d : Draft) (b : BlockId) (place : CodePlace) (code : CounterCode) : Draft :=
  { d with plan := { d.plan with instrs := d.plan.instrs ++ [⟨b, place, code⟩] } }

/-- Adds an instruction that counts. -/
def emitPaid (d : Draft) (b : BlockId) (place : CodePlace) (code : CounterCode) : Draft :=
  let d := d.emit b place code
  { d with plan := { d.plan with cost := d.plan.cost + 1 } }

/-- Gives a block its register. -/
def assign (d : Draft) (b : BlockId) (r : Register) : Draft :=
  { d with plan := { d.plan with registers := d.plan.registers.insert b r } }

/-- The register of a block. -/
def register (d : Draft) (b : BlockId) : Register := d.plan.registers.getD b (.virtual 0)

/-- Has the block a register? -/
def hasRegister (d : Draft) (b : BlockId) : Bool := d.plan.registers.contains b

end Draft

/-- Queues the successors of a block that have no register yet. -/
def queueSuccs (g : Graph) (d : Draft) (b : BlockId) : Draft :=
  { d with queue :=
    ((g.succs b).filter fun s => s ≠ b && !d.hasRegister s).foldl enqueue d.queue }

/-- Loads the counter.  A function of one block has no edges to subtract on, so
nothing is left of its counter from the start. -/
def loadEntry (g : Graph) (width most : Int64) (d : Draft) (b : BlockId) : Draft :=
  let (d, r) := d.fresh
  let (r, n) := if g.size = 1 then (Register.remaining, 0) else (r, most)
  (d.assign b r).emitPaid b .beforeBranch (.load (width < n) r n false)

/-- Continues the counter of the only predecessor. -/
def continueFrom (g : Graph) (c : EdgeAmounts) (width : Int64) (d : Draft) (p b : BlockId) :
    Outcome Draft :=
  match c.get? ⟨p, b⟩ with
  | none => .ok (d.assign b (d.register p))
  | some n =>
    if width < n then
      reject ((Cause.decrementTooWide n width).finding.inFunction g.name
        |>.atBlock (g.nameOf b))
    else
      let (d, r) := d.fresh
      .ok ((d.assign b r).emitPaid b .start (.subtract false r (d.register p) n))

/-- Subtracts the amount on one edge into a block where several ways meet. -/
def subtractOn (c : EdgeAmounts) (width : Int64) (b : BlockId)
    (acc : Draft × List (Register × BlockId)) (p : BlockId) :
    Draft × List (Register × BlockId) :=
  let (d, sources) := acc
  let src := d.register p
  let n := c.on p b
  if n = 0 then (d, sources ++ [(src, p)])
  else
    let (d, r) := d.fresh
    (d.emitPaid p .beforeBranch (.subtract (width < n) r src n), sources ++ [(r, p)])

/-- Joins the counters of all predecessors, or waits for them. -/
def joinPreds (g : Graph) (c : EdgeAmounts) (width : Int64) (d : Draft) (b : BlockId) :
    Draft :=
  let d :=
    if d.hasRegister b then d
    else
      let (d, r) := d.fresh
      d.assign b r
  if (g.preds b).all d.hasRegister then
    let (d, sources) := (g.preds b).foldl (subtractOn c width b) (d, [])
    d.emit b .start (.select (d.register b) sources)
  else { d with queue := enqueue d.queue b }

/-- Treats one block. -/
def step (g : Graph) (c : EdgeAmounts) (width most : Int64) (d : Draft) (b : BlockId) :
    Outcome Draft :=
  let d := queueSuccs g d b
  match g.preds b with
  | [] => .ok (loadEntry g width most d b)
  | [p] => continueFrom g c width d p b
  | _ => .ok (joinPreds g c width d b)

/-- Treats the blocks of the queue, at most as many as allowed. -/
def drain (g : Graph) (c : EdgeAmounts) (width most : Int64) :
    (steps : Nat) → Draft → Outcome (Option Draft)
  | steps, d =>
    match d.queue with
    | [] => .ok (some d)
    | b :: rest =>
      match steps with
      | 0 => .ok none
      | steps + 1 => do
        drain g c width most steps (← step g c width most { d with queue := rest } b)

/-- Hands over what is left at the end.  A function that may be disabled then
hands over everything. -/
def handOver (width total : Int64) (symbol : String) (rootLike : Bool) (d : Draft)
    (e : BlockId) : CounterPlan :=
  let long := decide (width < total)
  let d := d.emit e .beforeBranch (.load long .most total false)
  let d := d.emit e .beforeBranch (.copy .remaining (d.register e))
  let d := if rootLike then d else d.emit e .beforeBranch (.load long .remaining total true)
  let d := d.emit e .beforeBranch (.call symbol)
  { d.plan with cost := d.plan.cost + 3 }

/-- How many blocks the placement may treat. -/
def stepLimit (g : Graph) (limit : Int64) : Int64 := limit * Int64.ofNat (g.size + 1)

/-- The code of a counter for amounts on edges and the range of a whole
execution. -/
def ofAmounts (g : Graph) (c : EdgeAmounts) (range : AccessRange) (rootLike : Bool)
    (config : Config) : Outcome CounterPlan :=
  let width := config.immediateWidth
  let steps := stepLimit g config.maxIterations
  if range.width = 0 then reject (Cause.nothingToCompensate.finding.inFunction g.name)
  else
    match g.end? with
    | none => reject ((Cause.exitBlocks g.ends.length).finding.inFunction g.name)
    | some e => do
      match ← drain g c width range.max (if steps < 0 then 0 else steps.toInt.toNat + 1)
          { queue := [g.entry] } with
      | none => reject ((Cause.counterLimit steps).finding.inFunction g.name)
      | some d =>
        if d.hasRegister e then
          return handOver width range.width config.compensationFunction rootLike d e
        else
          reject (Cause.noEndCounter.finding.inFunction g.name |>.atBlock (g.nameOf e))

end CounterPlan
end ConstantTime
