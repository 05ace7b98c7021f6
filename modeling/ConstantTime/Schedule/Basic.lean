/-
# Issue schedules

"Single-Path Constant-Time Transformation Engine", §3 and §12.6.

A schedule maps positions to instructions.  In single issue a position is a
cycle; in dual issue the positions `2k` and `2k + 1` are the two slots of bundle
`k`.  A position without an instruction is empty.  Instructions are given by
number and an empty slot by `noInstr`.

A schedule that was tampered with may hold other numbers, which `verify` reports, and
positions below zero.  These are in no bundle: whatever goes through the bundles breaks
off there, and what it says is the error of the result.
-/

import ConstantTime.Diagnostic.Cause
import ConstantTime.Ordered.Map

namespace ConstantTime

/-- The number that stands for an empty slot. -/
def noInstr : Int := -1

/-- Which instruction is issued where. -/
structure Schedule where
  positions : OrderedMap Int Int := ∅
  dual : Bool
  /-- For each instruction, does it fill a bundle alone? -/
  long : List Bool
deriving DecidableEq, Inhabited

namespace Schedule

/-- The number of instructions. -/
def size (s : Schedule) : Nat := s.long.length

/-- Puts an instruction into a slot of a bundle. -/
def place (s : Schedule) (cycle : Nat) (second : Bool) (i : Nat) : Schedule :=
  let pos : Int := if s.dual then 2 * cycle + (if second then 1 else 0) else cycle
  { s with positions := s.positions.insert pos i }

/-- The number of bundles. -/
def cycles (s : Schedule) : Nat :=
  match s.positions.keys.getLast? with
  | none => 0
  | some last => if last < 0 then 0 else (if s.dual then last.toNat / 2 else last.toNat) + 1

/-- What is at a position. -/
def slot (s : Schedule) (pos : Int) : Int := s.positions.getD pos noInstr

/-- The first position that is in no bundle, if there is one. -/
def misplaced? (s : Schedule) : Option Int := s.positions.keys.find? (· < 0)

/-- What is said when the slot of a position is asked for that is in no bundle. -/
def outOfRange (s : Schedule) (pos : Int) : String :=
  let bundle := if s.dual then pos.tdiv 2 else pos
  let index :=
    if bundle < 0 then s!"[{bundle}]"
    else if s.cycles = 0 then s!"[{bundle}] with length 0"
    else s!"[{pos.tmod 2}]"
  s!"runtime error: index out of range {index}"

/-- The two slots of each bundle, as far as positions are in bundles. -/
def rows (s : Schedule) : List (Int × Int) :=
  (List.range s.cycles).map fun (k : Nat) =>
    if s.dual then (s.slot (2 * k), s.slot (2 * k + 1)) else (s.slot k, noInstr)

/-- The two slots of each bundle.  Filling them breaks off at a position below zero. -/
def bundles (s : Schedule) : Except String (List (Int × Int)) :=
  match s.misplaced? with
  | some pos => .error (s.outOfRange pos)
  | none => .ok s.rows

/-- The instructions in their new order; an empty first slot shows. -/
def order (s : Schedule) : Except String (List Int) :=
  s.bundles.map fun bs => bs.flatMap fun (a, b) => if b = noInstr then [a] else [a, b]

/-- The number of bundles that need a no-op. -/
def noOps (s : Schedule) : Except String Nat :=
  s.bundles.map fun bs => bs.countP fun b => b.1 = noInstr

/-- The number of long instructions. -/
def longCount (s : Schedule) : Nat := s.long.countP id

/-- How many bundles a delayed instruction leaves empty behind it. -/
def delaySlotCount : Nat := 3

/-- The bundles with the empty ones that delayed instructions need. -/
def withDelaySlots (s : Schedule) (delayed : Int → Bool) : Except String (List (Int × Int)) :=
  s.bundles.map fun bs => bs.flatMap fun b =>
    if (b.1 ≠ noInstr && delayed b.1) || (b.2 ≠ noInstr && delayed b.2) then
      b :: List.replicate delaySlotCount (noInstr, noInstr)
    else [b]

/-- Is the instruction long? -/
def isLong (s : Schedule) (i : Int) : Bool := (s.long[i.toNat]?).getD false

/-- What is wrong with the instruction at a position. -/
def faultsAt (s : Schedule) (pos i : Int) : List Cause :=
  if i < 0 || (s.size : Int) ≤ i then [.unknownInstruction pos i]
  else if !s.dual || !s.isLong i then []
  else if pos % 2 ≠ 0 then [.longAt i pos]
  else ((s.positions.get? (pos + 1)).map fun other => Cause.longWith i other).toList

/-- How often an instruction is issued. -/
def timesIssued (s : Schedule) (i : Nat) : Nat := s.positions.values.countP (· = (i : Int))

/-- All that is wrong with a schedule: instructions that are not issued exactly
once, and long ones that do not have a bundle of their own. -/
def faults (s : Schedule) : List Cause :=
  s.positions.entries.flatMap (fun (pos, i) => s.faultsAt pos i) ++
    (List.range s.size).filterMap fun i =>
      if s.timesIssued i = 1 then none else some (.issuedTimes i (s.timesIssued i))

/-- All that is wrong, in the order of the texts. -/
def verify (s : Schedule) : Option Failure :=
  Failure.combine ((s.faults.map Cause.finding).mergeSort
    (fun a b => a.text .english ≤ b.text .english) |>.map .finding)

/-- A slot as text. -/
def slotText (i : Int) : String := if i = noInstr then "nop" else toString i

/-- The schedule, a line for each bundle. -/
def text (s : Schedule) : Except String String :=
  s.bundles.map fun bs => String.join (bs.zipIdx.map fun (b, k) =>
    let second := if s.dual && b.2 ≠ noInstr then s!" | {slotText b.2}" else ""
    s!"{k}: {slotText b.1}{second}\n")

end Schedule
end ConstantTime
