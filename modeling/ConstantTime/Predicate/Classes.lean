/-
# Equivalence classes of blocks

"Single-Path Constant-Time Transformation Engine", §4.3 and §12.4.

Blocks with the same control dependences are executed together and share one
predicate.  Classes are numbered in the order of their first blocks; a class is
related to another if some execution that takes no back edge can pass both.

The root of a class is the member that all others post-dominate.
-/

import ConstantTime.Postdominance.ControlDependence

namespace ConstantTime

/-- Blocks with the same control dependences. -/
structure PredicateClass where
  deps : DependenceSet
  /-- The members, ascending. -/
  blocks : List BlockId
deriving DecidableEq, Inhabited

/-- The classes of a function, by number. -/
structure Classes where
  list : List PredicateClass
deriving DecidableEq, Inhabited

namespace Classes

/-- Puts a block into the class of its dependences, the last if there is none. -/
def place (deps : DependenceSet) (b : BlockId) : List PredicateClass → List PredicateClass
  | [] => [⟨deps, [b]⟩]
  | c :: rest =>
    if c.deps = deps then { c with blocks := c.blocks ++ [b] } :: rest
    else c :: place deps b rest

/-- The classes of a function; a block without dependences has the empty set. -/
def ofDependences (g : Graph) (d : Dependences) : Classes :=
  ⟨g.ids.foldl (fun cs b => place (d.of b) b cs) []⟩

/-- The number of classes. -/
def size (cs : Classes) : Nat := cs.list.length

/-- The number of the class of a block. -/
def classOf (cs : Classes) (b : BlockId) : Option Nat :=
  cs.list.findIdx? fun c => b ∈ c.blocks

/-- The members of a class. -/
def blocksOf (cs : Classes) (i : Nat) : List BlockId :=
  match cs.list[i]? with
  | some c => c.blocks
  | none => []

/-- A class as text. -/
def text (i : Nat) (c : PredicateClass) : String :=
  let deps := String.intercalate ", " (c.deps.toList.map Dependence.text)
  let blocks := String.intercalate ", " (c.blocks.map BlockId.label)
  s!"({i}) deps " ++ "\x7b" ++ deps ++ "\x7d blocks \x7b" ++ blocks ++ "\x7d"

/-! ### Roots -/

/-- The members of a class that all others post-dominate. -/
def rootsOf (p : Postdominators) (c : PredicateClass) : List BlockId :=
  c.blocks.filter fun r => c.blocks.all fun b => b = r || p.postdominates b r

/-- The only root of each class, where there is just one. -/
def roots (cs : Classes) (p : Postdominators) : List (Option BlockId) :=
  cs.list.map fun c =>
    match rootsOf p c with
    | [r] => some r
    | _ => none

/-- Complains about every class without exactly one root. -/
def verifyRoots (cs : Classes) (g : Graph) (p : Postdominators) : Option Failure :=
  Failure.combine (cs.list.zipIdx.filterMap fun (c, i) =>
    let found := rootsOf p c
    if found.length = 1 then none
    else some (.finding
      ((Cause.classRoots i found.length c.blocks.length).finding.inFunction g.name)))

/-! ### Related classes -/

/-- The successors of a block over edges that are not back edges. -/
def forwardSuccs (g : Graph) (b : BlockId) : List BlockId :=
  (g.succs b).filter fun s => !g.isBackEdge b s

/-- Does a path from the first class, without back edges, pass the second? -/
def leadsTo (cs : Classes) (g : Graph) (a b : Nat) : Bool :=
  let reached := closure g.toShape (forwardSuccs g) (cs.blocksOf a)
  (cs.blocksOf b).any (· ∈ reached)

/-- May both classes be enabled in one execution?  Of a class that does not exist
nothing is known, so it may. -/
def related (cs : Classes) (g : Graph) (a b : Int) : Bool :=
  if 0 ≤ a && a < cs.size && 0 ≤ b && b < cs.size then
    cs.leadsTo g a.toNat b.toNat || cs.leadsTo g b.toNat a.toNat
  else true

end Classes
end ConstantTime
