/-
# Predicates of instructions

"Single-Path Constant-Time Transformation Engine", §12.4.

An instruction is executed always, or when the predicate of a class is set, or
when it is clear.  Two instructions are dependent unless it is certain that no
execution enables both.
-/

import ConstantTime.Predicate.Classes

namespace ConstantTime

/-- When an instruction is executed. -/
inductive Predicate where
  | always
  /-- When the predicate of the class is set, or clear if negated. -/
  | on (cls : Int) (negated : Bool)
deriving DecidableEq, Repr, Inhabited

namespace Predicate

/-- The predicate as text. -/
def text : Predicate → String
  | .always => "always"
  | .on c false => s!"p{c}"
  | .on c true => s!"!p{c}"

/-- The class of a predicate that has one. -/
def class? : Predicate → Option Int
  | .always => none
  | .on c _ => some c

/-- Is the predicate negated? -/
def isNegated : Predicate → Bool
  | .always => false
  | .on _ n => n

/-- May both predicates hold in one execution? -/
def dependent (related : Int → Int → Bool) : Predicate → Predicate → Bool
  | .always, _ => true
  | _, .always => true
  | .on a m, .on b n => if a = b then m == n else related a b || m || n

end Predicate
end ConstantTime
