/-
# Tokens of YAML

What a YAML text consists of once its characters are read: brackets, the ends
and beginnings that indentation stands for, names, and scalars.
-/

namespace ConstantTime
namespace Yaml

/-- A token. -/
inductive Token where
  | streamStart
  | streamEnd
  /-- The version that a document says it has. -/
  | version (major minor : Nat)
  /-- What the beginning of tags stands for. -/
  | handle (name root : String)
  | documentStart
  | documentEnd
  | blockListStart
  | blockTableStart
  | blockEnd
  | listStart
  | listEnd
  | tableStart
  | tableEnd
  /-- A dash. -/
  | item
  /-- A comma. -/
  | comma
  | key
  | value
  | anchor (name : String)
  | alias (name : String)
  | tag (handle suffix : String)
  | scalar (plain : Bool) (text : String)
deriving DecidableEq, Repr, Inhabited

namespace Token

/-- Does a part of the text begin or end that is a document of its own? -/
def isOutside : Token → Bool
  | .version _ _ => true
  | .handle _ _ => true
  | .documentStart => true
  | .documentEnd => true
  | .streamEnd => true
  | _ => false

end Token
end Yaml
end ConstantTime
