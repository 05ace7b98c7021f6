/-
# Findings

"Single-Path Constant-Time Transformation Engine", §10.2.

A finding is one complaint: how severe it is, its code, what is wrong and
where.  What is wrong is data (`Phrase`), not finished text, because the
standard texts exist in several languages; the language is chosen when a
finding is written out.

The third digit of a code gives its family: `SP01xx` rejects the input,
`SP02xx` reports a broken invariant of the library itself, `SP03xx` is a soft
failure that the caller may live with.
-/

import ConstantTime.Diagnostic.Catalogue

namespace ConstantTime

/-- How severe a finding is. -/
inductive Level where
  | error
  | warning
  | note
  | unknown
deriving DecidableEq, Repr, Inhabited

namespace Level

/-- The word that opens a finding. -/
def text : Level → String
  | .error => "error"
  | .warning => "warning"
  | .note => "note"
  | .unknown => "unknown"

/-- The level with a number: 0 is the most severe. -/
def ofNumber : Int → Level
  | 0 => .error
  | 1 => .warning
  | 2 => .note
  | _ => .unknown

end Level

/-- The code of a finding. -/
structure Code where
  text : String
deriving DecidableEq, Repr, Inhabited

namespace Code

/-- Control flow with a loop of several entries. -/
def irreducible : Code := ⟨"SP0100"⟩
/-- A loop header without a bound. -/
def boundMissing : Code := ⟨"SP0101"⟩
/-- Not exactly one block without successors. -/
def severalExits : Code := ⟨"SP0102"⟩
/-- A decrement that does not fit an immediate operand. -/
def immediateWidth : Code := ⟨"SP0103"⟩
/-- A function without blocks. -/
def emptyFunction : Code := ⟨"SP0104"⟩
/-- A block that no path from the entry reaches. -/
def unreachable : Code := ⟨"SP0105"⟩
/-- A reference to a block that does not exist. -/
def unknownBlock : Code := ⟨"SP0106"⟩
/-- An edge into the entry block. -/
def entryPredecessors : Code := ⟨"SP0107"⟩
/-- A description that makes no sense. -/
def invalidDescription : Code := ⟨"SP0108"⟩
/-- An equivalence class without a unique root. -/
def classRoot : Code := ⟨"SP0200"⟩
/-- A long instruction in the second slot. -/
def longInSecondSlot : Code := ⟨"SP0201"⟩
/-- A long instruction that shares its bundle. -/
def longShared : Code := ⟨"SP0202"⟩
/-- Dependences that no schedule meets. -/
def unschedulable : Code := ⟨"SP0203"⟩
/-- A control dependence on an edge that does not exist. -/
def dependenceEdge : Code := ⟨"SP0204"⟩
/-- An iteration that ran past its limit. -/
def notConverged : Code := ⟨"SP0205"⟩
/-- A claimed dominator that does not dominate. -/
def unsoundDominator : Code := ⟨"SP0206"⟩
/-- Compensation that does not add up. -/
def notConserved : Code := ⟨"SP0207"⟩
/-- An instruction that was not issued exactly once. -/
def notIssuedOnce : Code := ⟨"SP0208"⟩
/-- An analysis that broke off. -/
def brokeOff : Code := ⟨"SP0209"⟩
/-- No bounded dominators of the end block. -/
def noBoundedDominators : Code := ⟨"SP0300"⟩

/-- Has the code the family digit, in a code of full length? -/
def inFamily (digit : Char) (c : Code) : Bool :=
  c.text.utf8ByteSize == 6 &&
    (match c.text.toList with
     | 'S' :: 'P' :: '0' :: d :: _ => d == digit
     | _ => false)

/-- Does the code report a broken invariant? -/
def isInternal (c : Code) : Bool := c.inFamily '2'

/-- Is the code a soft failure? -/
def isSoft (c : Code) : Bool := c.inFamily '3'

end Code

/-- A piece of text that may be in the catalogue. -/
inductive Phrase where
  /-- Text as it stands. -/
  | text (s : String)
  /-- The standard message of a code. -/
  | standard (code : Code)
  /-- A text of the catalogue. -/
  | catalogued (id : String)
deriving DecidableEq, Repr, Inhabited

/-- The phrase in a language. -/
def Phrase.render (lang : Language) : Phrase → String
  | .text s => s
  | .standard code => Catalogue.standardMessage lang code.text
  | .catalogued id => Catalogue.text lang id

/-- One complaint. -/
structure Finding where
  level : Level
  code : Code
  message : Phrase
  /-- The function it is about, or the empty text. -/
  function : String := ""
  /-- The block it is about, or the empty text. -/
  block : String := ""
  /-- The header of the loop it is about, or the empty text. -/
  loop : String := ""
  notes : List Phrase := []
deriving DecidableEq, Repr, Inhabited

namespace Finding

/-- The finding, located in a function. -/
def inFunction (f : Finding) (name : String) : Finding := { f with function := name }

/-- The finding, located at a block. -/
def atBlock (f : Finding) (name : String) : Finding := { f with block := name }

/-- The finding, located at a loop. -/
def atLoop (f : Finding) (name : String) : Finding := { f with loop := name }

/-- The finding with one more note. -/
def withNote (f : Finding) (n : Phrase) : Finding := { f with notes := f.notes ++ [n] }

/-- A fatal finding with the given message. -/
def fatal (code : Code) (message : Phrase) : Finding :=
  { level := .error, code := code, message := message }

/-- A fatal finding that blames the library. -/
def internal (code : Code) (message : Phrase) : Finding :=
  (fatal code message).withNote (.catalogued "note.internal")

/-- A finding that does not stop the work. -/
def warning (code : Code) (message : Phrase) : Finding :=
  { fatal code message with level := .warning }

/-- A message given as text, where the empty text asks for the standard one. -/
def messageOf (code : Code) (s : String) : Phrase :=
  if s = "" then .standard code else .text s

/-- Where the finding is: function, loop and block, as far as they are known. -/
def location (f : Finding) : String :=
  String.intercalate ", "
    (([("function ", f.function), ("loop ", f.loop), ("block ", f.block)].filter
      (fun p => p.2 ≠ "")).map (fun p => p.1 ++ p.2))

/-- The finding on one line, without its cause. -/
def text (lang : Language) (f : Finding) : String :=
  let head := s!"{f.level.text}[{f.code.text}]: {f.message.render lang}"
  if f.location = "" then head else s!"{head} ({f.location})"

end Finding
end ConstantTime
