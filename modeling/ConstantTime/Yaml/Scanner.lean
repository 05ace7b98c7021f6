/-
# From characters to tokens

Tokens are put into a queue and taken from its front.  A key without a question
mark in front is only known by the colon after it, so that a token for the key
is put into the queue where the key began; such a place is a `Candidate`.  It
has to be on the line of the colon and not too far before it.  As long as the
token in front is a candidate, the queue grows; and it always holds three
tokens, because comments are told apart by what follows them.

In the block style, the column of a line decides which lists and tables go on
and which end.
-/

import ConstantTime.Yaml.Mark

namespace ConstantTime
namespace Yaml

/-- A place where a key may have begun. -/
structure Candidate where
  possible : Bool := false
  /-- Does a key have to begin here? -/
  required : Bool := false
  /-- The number of its token. -/
  token : Nat := 0
  index : Nat := 0
  line : Nat := 0
  column : Nat := 0
deriving DecidableEq, Repr, Inhabited

/-- The state of the scanner. -/
structure Scanner where
  cursor : Cursor
  started : Bool := false
  /-- The tokens that have not been taken. -/
  queue : List Token := []
  /-- How many have been taken. -/
  taken : Nat := 0
  /-- May the token in front be taken? -/
  ready : Bool := false
  /-- The column of the innermost list or table in the block style. -/
  indent : Int := -1
  /-- The columns of those around it, innermost first. -/
  outer : List Int := []
  /-- How many brackets are open. -/
  flow : Nat := 0
  /-- May a key without a question mark begin here? -/
  keyAllowed : Bool := false
  /-- The candidates, one for each open bracket and one outside, innermost first. -/
  candidates : List Candidate := []
  /-- The numbers of tokens that are candidates, and for how many brackets. -/
  candidateTokens : List (Nat × Nat) := []
deriving Inhabited

/-- A step of scanning, which may fail. -/
abbrev Scanning := StateT Scanner Option

/-- Reads characters. -/
def lex {α : Type} (step : Lexing α) : Scanning α := fun s =>
  (step s.cursor).map fun (a, c) => (a, { s with cursor := c })

/-- How deep brackets or blocks may be nested. -/
def deepest : Nat := 10000

/-! ### The queue -/

/-- Puts a token at the end of the queue. -/
def emit (t : Token) : Scanning Unit := modify fun s => { s with queue := s.queue ++ [t] }

/-- Puts a token in front of the one with a number; if that has been taken, at the
end. -/
def emitBefore (number : Nat) (t : Token) : Scanning Unit := modify fun s =>
  if number < s.taken then { s with queue := s.queue ++ [t] }
  else
    let k := number - s.taken
    { s with queue := s.queue.take k ++ t :: s.queue.drop k }

/-- The number of the next token. -/
def Scanner.nextToken (s : Scanner) : Nat := s.taken + s.queue.length

/-! ### Candidates -/

/-- Forgets that the token with a number is a candidate. -/
def Scanner.forget (s : Scanner) (token : Nat) : Scanner :=
  { s with candidateTokens := s.candidateTokens.filter fun p => p.1 ≠ token }

/-- Changes the innermost candidate. -/
def Scanner.setCandidate (s : Scanner) (k : Candidate) : Scanner :=
  { s with candidates := k :: s.candidates.tail }

/-- The innermost candidate. -/
def Scanner.candidate (s : Scanner) : Candidate := s.candidates.head?.getD {}

/-- Gives up the innermost candidate, which is an error if a key has to begin
there. -/
def dropCandidate : Scanning Unit := do
  let s ← get
  let k := s.candidate
  if k.possible then
    if k.required then failure
    set ((s.setCandidate { k with possible := false }).forget k.token)

/-- Makes the next token a candidate, if a key may begin here. -/
def saveCandidate : Scanning Unit := do
  let s ← get
  if s.keyAllowed then
    let c := s.cursor
    let k : Candidate := {
      possible := true
      required := s.flow = 0 && s.indent = c.column
      token := s.nextToken
      index := c.index
      line := c.line
      column := c.column }
    dropCandidate
    modify fun s =>
      { (s.forget k.token).setCandidate k with
        candidateTokens := (k.token, s.candidates.length - 1) ::
          (s.forget k.token).candidateTokens }

/-- How far before its colon a key may begin. -/
def keyReach : Nat := 1024

/-- Is a candidate out of reach? -/
def Candidate.isStale (k : Candidate) (c : Cursor) : Bool :=
  k.line < c.line || k.index + keyReach < c.index

/-- May a candidate still become a key?  One that has to is an error otherwise. -/
def Candidate.check (k : Candidate) (c : Cursor) : Option Bool :=
  if !k.possible then some false
  else if k.isStale c then (if k.required then none else some false)
  else some true

/-! ### Brackets and columns -/

/-- Opens a bracket. -/
def openBracket : Scanning Unit := do
  modify fun s =>
    { s with flow := s.flow + 1, candidates := { token := s.nextToken } :: s.candidates }
  if deepest < (← get).flow then failure

/-- Closes a bracket. -/
def closeBracket : Scanning Unit := modify fun s =>
  if s.flow = 0 then s
  else
    { s.forget s.candidate.token with flow := s.flow - 1, candidates := s.candidates.tail }

/-- Begins a list or table at a column, if that is further right than the one
around it. -/
def beginBlock (col : Nat) (put : Scanning Unit) : Scanning Unit := do
  let s ← get
  if s.flow = 0 && s.indent < col then
    if deepest < s.outer.length + 1 then failure
    set { s with outer := s.indent :: s.outer, indent := col }
    put

/-- Ends lists and tables that are further right than a column. -/
def endBlocks (col : Int) : List Int → Scanning Unit
  | [] => return
  | up :: outer => do
    if col < (← get).indent then
      emit .blockEnd
      modify fun s => { s with indent := up, outer }
      endBlocks col outer

/-- Ends what is further right than a column, unless a bracket is open. -/
def dedent (col : Int) : Scanning Unit := do
  let s ← get
  if s.flow = 0 then endBlocks col s.outer

/-! ### Between tokens -/

/-- How far a comment is looked for. -/
def commentReach : Nat := 512

/-- The number of characters of a kind that come first, if they end with a comment;
`seen` have been looked at. -/
def commentAhead (kind : Char → Bool) : (fuel seen : Nat) → Lexing (Option Nat)
  | 0, _ => return none
  | fuel + 1, seen => do
    need (seen + 1)
    let c ← ahead seen
    if kind c then commentAhead kind fuel (seen + 1)
    else return if c = '#' then some seen else none

/-- Skips a number of blanks and line ends. -/
def skipGap (stop : Nat) : (fuel : Nat) → Lexing Unit
  | 0 => return
  | fuel + 1 => do
    need 1
    if (← get).index < stop then
      if isBreak (← here) then
        need 2
        skipBreak
      else skip
      skipGap stop fuel

/-- Skips what comes in front of a comment, and the comment up to the end of its
line. -/
def skipComment (before : Nat) : Lexing Unit := do
  let stop := (← get).index + before
  skipGap stop (before + 1)
  need 1
  skipWhile (fun c => !isLineEnd c) (← stepsLeft)

/-- Skips a comment on the line of the last token. -/
def lineComment : Lexing Unit := do
  if (← get).newlines = 0 then
    match ← commentAhead isBlank commentReach 0 with
    | none => return
    | some n => skipComment n

/-- Does a character stand between two comments?  Of the line ends only those of one
byte do. -/
def isBetweenComments (c : Char) : Bool := isBlank c || c = '\n' || c = '\r'

/-- Skips more comments below one, up to the end of the last of them. -/
def moreComments : (fuel : Nat) → Lexing Unit
  | 0 => return
  | fuel + 1 => do
    let c ← here
    if c.toNat < 0x80 then
      match ← commentAhead isBetweenComments (commentReach - 1) 1 with
      | none => return
      | some n =>
        skipComment n
        moreComments fuel
    else return

/-- Skips a comment and those below it. -/
def comments : Lexing Unit := do
  skipComment 0
  moreComments (← stepsLeft)

/-- Skips blanks, comments and line ends.  A tab is only skipped where no key may
begin. -/
def toNextToken : (fuel : Nat) → Scanning Unit
  | 0 => return
  | fuel + 1 => do
    lex (need 1)
    let c := (← get).cursor
    if c.column = 0 && c.marked then lex skip
    lex (need 1)
    let s ← get
    let tabs := s.flow > 0 || !s.keyAllowed
    lex (do skipWhile (fun c => c = ' ' || (tabs && c = '\t')) (← stepsLeft))
    if (← lex here) = '#' then lex comments
    if isBreak (← lex here) then
      lex (need 2)
      lex skipBreak
      if (← get).flow = 0 then modify fun s => { s with keyAllowed := true }
      toNextToken fuel

/-! ### Tokens -/

/-- Says whether a key may follow. -/
def allowKey (b : Bool) : Scanning Unit := modify fun s => { s with keyAllowed := b }

/-- The beginning of the stream. -/
def scanStart : Scanning Unit := do
  modify fun s => { s with started := true, keyAllowed := true, candidates := [{}] }
  emit .streamStart

/-- Ends every block and gives up the last candidate. -/
def endAll : Scanning Unit := do
  dedent (-1)
  dropCandidate
  allowKey false

/-- The end of the stream. -/
def scanEnd : Scanning Unit := do
  modify fun s =>
    if s.cursor.column = 0 then s
    else { s with cursor := { s.cursor with column := 0, line := s.cursor.line + 1 } }
  endAll
  emit .streamEnd

/-- A line that separates documents. -/
def scanSeparator (t : Token) : Scanning Unit := do
  endAll
  lex (skipMany 3)
  emit t

/-- An opening bracket. -/
def scanOpening (t : Token) : Scanning Unit := do
  saveCandidate
  openBracket
  allowKey true
  lex skip
  emit t

/-- A closing bracket. -/
def scanClosing (t : Token) : Scanning Unit := do
  dropCandidate
  closeBracket
  allowKey false
  lex skip
  emit t

/-- A comma. -/
def scanComma : Scanning Unit := do
  dropCandidate
  allowKey true
  lex skip
  emit .comma

/-- Begins a block here; outside of brackets that is only allowed where a key is. -/
def beginHere (t : Token) : Scanning Unit := do
  let s ← get
  if s.flow = 0 then
    if !s.keyAllowed then failure
    beginBlock s.cursor.column (emit t)

/-- A dash. -/
def scanItem : Scanning Unit := do
  beginHere .blockListStart
  dropCandidate
  allowKey true
  lex skip
  emit .item

/-- A question mark. -/
def scanKey : Scanning Unit := do
  beginHere .blockTableStart
  dropCandidate
  allowKey ((← get).flow = 0)
  lex skip
  emit .key

/-- A colon: the innermost candidate becomes a key. -/
def scanValue : Scanning Unit := do
  let s ← get
  let k := s.candidate
  match k.check s.cursor with
  | none => failure
  | some true =>
    emitBefore k.token .key
    beginBlock k.column (emitBefore k.token .blockTableStart)
    modify fun s => (s.setCandidate { k with possible := false }).forget k.token
    allowKey false
  | some false =>
    modify fun s => s.setCandidate { k with possible := false }
    beginHere .blockTableStart
    allowKey (s.flow = 0)
  lex skip
  emit .value

/-- A token that may be a key. -/
def scanWord (word : Lexing Token) : Scanning Unit := do
  saveCandidate
  allowKey false
  emit (← lex word)

/-- A scalar between quotes. -/
def scanQuoted (quote : Char) : Scanning Unit :=
  scanWord do
    skip
    return .scalar false (← quoted quote (← stepsLeft) {}).text

/-- A scalar without quotes.  A key may follow it on the next line. -/
def scanPlain : Scanning Unit := do
  saveCandidate
  allowKey false
  let s ← get
  let d ← lex (do plain (s.flow > 0) (s.indent + 1).toNat (← stepsLeft) {})
  emit (.scalar true d.text)
  if d.broken then allowKey true

/-- A scalar after a bar or an angle. -/
def scanBlock (literal : Bool) : Scanning Unit := do
  dropCandidate
  allowKey true
  emit (.scalar false (← lex (block literal (← get).indent)))

/-- May a scalar without quotes begin with a character, with the one after it? -/
def startsPlain (c next : Char) : Bool :=
  !(isWordEnd c || "-?:,[]\x7b\x7d#&*!|>\x27\x22%@\x60".toList.contains c) ||
    (c = '-' && !isBlank next) || ((c = '?' || c = ':') && !isWordEnd next)

/-- A token that is no separator. -/
def scanToken (c next : Char) : Scanning Unit := do
  let inFlow := (← get).flow > 0
  if c = '[' then scanOpening .listStart
  else if c = '\x7b' then scanOpening .tableStart
  else if c = ']' then scanClosing .listEnd
  else if c = '\x7d' then scanClosing .tableEnd
  else if c = ',' then scanComma
  else if c = '-' && isWordEnd next then scanItem
  else if c = '?' && (inFlow || isWordEnd next) then scanKey
  else if c = ':' && (inFlow || isWordEnd next) then scanValue
  else if c = '*' then scanWord (do return .alias (← anchorName))
  else if c = '&' then scanWord (do return .anchor (← anchorName))
  else if c = '!' then scanWord tag
  else if c = '|' && !inFlow then scanBlock true
  else if c = '>' && !inFlow then scanBlock false
  else if c = '\x27' || c = '\x22' then scanQuoted c
  else if startsPlain c next then scanPlain
  else failure
  if !(c = '-' && isWordEnd next) then lex lineComment

/-- Puts the next token into the queue, with those that it implies. -/
def scanNext : Scanning Unit := do
  lex (need 1)
  if !(← get).started then scanStart
  else
    toNextToken (← lex stepsLeft)
    dedent (← get).cursor.column
    lex (need 4)
    let c ← lex here
    let col := (← get).cursor.column
    if c = ending then scanEnd
    else if col = 0 && c = '%' then
      endAll
      emit (← lex directive)
    else if ← lex atSeparator then
      scanSeparator (if c = '-' then .documentStart else .documentEnd)
    else scanToken c (← lex (ahead 1))

/-- Is the token in front a candidate for a key? -/
def frontIsCandidate : Scanning Bool := do
  let s ← get
  match s.candidateTokens.find? fun p => p.1 = s.taken with
  | none => return false
  | some (_, level) =>
    match s.candidates.reverse[level]? with
    | none => return false
    | some k =>
      match k.check s.cursor with
      | none => failure
      | some true => return true
      | some false =>
        let left := s.candidates.reverse.set level { k with possible := false }
        set { s with candidates := left.reverse }
        return false

/-- Puts tokens into the queue until the one in front is settled. -/
def fill : (fuel : Nat) → Scanning Unit
  | 0 => failure
  | fuel + 1 => do
    if 3 ≤ (← get).queue.length then
      if !(← frontIsCandidate) then
        modify fun s => { s with ready := true }
        return
    scanNext
    fill fuel

/-- The token in front. -/
def peek : Scanning Token := do
  if !(← get).ready then fill (4 + (← lex stepsLeft))
  match (← get).queue with
  | t :: _ => return t
  | [] => failure

/-- Takes the token in front. -/
def advance : Scanning Unit := modify fun s =>
  { s with queue := s.queue.tail, taken := s.taken + 1, ready := false }

end Yaml
end ConstantTime
