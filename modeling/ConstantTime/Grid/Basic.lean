/-
# Tables on a terminal

"Single-Path Constant-Time Transformation Engine", §12.8.

A grid has a header, rows and sometimes a footer and a caption.  Cells are
broken into lines of at most thirty columns; a column is as wide as its widest
cell.  Headers and footers are centred capitals, numbers stand at the right and
everything else at the left.
-/

import ConstantTime.Text.Blank
import ConstantTime.Text.Wrap

namespace ConstantTime

/-- A table. -/
structure Grid where
  header : List String
  rows : List (List String) := []
  footer : List String := []
  caption : Option String := none
deriving DecidableEq, Repr, Inhabited

namespace Grid

/-- The widest cell that is not broken. -/
def cellLimit : Nat := 30

/-- The text of a cell as lines, and the columns it needs. -/
def cell (s : String) : List String × Nat :=
  let lines := s.splitOn "\n"
  let w := min cellLimit (Text.widestShown lines)
  let broken := Text.wrap w (String.intercalate " " lines)
  (broken, max w (Text.widestShown broken))

/-- All rows of cells. -/
def allRows (g : Grid) : List (List String) := [g.header, g.footer] ++ g.rows

/-- The width of a column. -/
def columnWidth (g : Grid) (i : Nat) : Nat :=
  (g.allRows.filterMap fun r => r[i]?).foldl (fun n s => max n (cell s).2) 0

/-- The widths of all columns. -/
def widths (g : Grid) : List Nat := (List.range g.header.length).map g.columnWidth

/-- A line between rows. -/
def rule (ws : List Nat) : String :=
  "+" ++ String.join (ws.map fun w => String.ofList (List.replicate (w + 2) '-') ++ "+") ++ "\n"

/-- Several cells side by side, line by line; each line lists the pieces of the
cells with their widths, the empty text where a cell has no more lines. -/
def sideBySide (ws : List Nat) (cells : List String) : List (List (String × Nat)) :=
  let parts := cells.map fun s => (cell s).1
  let height := parts.foldl (fun n l => max n l.length) 0
  (List.range height).map fun k => (parts.map fun l => l[k]?.getD "").zip ws

/-! ### Headers and footers -/

/-- Is the character a digit or a blank? -/
def isDigitOrBlank (c : Char) : Bool := c.isDigit || c = ' '

/-- A heading with its separators as blanks: an underscore, and a point beside
something that is neither digit nor blank. -/
def spaced (before : Option Char) : List Char → List Char
  | [] => []
  | c :: rest =>
    let beside := (before.any fun x => !isDigitOrBlank x) ||
      (rest.head?.any fun x => !isDigitOrBlank x)
    let out := if c = '_' || (c = '.' && beside) then ' ' else c
    out :: spaced (some out) rest

/-- The characters without blanks at both ends. -/
def trimmed (cs : List Char) : List Char :=
  ((cs.dropWhile Text.isBlank).reverse.dropWhile Text.isBlank).reverse

/-- The text of a heading.  One that has nothing else is a blank. -/
def title (s : String) : String :=
  let t := String.ofList (trimmed (spaced none s.toList))
  if t = "" && s ≠ "" then " " else t.map Char.toUpper

/-- The lines of a header or footer; `closed` says after which columns a bar
stands. -/
def headingLines (ws : List Nat) (cells : List String) (closed : List Bool) : String :=
  String.join ((sideBySide ws cells).map fun line =>
    "|" ++ String.join ((line.zip closed).map fun ((s, w), bar) =>
      " " ++ Text.alignCentre w (title s) ++ (if bar then " |" else "  ")) ++ "\n")

/-- Has the first line of a cell any text? -/
def opensWithText (s : String) : Bool :=
  match (cell s).1 with
  | first :: _ => first ≠ ""
  | [] => false

/-! ### Rows -/

/-- Groups of three digits with commas between them, to the end or to a point. -/
def isGrouped : (fuel : Nat) → List Char → Bool
  | 0, _ => false
  | _ + 1, [] => true
  | _ + 1, '.' :: fraction => !fraction.isEmpty && fraction.all Char.isDigit
  | fuel + 1, ',' :: a :: b :: c :: rest =>
    a.isDigit && b.isDigit && c.isDigit && isGrouped fuel rest
  | _, _ => false

/-- Is it a number: digits, or groups of three of them, and perhaps a fraction? -/
def isNumber (s : String) : Bool :=
  let cs := trimmed s.toList
  let cs := if cs.head? = some '-' then cs.tail else cs
  let (ds, rest) := cs.span Char.isDigit
  !ds.isEmpty && (ds.length ≤ 3 || rest.head? ≠ some ',') && isGrouped (rest.length + 1) rest

/-- The lines of a row. -/
def rowLines (ws : List Nat) (cells : List String) : String :=
  String.join ((sideBySide ws cells).map fun line =>
    String.join (line.map fun (s, w) =>
      "| " ++ (if isNumber s then Text.alignRight w s else Text.alignLeft w s) ++ " ") ++ "|\n")

/-- The lines of the footer with a rule below. -/
def footerLines (g : Grid) (ws : List Nat) : String :=
  if g.footer.isEmpty then ""
  else headingLines ws g.footer (g.footer.map opensWithText) ++ rule ws

/-- The lines of the caption. -/
def captionLines (g : Grid) (ws : List Nat) : String :=
  match g.caption with
  | none => ""
  | some s =>
    String.join ((Text.wrap (ws.foldl (· + ·) 0 + 3 * ws.length + 2) s).map (· ++ "\n"))

/-- The table as text. -/
def text (g : Grid) : String :=
  let ws := g.widths
  rule ws ++ headingLines ws g.header (g.header.map fun _ => true) ++ rule ws ++
    String.join (g.rows.map (rowLines ws)) ++ rule ws ++ footerLines g ws ++ captionLines g ws

end Grid
end ConstantTime
