/-
# How a diagnostic is laid out

"Single-Path Constant-Time Transformation Engine", §10.2.

A diagnostic takes several lines: the finding, where it is, its cause, its
notes and what the user may do about it.

```text
error[SP0101]: loop bound missing
 --> function f, loop h
 = cause: …
 = note: …
 = help: …
```

Painted pieces stand between terminal escapes; painting needs both a layout
that asks for it and a palette that is switched on.
-/

import ConstantTime.Diagnostic.Failure

namespace ConstantTime

/-- What a diagnostic shows. -/
structure Layout where
  /-- Paint the pieces? -/
  colors : Bool := true
  /-- Is the terminal's palette switched on? -/
  palette : Bool := false
  notes : Bool := true
  hints : Bool := true
deriving DecidableEq, Repr, Inhabited

namespace Layout

/-- The terminal codes of a level. -/
def levelStyle : Level → String
  | .error => "31;1"
  | .warning => "33;1"
  | _ => "36;1"

/-- The terminal codes of locations and labels. -/
def labelStyle : String := "36"

/-- A painted piece. -/
def paint (l : Layout) (style piece : String) : String :=
  if l.colors && l.palette then s!"\x1b[{style}m{piece}\x1b[0m" else piece

/-- One line below the head: a painted label and plain text. -/
def labelled (l : Layout) (label text : String) : String :=
  s!" {l.paint labelStyle label} {text}\n"

/-- A finding with its cause, laid out. -/
def render (l : Layout) (lang : Language) (f : Finding) (cause : Option Failure) : String :=
  let style := levelStyle f.level
  let codeText := s!"[{f.code.text}]"
  let head :=
    s!"{l.paint style f.level.text}{l.paint style codeText}: {f.message.render lang}\n"
  let place :=
    if f.location = "" then "" else l.labelled "-->" (l.paint labelStyle f.location)
  let because :=
    match cause with
    | none => ""
    | some c => l.labelled "= cause:" (c.text lang)
  let label (id : String) : String := s!"= {Catalogue.text lang id}:"
  let notes :=
    if l.notes then
      String.join (f.notes.map fun n => l.labelled (label "label.note") (n.render lang))
    else ""
  let hints :=
    if l.hints then
      String.join ((Catalogue.suggestions lang f.code.text).map
        fun h => l.labelled (label "label.help") h)
    else ""
  head ++ place ++ because ++ notes ++ hints

end Layout
end ConstantTime
