/-
# Module files

"Single-Path Constant-Time Transformation Engine", §12.8.

A module is described in YAML or TOML; the name of the file says in which.  A
member that means nothing is an error in both.  A module without a name is
called like its file.
-/

import ConstantTime.Document.Module
import ConstantTime.Json.Value
import ConstantTime.Source.Path
import ConstantTime.Toml.Intake
import ConstantTime.Yaml.Intake

namespace ConstantTime

/-- The format of a module file. -/
inductive Format where
  | yaml
  | toml
deriving DecidableEq, Repr, Inhabited

/-- Why there is no module. -/
inductive LoadFailure where
  /-- The name of the file says nothing about its format. -/
  | unsupported (path : String)
  /-- There is no format of that name. -/
  | unknownFormat (name : String)
  /-- The file cannot be read. -/
  | unread (path : String) (fault : Files.Fault)
  /-- The text is not of its format, or a part has the wrong type. -/
  | unreadable (e : Failure)
  /-- The description makes no sense. -/
  | invalid (e : Failure)
deriving DecidableEq, Repr

namespace LoadFailure

/-- The wording of a failure. -/
def message (lang : Language) : LoadFailure → String
  | .unsupported path =>
    s!"unsupported module file {Text.quote path} (want .yaml, .yml or .toml)"
  | .unknownFormat name => s!"unknown module format {Text.quote name}"
  | .unread path fault => "failed to read module file: " ++ fault.message path
  | .unreadable e => e.text lang
  | .invalid e => e.text lang

/-- The failure with the file it was met in. -/
def inFile (path : String) : LoadFailure → LoadFailure
  | .unreadable e => .unreadable (.context path e)
  | .invalid e => .invalid (.context path e)
  | f => f

end LoadFailure

namespace Format

/-- The format as text. -/
def text : Format → String
  | .yaml => "yaml"
  | .toml => "toml"

/-- The format as messages name it. -/
def title : Format → String
  | .yaml => "YAML"
  | .toml => "TOML"

/-- The format of a name. -/
def ofName (name : String) : Except LoadFailure Format :=
  if name = "yaml" then .ok .yaml
  else if name = "toml" then .ok .toml
  else .error (.unknownFormat name)

/-- The format of a file. -/
def ofPath (path : String) : Except LoadFailure Format :=
  let s := (Path.suffix path).toLower
  if s = ".yaml" || s = ".yml" then .ok .yaml
  else if s = ".toml" then .ok .toml
  else .error (.unsupported path)

/-- The draft after a text has been read into it. -/
def read? : Format → Schema → Draft → String → Option Draft
  | .yaml => Yaml.read?
  | .toml => Toml.read? true

end Format

namespace ModuleDescription

/-- The module that a text describes. -/
def decode (f : Format) (s : String) : Except LoadFailure ModuleDescription :=
  match f.read? schema schema.blank s with
  | none => .error (.unreadable (.finding (Cause.unreadable f.title).finding))
  | some d =>
    let m := ofDraft d
    match m.validate with
    | .ok _ => .ok m
    | .error e => .error (.invalid e)

/-- The module in a file. -/
def load (fs : Files) (path : String) : Except LoadFailure ModuleDescription := do
  let f ← Format.ofPath path
  match fs.read path with
  | .error fault => throw (.unread path fault)
  | .ok s =>
    let m ← (decode f s).mapError (LoadFailure.inFile path)
    return if m.name = "" then { m with name := Path.stem path } else m

/-! ### Descriptions as JSON -/

open JsonValue

/-- An instruction as JSON. -/
def instrJson (i : Instr) : JsonValue :=
  .object (always "op" (.text i.op) ++ unlessEmpty "reads" .text i.reads ++
    unlessEmpty "writes" .text i.writes ++
    onlyIf (i.latency ≠ 0) "latency" (.int i.latency.toInt) ++
    JsonValue.flag "load" i.isLoad ++ JsonValue.flag "store" i.isStore ++
    JsonValue.flag "call" i.isCall ++ JsonValue.flag "return" i.isReturn ++
    JsonValue.flag "branch" i.isBranch ++ JsonValue.flag "delayed" i.isDelayed ++
    JsonValue.flag "long" i.isLong ++ JsonValue.flag "first_slot" i.firstSlot ++
    JsonValue.flag "non_bundleable" i.nonBundleable ++ JsonValue.flag "negated" i.negated ++
    JsonValue.flag "unpredicated" i.unpredicated)

/-- A bound as JSON. -/
def boundJson (b : Bound) : JsonValue :=
  .object [("min", .int b.min.toInt), ("max", .int b.max.toInt)]

/-- An entry that may be missing. -/
def entryJson {α : Type} (one : α → JsonValue) (e : Option α) : JsonValue :=
  match e with
  | none => .null
  | some a => one a

/-- A block as JSON. -/
def blockJson (b : BlockDescription) : JsonValue :=
  .object (always "name" (.text b.name) ++ unlessEmpty "succs" .text b.succs ++
    ifSome "accesses" (fun n => .int n.toInt) b.accesses ++ ifSome "bound" boundJson b.bound ++
    unlessEmpty "instrs" (entryJson instrJson) b.instrs)

/-- A function as JSON. -/
def functionJson (f : FunctionDescription) : JsonValue :=
  .object (always "name" (.text f.name) ++ JsonValue.flag "root" f.root ++
    JsonValue.flag "pseudo_root" f.pseudoRoot ++
    always "blocks" (listOrNull (entryJson blockJson) f.blocks))

/-- A module as JSON. -/
def json (m : ModuleDescription) : JsonValue :=
  .object [("name", .text m.name),
    ("functions", listOrNull (entryJson functionJson) m.functions)]

end ModuleDescription
end ConstantTime
