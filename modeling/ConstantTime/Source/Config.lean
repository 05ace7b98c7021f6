/-
# Configuration files

"Single-Path Constant-Time Transformation Engine", §10.3 and §12.8.

A configuration is read from TOML text and then checked.  Without an explicit
file the configuration of a module is the nearest one upwards from the
directory of the module, and the usual one if there is none.
-/

import ConstantTime.Document.Config
import ConstantTime.Source.Path
import ConstantTime.Toml.Intake

namespace ConstantTime

/-- Why there is no configuration. -/
inductive ConfigFailure where
  /-- The file cannot be read. -/
  | unread (path : String) (fault : Files.Fault)
  /-- The text is no TOML, or a setting has the wrong type. -/
  | unreadable
  | refused (fault : Config.Fault)
deriving DecidableEq, Repr

/-- The wording of a failure. -/
def ConfigFailure.message : ConfigFailure → String
  | .unread path fault => "failed to read config file: " ++ fault.message path
  | .unreadable => "failed to parse config file"
  | .refused fault => fault.message

namespace Config

/-- The name of a configuration file. -/
def fileName : String := "singlepath.toml"

/-- The configuration that a text writes. -/
def parse (s : String) : Except ConfigFailure Config :=
  match Toml.read? false fileSchema (fileDraft {}) s with
  | none => .error .unreadable
  | some d =>
    let c := ofFileDraft d
    match c.validate with
    | .ok _ => .ok c
    | .error fault => .error (.refused fault)

/-- The configuration in a file. -/
def load (fs : Files) (path : String) : Except ConfigFailure Config :=
  match fs.read path with
  | .error fault => .error (.unread path fault)
  | .ok s => parse s

/-- The nearest configuration file from a directory upwards; `fuel` need not exceed
the number of directories. -/
def findFrom (fs : Files) : (fuel : Nat) → (dir : String) → Option String
  | 0, _ => none
  | fuel + 1, dir =>
    let file := Path.join dir fileName
    if fs.exists? file then some file
    else
      let up := Path.directory dir
      if up = dir then none else findFrom fs fuel up

/-- The configuration file of a module. -/
def find? (fs : Files) (modulePath : String) : Option String :=
  findFrom fs (modulePath.length + 2) (Path.directory modulePath)

/-- The wording when no configuration file is found. -/
def notFound : String := s!"{fileName} not found"

/-- The configuration of a module, from an explicit file unless that is empty. -/
def loadFor (fs : Files) (explicit modulePath : String) : Except ConfigFailure Config :=
  if explicit ≠ "" then load fs explicit
  else
    match find? fs modulePath with
    | none => .ok {}
    | some path => load fs path

end Config
end ConstantTime
