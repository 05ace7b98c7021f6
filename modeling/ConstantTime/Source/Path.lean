/-
# Paths and files

A path is a text of names with slashes between them.  Cleaning leaves out empty
names and `.`, and lets `..` take back the name before it.  All paths here are
relative to one directory, of which the files are known.

Reading follows the names one after the other.  Each of them has to be one of
its directory, which is the way a missing file, a file on the way and a name
that is too long are told apart.
-/

namespace ConstantTime
namespace Path

/-- The names in a path. -/
def names (p : String) : List String := p.splitOn "/"

/-- Adds a name to those before it, last first. -/
def push (done : List String) (name : String) : List String :=
  if name = "" || name = "." then done
  else if name = ".." then
    match done with
    | last :: rest => if last = ".." then name :: done else rest
    | [] => [name]
  else name :: done

/-- Does the path begin at the root? -/
def isRooted (p : String) : Bool := p.startsWith "/"

/-- The shortest way to write several names, from the root or not.  Nothing is
above the root. -/
def clean (rooted : Bool) (l : List String) : String :=
  let kept := (l.foldl push []).reverse
  if rooted then "/" ++ String.intercalate "/" (kept.dropWhile (· = ".."))
  else if kept.isEmpty then "."
  else String.intercalate "/" kept

/-- The directory of a path. -/
def directory (p : String) : String := clean (isRooted p) (names p).dropLast

/-- A name in a directory. -/
def join (dir name : String) : String := clean (isRooted dir) (names dir ++ [name])

/-- The last name of a path; slashes at its end do not count. -/
def base (p : String) : String :=
  match ((names p).reverse.dropWhile (· = "")).head? with
  | some name => name
  | none => if p = "" then "." else "/"

/-- The part of the last name from its last point on. -/
def suffix (p : String) : String :=
  let last := ((names p).getLast?).getD ""
  match (last.splitOn ".").reverse with
  | [] => ""
  | [_] => ""
  | s :: _ => "." ++ s

/-- The last name without what follows its last point. -/
def stem (p : String) : String := ((base p).dropEnd (suffix (base p)).length).toString

end Path

/-- The files of a directory and of those below it, by path. -/
structure Files where
  entries : List (String × String)
deriving DecidableEq, Repr, Inhabited

namespace Files

/-- The names on the way to each file. -/
def routes (fs : Files) : List (List String) :=
  fs.entries.map fun e => (Path.names e.1).foldl Path.push [] |>.reverse

/-- Is there a directory with these names? -/
def isDirectory (fs : Files) (dir : List String) : Bool :=
  dir.isEmpty || fs.routes.any fun r => dir.length < r.length && dir.isPrefixOf r

/-- Why nothing can be read at a path. -/
inductive Fault where
  | missing
  /-- A name on the way is one of a file. -/
  | notDirectory
  /-- The path or a name in it is too long. -/
  | tooLong
  /-- No path holds such a character. -/
  | invalid
  /-- It is a directory. -/
  | directory
deriving DecidableEq, Repr, Inhabited

/-- The wording of a fault. -/
def Fault.message (path : String) : Fault → String
  | .missing => s!"open {path}: no such file or directory"
  | .notDirectory => s!"open {path}: not a directory"
  | .tooLong => s!"open {path}: file name too long"
  | .invalid => s!"open {path}: invalid argument"
  | .directory => s!"read {path}: is a directory"

/-- Where a path has led so far. -/
inductive Spot where
  /-- Below the directory, with the names on the way, last first. -/
  | inside (names : List String)
  /-- In a directory of which nothing is known. -/
  | outside
deriving DecidableEq, Repr, Inhabited

/-- Is the spot a directory? -/
def isDirectoryAt (fs : Files) : Spot → Bool
  | .inside names => fs.isDirectory names.reverse
  | .outside => true

/-- The spot one directory up. -/
def Spot.up : Spot → Spot
  | .inside (_ :: rest) => .inside rest
  | _ => .outside

/-- The spot of a name, if there is something. -/
def child? (fs : Files) (name : String) : Spot → Option Spot
  | .inside names =>
    let route := (name :: names).reverse
    if fs.isDirectory route || route ∈ fs.routes then some (.inside (name :: names)) else none
  | .outside => none

/-- The longest name, in bytes. -/
def longestName : Nat := 255

/-- The longest path, in bytes. -/
def longestPath : Nat := 4095

/-- Follows a name. -/
def step (fs : Files) (at_ : Spot) (name : String) : Except Fault Spot :=
  if !fs.isDirectoryAt at_ then .error .notDirectory
  else if name = "" || name = "." then .ok at_
  else if name = ".." then .ok at_.up
  else if longestName < name.utf8ByteSize then .error .tooLong
  else
    match fs.child? name at_ with
    | some spot => .ok spot
    | none => .error .missing

/-- Follows a path. -/
def follow (fs : Files) (p : String) : Except Fault Spot :=
  if p.contains '\x00' then .error .invalid
  else if p = "" then .error .missing
  else if longestPath < p.utf8ByteSize then .error .tooLong
  else (Path.names p).foldlM fs.step (if Path.isRooted p then .outside else .inside [])

/-- The text of a file. -/
def read (fs : Files) (p : String) : Except Fault String := do
  match ← fs.follow p with
  | .outside => throw .directory
  | .inside names =>
    let written := (fs.routes.zip (fs.entries.map Prod.snd)).reverse
    match written.find? fun e => e.1 = names.reverse with
    | some (_, text) => return text
    | none => throw .directory

/-- Is there something at a path? -/
def exists? (fs : Files) (p : String) : Bool := (fs.follow p).toOption.isSome

end Files
end ConstantTime
