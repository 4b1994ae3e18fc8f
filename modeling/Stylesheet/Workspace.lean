import Stylesheet.Number.Decimal
import Stylesheet.Packages

/-!
# What reading depends on

Reading and writing a stylesheet depends on more than its text: a map may lie in a file, a path is
seen from the current directory, a stylesheet without a path is given a number, and much is left to
other packages.

Reading a map from disk is looking it up in a snapshot of the readable files. A path is followed
from the topmost directory, part by part: `..` goes up, and every part but the last has to be a
directory.
-/

namespace Stylesheet

/-- The readable files, with their absolute paths. -/
structure Files where
  entries : List (String × String) := []
deriving Repr, Inhabited

namespace Files

/-- What a path leads to. -/
inductive Place
  | directory (parts : List String)
  | file (text : String)
deriving Repr, Inhabited

/-- Whether some file lies below the directory with these parts. -/
def isDirectory (files : Files) (parts : List String) : Bool :=
  parts.isEmpty || files.entries.any fun (path, _) =>
    let whole := Path.parts path
    parts.length < whole.length && whole.take parts.length == parts

/-- Where one more part of a path leads. -/
def step (files : Files) : Place → String → Option Place
  | .file _, _ => none
  | .directory parts, piece =>
    if Path.isIdle piece then some (.directory parts)
    else if piece == ".." then some (.directory parts.dropLast)
    else
      let next := parts ++ [piece]
      match files.entries.find? fun (path, _) => Path.parts path == next with
      | some (_, text) => some (.file text)
      | none => if files.isDirectory next then some (.directory next) else none

/-- The text of the file that a path leads to. -/
def read? (files : Files) (path : String) : Option String :=
  if path == "" then none
  else
    match (Path.pieces path.toList).foldlM files.step (.directory []) with
    | some (.file text) => some text
    | _ => none

end Files

/-- What reading and writing depend on and do not change. -/
structure Environment where
  files : Files := {}
  /-- The current directory, if it can be told. -/
  directory : Option Path.Directory := some .top
  packages : Packages := .standard
deriving Inhabited

/-- The path to `target` from the directory `base`; `target` made absolute when there is none. -/
def Environment.relative (e : Environment) (base target : String) : String :=
  let target := Path.resolve e.directory target
  (e.packages.way? target (Path.resolve e.directory base)).getD target

/-- What reading depends on, with the number of stylesheets without a path there were. -/
structure Workspace extends Environment where
  anonymous : Nat := 0
deriving Inhabited

namespace Workspace

/-- A name for one more stylesheet without a path. -/
def nextName (w : Workspace) : String × Workspace :=
  let n := w.anonymous + 1
  ("<input css " ++ Decimal.natText n ++ ">", { w with anonymous := n })

end Workspace

end Stylesheet
