import Stylesheet.Text.Cut

/-!
# Paths

A path is a text; its parts are what stands between slashes. Empty parts and parts `.` say nothing,
except that a `.` in front of a relative path is kept. A path that starts with a slash is absolute.

* `parent?` drops the last part.
* `join` puts a relative path behind another path.
* `absolute?` makes a path absolute, seen from the current directory.
* `normalize` resolves `.` and `..` by looking at the path only.
* `relativeTo?` is the way from one absolute path to another.
-/

namespace Stylesheet.Path

/-- Whether a path starts at the topmost directory. -/
def isAbsolute (path : String) : Bool :=
  path.toList.head? == some '/'

/-- What stands between the slashes of a text. -/
def pieces (cs : List Char) : List String :=
  (Text.pieces '/' cs).map String.ofList

/-- Whether what stands between two slashes says nothing. -/
def isIdle (piece : String) : Bool :=
  piece == "" || piece == "."

/-- Whether a path starts with a part `.` that counts. -/
def startsHere (path : String) : Bool :=
  path == "." || (Text.after? ['.', '/'] path.toList).isSome

/-- The parts of a path that say something, without the leading slash. -/
def parts (path : String) : List String :=
  let rest := (pieces path.toList).filter fun piece => !isIdle piece
  if startsHere path then "." :: rest else rest

/-- A path with the given parts. -/
def ofParts (rooted : Bool) (parts : List String) : String :=
  (if rooted then "/" else "") ++ "/".intercalate parts

/-- The path without its last part. The topmost directory and the empty path have no parent. -/
def parent? (path : String) : Option String :=
  let cs := path.toList
  let lead := if isAbsolute path || startsHere path then 1 else 0
  let body := (pieces (cs.drop lead)).reverse.dropWhile isIdle
  match body with
  | [] => if startsHere path then some "" else none
  | _ :: front =>
    let kept := (front.dropWhile isIdle).reverse
    some (String.ofList (cs.take lead) ++ "/".intercalate kept)

/-- The directory of a path; the empty path when it has none. -/
def dirname (path : String) : String :=
  (parent? path).getD ""

/-- A path seen from another one. -/
def join (base path : String) : String :=
  if isAbsolute path then path
  else if base == "" || base.toList.getLast? == some '/' then base ++ path
  else base ++ "/" ++ path

/-- Whether a part names something: it says something and does not lead up. -/
def isName (part : String) : Bool :=
  part.toList.all (· != '/') && !isIdle part && part != ".."

/-- A directory, by the names that lead to it from the topmost one. -/
structure Directory where
  names : List String
  isName : ∀ name ∈ names, isName name = true
deriving DecidableEq

/-- The topmost directory. -/
def Directory.top : Directory := ⟨[], List.forall_mem_nil _⟩

instance : Inhabited Directory := ⟨.top⟩

/-- The absolute form of a path that is seen from a directory. Two leading slashes and a slash at
the end stay. The empty path has none, and a relative one has none when the directory is not
known. -/
def absolute? (here : Option Directory) (path : String) : Option String :=
  if path == "" then none
  else if isAbsolute path then some (finish [] path)
  else here.map fun d => finish d.names path
where
  /-- The absolute path that leads on behind the names of a directory. -/
  finish (front : List String) (path : String) : String :=
    let cs := path.toList
    let whole := front ++ (parts path).filter fun part => part != "."
    let twice := (Text.after? ['/', '/'] cs).isSome && !(Text.after? ['/', '/', '/'] cs).isSome
    let body := (if twice then "//" else "/") ++ "/".intercalate whole
    if cs.getLast? == some '/' && !whole.isEmpty then body ++ "/" else body

/-- Takes one more part into the resolved parts, kept last first: `..` takes the last one off. -/
def resolvePart (done : List String) (part : String) : List String :=
  if part == "." then done
  else if part == ".." then
    match done with
    | [] => [".."]
    | _ :: front => front
  else part :: done

/-- The parts of a path without `.`, each `..` taken against the part in front of it. -/
def resolveParts (parts : List String) : List String :=
  (parts.foldl resolvePart []).reverse

/-- The path without `.` and with every `..` taken against the part in front of it. -/
def normalize (path : String) : String :=
  ofParts (isAbsolute path) (resolveParts (parts path))

/-- One way up for each part. -/
def ups (parts : List String) : List String :=
  parts.map fun _ => ".."

/-- The way from the directory with parts `base` to `target`. There is none when the way down
from where they part would have to leave a `..`. -/
def wayFrom? : List String → List String → Option (List String)
  | [], [] => some []
  | target, [] => some target
  | [], base => some (ups base)
  | a :: target, b :: base =>
    if a == b then wayFrom? target base
    else if b == ".." then none
    else some (".." :: ups base ++ a :: target)

/-- The path to `target` from the directory `base`, both absolute. -/
def relativeTo? (target base : String) : Option String :=
  (wayFrom? (parts target) (parts base)).map (ofParts false)

/-- Makes a path absolute, if that is possible, and resolves it. The empty path is the current
directory. -/
def resolve (here : Option Directory) (path : String) : String :=
  let path := if path == "" then "." else path
  normalize ((absolute? here path).getD path)

/-- Whether a path is a URL: a scheme of letters, digits and underscores in front of `://`. -/
def isUrl (path : String) : Bool :=
  match Text.splitAt? [':', '/', '/'] path.toList with
  | some (scheme, _) => !scheme.isEmpty && scheme.all fun c => c.isAlphanum || c == '_'
  | none => false

end Stylesheet.Path
