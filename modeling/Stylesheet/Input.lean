import Stylesheet.PreviousMap
import Stylesheet.Text.LineIndex
import Stylesheet.Workspace

/-!
# Inputs

An input is the text of one stylesheet with its path or number, the map it came with and an index
of its lines. Errors are made from an input: they point into the source that the map leads to, or
into the text itself.
-/

namespace Stylesheet

open Text

/-- A point of a text. Line and column count from 1, columns in UTF-16 units. -/
structure Position where
  offset : Nat
  line : Nat
  column : Nat
deriving Repr, DecidableEq, Inhabited

/-- One stylesheet that was read. -/
structure Input where
  css : String
  /-- A byte order mark stood in front. -/
  hasBom : Bool := false
  file : Option String := none
  /-- The name of a stylesheet without a path. -/
  id : Option String := none
  map : Option PreviousMap := none
  lines : LineIndex
deriving Repr, DecidableEq

/-- Where a place comes from. -/
structure Origin where
  url : String
  /-- The path, when the URL is one. -/
  file : Option String
  line : Nat
  column : Nat
  stop : Option (Nat × Nat)
  /-- The text of the source, if the map holds it. -/
  css : Option String
deriving Repr, DecidableEq, Inhabited

namespace Input

/-- An input with its line index. -/
def assemble (css : String) (hasBom : Bool) (file id : Option String) (map : Option PreviousMap) :
    Input :=
  { css, hasBom, file, id, map, lines := LineIndex.ofText css.toList }

/-- The path of a stylesheet made absolute. Names in angle brackets and URLs stay. -/
def resolveFile (here : Option Path.Directory) (source : String) : String :=
  if source.startsWith "<" || Path.isUrl source then source
  else (Path.absolute? here source).getD source

/-- The text without a byte order mark, and whether it had one. -/
def stripBom (css : String) : String × Bool :=
  match css.toList with
  | '\uFEFF' :: cs => (String.ofList cs, true)
  | _ => (css, false)

/-- The input for a text. A stylesheet without a path gets the next number, after its map was
found. -/
def create (w : Workspace) (css : String) (options : ParseOptions) :
    Except Error Input × Workspace :=
  let (css, hasBom) := stripBom css
  let file := options.source.map (resolveFile w.directory)
  match PreviousMap.load w.toEnvironment css options with
  | .error e => (.error e, w)
  | .ok map =>
    match file with
    | some _ => (.ok (assemble css hasBom file none map), w)
    | none =>
      let (id, w) := w.nextName
      (.ok (assemble css hasBom none (some id) map), w)

/-- The path of the stylesheet, or its name. -/
def name (i : Input) : String :=
  (i.file.or i.id).getD "<css input>"

/-- Line and column of a byte offset. -/
def place (i : Input) (offset : Nat) : Nat × Nat :=
  i.lines.position offset

/-- The position at a byte offset. -/
def position (i : Input) (offset : Nat) : Position :=
  let (line, column) := i.place offset
  ⟨offset, line, column⟩

/-- The place in a source that the map leads to, from a place counted from 1. -/
def trace? (k : Packages) (m : PreviousMap) (place : Nat × Nat) : Option PreviousMap.Place :=
  if place.1 = 0 then none else m.trace? k (place.1 - 1) (place.2 - 1)

/-- Where a place of the text comes from, by the map of the input. -/
def origin? (k : Packages) (i : Input) (start : Nat × Nat) (stop : Option (Nat × Nat)) :
    Option Origin := do
  let m ← i.map
  let first ← trace? k m start
  let last := stop.bind (trace? k m)
  let url := m.resolveSource first.source
  some
    { url
      file := if Path.isUrl url then none else some url
      line := first.line + 1
      column := first.column + 1
      stop := last.map fun p => (p.line + 1, p.column + 1)
      css := m.content? k first.source }

/-- An error at a place. It points into the source that the place comes from, if there is one. -/
def error (k : Packages) (i : Input) (reason : String) (start : Nat × Nat)
    (stop : Option (Nat × Nat)) : SyntaxError :=
  let input : InputPlace :=
    ⟨i.file, start.1, start.2, stop.map (·.1), stop.map (·.2)⟩
  match i.origin? k start stop with
  | some o =>
    { reason, file := o.file, line := some o.line, column := some o.column
      endLine := o.stop.map (·.1), endColumn := o.stop.map (·.2), css := o.css
      input := some input }
  | none =>
    { reason, file := i.file, line := some start.1, column := some start.2
      endLine := stop.map (·.1), endColumn := stop.map (·.2), css := some i.css
      input := some input }

/-- An error about the bytes from `start` to `stop`. -/
def errorAt (k : Packages) (i : Input) (reason : String) (start : Nat) (stop : Option Nat) :
    SyntaxError :=
  i.error k reason (i.place start) (stop.map i.place)

/-! ### JSON -/

/-- An input as JSON. Its map is kept as text. -/
def toJson (i : Input) : Json :=
  .obj ([("css", .str i.css), ("hasBOM", .bool i.hasBom)] ++
    Json.fieldIfSome "file" (i.file.map .str) ++
    Json.fieldIfSome "id" (i.id.map .str) ++
    Json.fieldIfSome "map" (i.map.map fun m => .str m.text))

/-- The fields of an input, read from JSON. -/
structure Fields where
  css : String
  hasBom : Bool
  file : Option String
  id : Option String
  map : Option String
deriving Repr

/-- Reads the fields of an input. -/
def readFields (j : Json) : Option Fields := do
  let r ← j.record? ["css", "hasBOM", "file", "id", "map"]
  let css ← Json.need Json.readStr "css" r
  let hasBom ← Json.withDefault false Json.readBool "hasBOM" r
  let file ← Json.optional Json.readStr "file" r
  let id ← Json.optional Json.readStr "id" r
  let map ← Json.optional Json.readStr "map" r
  some ⟨css, hasBom, file, id, map⟩

/-- The input with the given fields; its map is read again. -/
def ofFields (e : Environment) (f : Fields) : Except Error Input :=
  match f.map with
  | none => .ok (assemble f.css f.hasBom f.file f.id none)
  | some text =>
    let options : ParseOptions := ⟨f.file, .enabled { prev := some (.json text) }⟩
    (PreviousMap.load e "" options).map fun map =>
      assemble f.css f.hasBom f.file f.id map

end Input

end Stylesheet
