import Stylesheet.Json.Basic
import Stylesheet.SourceMap.Basic
import Stylesheet.Text.Measure

/-!
# Writing a map

A map is written as a JSON object. Its entries are one text: lines end with `;`, entries are parted
by `,`, and every number is the difference to the one before it. An entry equal to the one before it
is left out.
-/

namespace Stylesheet.SourceMap

/-- The numbers that the next differences are taken to. -/
structure Previous where
  line : Nat := 0
  column : Nat := 0
  source : Nat := 0
  sourceLine : Nat := 0
  sourceColumn : Nat := 0
  name : Nat := 0

/-- A difference, written. -/
def difference (new old : Nat) : List Char :=
  Vlq.encode ((new : Int) - (old : Int))

/-- The fields of one entry, written, and the numbers for the next one. -/
def entryText (p : Previous) (e : MapEntry) : List Char × Previous :=
  let text := difference e.column p.column
  let p := { p with column := e.column }
  match e.origin with
  | none => (text, p)
  | some o =>
    let text := text ++ difference o.source p.source ++ difference o.line p.sourceLine ++
      difference o.column p.sourceColumn
    let p := { p with source := o.source, sourceLine := o.line, sourceColumn := o.column }
    match o.name with
    | none => (text, p)
    | some n => (text ++ difference n p.name, { p with name := n })

/-- The entries, written behind the entry `before`. -/
def mappingsFrom (p : Previous) (before : Option MapEntry) : List MapEntry → List Char
  | [] => []
  | e :: es =>
    if e.line ≠ p.line then
      let breaks := List.replicate (e.line - p.line) ';'
      let (text, p) := entryText { p with line := e.line, column := 0 } e
      breaks ++ text ++ mappingsFrom p (some e) es
    else if before == some e then mappingsFrom p (some e) es
    else
      let (text, p) := entryText p e
      (if before.isSome then [','] else []) ++ text ++ mappingsFrom p (some e) es

/-- The entries of a map, written. -/
def mappings (m : SourceMap) : String :=
  String.ofList (mappingsFrom {} none m.entries)

/-- A map as JSON. Sources are written without the root. -/
def toJson (m : SourceMap) : Json :=
  .obj ([("version", .nat 3)] ++ Json.fieldIfSome "file" (m.file.map .str) ++
    [("sources", .arr (m.sources.map .str))] ++
    Json.fieldIfSome "sourceRoot" (m.sourceRoot.map .str) ++
    (if m.hasContent then [("sourcesContent", .arr (m.allContents.map .optStr))] else []) ++
    [("names", .arr (m.names.map .str)), ("mappings", .str m.mappings)])

/-- The text of a map. -/
def render (m : SourceMap) : String :=
  m.toJson.render

/-- A map as a data URL. -/
def dataUrl (m : SourceMap) : String :=
  "data:application/json;charset=utf-8;base64," ++
    String.ofList (Base64.encode (Text.utf8 m.render))

end Stylesheet.SourceMap
