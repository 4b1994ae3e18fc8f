import Stylesheet.Json.Fields
import Stylesheet.Json.Reader
import Stylesheet.Json.Basic

/-!
# The parts of a map

A map is a JSON object with a list of sources, a list of names and the entries in one text. A map
may also be a list of sections, each with a map and the place where it starts. A layout holds the
parts of such an object, before any entry is decoded and any section is put in its place.

`Layout.ofWritten?` reads a layout. A known field may not occur twice. Fields that are not known are
ignored; those of a map have to say something all the same, those of its smaller records need not.
-/

namespace Stylesheet.SourceMap

/-! ### What is asked for -/

/-- The parts of a section whose map has the given form. -/
def sectionForm (map : Json.Form) : Json.Form :=
  .record [("offset", .record [("line", .full), ("column", .full)]), ("url", .full), ("map", map)]

/-- The parts of a map with the given form of its sections. -/
def objectForm (sections : Json.Form) : Json.Form :=
  .object
    [("version", .full), ("file", .full), ("sources", .full), ("sourceRoot", .full),
      ("sourcesContent", .full), ("sections", .list sections), ("names", .full),
      ("rangeMappings", .full), ("mappings", .full), ("ignoreList", .full),
      ("x_facebook_offsets", .full), ("x_metro_module_paths", .full),
      ("x_facebook_sources",
        .list (.list (.record [("names", .full), ("mappings", .full)])))]

/-- The parts of a map whose sections hold maps, down to a depth. -/
def mapForm : Nat → Json.Form
  | 0 => .full
  | depth + 1 => objectForm (sectionForm (mapForm depth))

/-! ### Reading the parts -/

/-- The simple fields of a map. -/
structure Fields where
  file : Option String
  sources : List String
  sourceRoot : Option String
  contents : List (Option String)
  names : List String
  mappings : String
  /-- The map lists the functions of its sources. -/
  scopes : Bool
deriving Repr, DecidableEq, Inhabited

/-- The text of a name: numbers are written out, and other values are empty. -/
def nameText : Json → String
  | .str s => s
  | .int n => (Json.int n).render
  | .real x => (Json.real x).render
  | _ => ""

/-- The name of the generated file, which may be no text. -/
def fileText : Json → String
  | .str s => s
  | _ => "<invalid>"

/-- Checks the record of a function. -/
def checkScope (j : Json) : Option Unit := do
  let _ ← Json.need (Json.readList Json.readStr) "names" j
  let _ ← Json.need Json.readStr "mappings" j
  some ()

/-- Reads the simple fields of a map. All of them may be missing or null. -/
def Fields.ofJson? (j : Json) : Option Fields := do
  let .obj _ := j | none
  let _ ← Json.optional Json.readNat32 "version" j
  let file ← Json.optional some "file" j
  let sources ← Json.optional (Json.readList (Json.readOption Json.readStr)) "sources" j
  let sourceRoot ← Json.optional Json.readStr "sourceRoot" j
  let contents ← Json.optional (Json.readList (Json.readOption Json.readStr)) "sourcesContent" j
  let names ← Json.optional (Json.readList some) "names" j
  let _ ← Json.optional Json.readStr "rangeMappings" j
  let mappings ← Json.optional Json.readStr "mappings" j
  let _ ← Json.optional (Json.readList Json.readNat32) "ignoreList" j
  let _ ← Json.optional (Json.readList (Json.readOption Json.readNat32)) "x_facebook_offsets" j
  let _ ← Json.optional (Json.readList Json.readStr) "x_metro_module_paths" j
  let scopes ← Json.optional (Json.readList (Json.readOption (Json.readList checkScope)))
    "x_facebook_sources" j
  some
    { file := file.map fileText
      sources := (sources.getD []).map (·.getD "")
      sourceRoot
      contents := contents.getD []
      names := (names.getD []).map nameText
      mappings := mappings.getD ""
      scopes := scopes.isSome }

/-- A section: where it starts, the URL of its map, and its map if it is there. -/
structure Section (α : Type) where
  line : Nat
  column : Nat
  url : Option String
  map : Option α
deriving Repr

/-- The parts of a map. -/
inductive Layout
  | plain (fields : Fields)
  | sections (file : Option String) (parts : List (Section Layout))
deriving Repr

/-- Where a section starts. -/
def readOffset (j : Json) : Option (Nat × Nat) := do
  let line ← Json.need Json.readNat32 "line" j
  let column ← Json.need Json.readNat32 "column" j
  some (line, column)

namespace Layout

/-- Reads the parts of a map. -/
def ofJson? (j : Json) : Option Layout := do
  let fields ← Fields.ofJson? j
  match hs : j.get? "sections" with
  | none | some .null => some (.plain fields)
  | some (.arr items) =>
    let parts ← items.attach.mapM fun ⟨item, hi⟩ => do
      let (line, column) ← Json.need readOffset "offset" item
      let url ← Json.optional Json.readStr "url" item
      let map ←
        match hm : item.get? "map" with
        | none | some .null => some none
        | some part =>
          have : sizeOf part < sizeOf j := Json.sizeOf_lt_of_item hs hi hm
          (ofJson? part).map some
      some (⟨line, column, url, map⟩ : Section Layout)
    some (.sections fields.file parts)
  | some _ => none
termination_by sizeOf j

/-- Reads the parts of a written map. -/
def ofWritten? (w : Json.Written) : Option Layout :=
  (w.read? (mapForm Json.Written.depthLimit) Json.Written.depthLimit).bind ofJson?

/-- Whether a map lists the functions of its sources. -/
def listsScopes : Layout → Bool
  | .plain fields => fields.scopes
  | .sections _ _ => false

end Layout

end Stylesheet.SourceMap
