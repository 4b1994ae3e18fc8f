import Stylesheet.Error
import Stylesheet.Path.Basic
import Stylesheet.SourceMap.Reader
import Stylesheet.SourceMap.Writer

/-!
# What is left to other packages

JSON is read, source maps are read, written, built and looked up, and the way from one path to
another is found by packages of their own. `Packages` is what is asked of them, and whatever depends
on them takes them along: nothing is known of them but what a theorem assumes.

`Packages.standard` does what is documented of such packages.
-/

namespace Stylesheet

/-- The functions of other packages. -/
structure Packages where
  /-- The JSON value that a text says, if it says one. -/
  readJson? : String → Option Json
  /-- The map that a text says. -/
  decodeMap : String → Except MapError DecodedMap
  /-- The map in a data URL. -/
  decodeUrl : String → Except MapError DecodedMap
  /-- A map, written. -/
  writeMap : SourceMap → Except MapError (List UInt8)
  /-- A map as a data URL. -/
  mapUrl : SourceMap → Except MapError String
  /-- The map of a draft. -/
  buildMap : MapDraft → SourceMap
  /-- The names of the sources of a map, seen from its root. -/
  sourceNames : SourceMap → List String
  /-- The entry of a map for a line and a column. -/
  lookup? : SourceMap → Nat → Nat → Option MapEntry
  /-- The path that leads to the first path from the second one. -/
  way? : String → String → Option String

/-- Functions that do what is documented of the packages. -/
def Packages.standard : Packages where
  readJson? := Json.parse?
  decodeMap := SourceMap.ofText
  decodeUrl := SourceMap.ofUrl
  writeMap m := .ok (Text.utf8 m.render)
  mapUrl m := .ok m.dataUrl
  buildMap := SourceMap.build
  sourceNames := SourceMap.sourceNames
  lookup? := SourceMap.lookup?
  way? := Path.relativeTo?

instance : Inhabited Packages := ⟨.standard⟩

namespace Packages

/-- The name of a source of a map. -/
def source? (k : Packages) (m : SourceMap) (n : Nat) : Option String :=
  (k.sourceNames m)[n]?

/-- The text of a map, when it can be written and what is written is a text. -/
def mapText (k : Packages) (m : SourceMap) : Except Error String := do
  let bytes ← (k.writeMap m).mapError .sourceMap
  match Text.ofUtf8? bytes with
  | some text => .ok text
  | none => .error .notText

end Packages

end Stylesheet
