import Stylesheet.Json.Fields

/-!
# Options

How a stylesheet is read and written: where it comes from, where the output goes and what to do
about source maps. Options are written as JSON objects, of which any field may be missing.
-/

namespace Stylesheet

/-- A map for the input that is given with the options. -/
inductive GivenMap
  /-- There is none, whatever the stylesheet says. -/
  | disabled
  /-- The text of a map. -/
  | json (text : String)
  /-- The path of a map. -/
  | file (path : String)
deriving Repr, DecidableEq, Inhabited

/-- Whether the output gets a comment that names its map. -/
inductive MapLink
  | enabled (on : Bool)
  /-- The comment names this URL. -/
  | path (url : String)
deriving Repr, DecidableEq, Inhabited

/-- What the map of the output is like. What is left out follows the maps of the input. -/
structure MapOptions where
  /-- The map is part of the output. -/
  inline : Option Bool := none
  /-- The map of the input. -/
  prev : Option GivenMap := none
  /-- The map holds the texts of the sources. -/
  sourcesContent : Option Bool := none
  link : Option MapLink := none
  /-- The source that every mapping names. -/
  source : Option String := none
  /-- Paths are not made relative to the output. -/
  absolute : Bool := false
deriving Repr, DecidableEq, Inhabited

/-- Whether the output gets a map. -/
inductive MapSetting
  /-- It gets one when the input has one. -/
  | auto
  | disabled
  | enabled (options : MapOptions)
deriving Repr, DecidableEq, Inhabited

/-- The options of an enabled map. -/
def MapSetting.options? : MapSetting → Option MapOptions
  | .enabled options => some options
  | _ => none

/-- Options for reading a stylesheet. -/
structure ParseOptions where
  /-- Path of the stylesheet. -/
  source : Option String := none
  map : MapSetting := .auto
deriving Repr, DecidableEq, Inhabited

/-- Options for processing a stylesheet. -/
structure ProcessOptions where
  /-- Path of the stylesheet. -/
  source : Option String := none
  /-- Path of the output. -/
  target : Option String := none
  map : MapSetting := .auto
deriving Repr, DecidableEq, Inhabited

/-- The part of the options that reading needs. -/
def ProcessOptions.forParsing (o : ProcessOptions) : ParseOptions :=
  ⟨o.source, o.map⟩

/-! ### Reading options -/

/-- Reads a given map. -/
def GivenMap.ofJson? (j : Json) : Option GivenMap :=
  match Json.variant? j with
  | some ("disabled", .null) => some .disabled
  | some ("json", .str text) => some (.json text)
  | some ("file", .str path) => some (.file path)
  | _ => none

/-- Reads a link. -/
def MapLink.ofJson? : Json → Option MapLink
  | .bool on => some (.enabled on)
  | .str url => some (.path url)
  | _ => none

/-- Reads the options of a map. -/
def MapOptions.ofJson? (j : Json) : Option MapOptions := do
  let r ← j.record? ["inline", "prev", "sourcesContent", "annotation", "from", "absolute"]
  let inline ← r.optional Json.readBool "inline"
  let prev ← r.optional GivenMap.ofJson? "prev"
  let sourcesContent ← r.optional Json.readBool "sourcesContent"
  let link ← r.optional MapLink.ofJson? "annotation"
  let source ← r.optional Json.readStr "from"
  let absolute ← r.withDefault false Json.readBool "absolute"
  some { inline, prev, sourcesContent, link, source, absolute }

/-- Reads a map setting. -/
def MapSetting.ofJson? : Json → Option MapSetting
  | .null => some .auto
  | .bool false => some .disabled
  | .bool true => some (.enabled {})
  | j => (MapOptions.ofJson? j).map .enabled

/-- Reads options for reading. -/
def ParseOptions.ofJson? (j : Json) : Option ParseOptions := do
  let r ← j.record? ["from", "map"]
  let source ← r.optional Json.readStr "from"
  let map ← r.withDefault .auto MapSetting.ofJson? "map"
  some { source, map }

/-- Reads options for processing. -/
def ProcessOptions.ofJson? (j : Json) : Option ProcessOptions := do
  let r ← j.record? ["from", "to", "map"]
  let source ← r.optional Json.readStr "from"
  let target ← r.optional Json.readStr "to"
  let map ← r.withDefault .auto MapSetting.ofJson? "map"
  some { source, target, map }

/-! ### Writing options -/

/-- Writes a given map. -/
def GivenMap.toJson : GivenMap → Json
  | .disabled => .str "disabled"
  | .json text => .obj [("json", .str text)]
  | .file path => .obj [("file", .str path)]

/-- Writes a link. -/
def MapLink.toJson : MapLink → Json
  | .enabled on => .bool on
  | .path url => .str url

/-- Writes the options of a map, with every field. -/
def MapOptions.toJson (o : MapOptions) : Json :=
  .obj [("inline", .ofOption .bool o.inline), ("prev", .ofOption GivenMap.toJson o.prev),
    ("sourcesContent", .ofOption .bool o.sourcesContent),
    ("annotation", .ofOption MapLink.toJson o.link), ("from", .optStr o.source),
    ("absolute", .bool o.absolute)]

/-- Writes a map setting. -/
def MapSetting.toJson : MapSetting → Json
  | .auto => .null
  | .disabled => .bool false
  | .enabled options => options.toJson

/-- Writes options for reading. -/
def ParseOptions.toJson (o : ParseOptions) : Json :=
  .obj [("from", .optStr o.source), ("map", o.map.toJson)]

/-- Writes options for processing. -/
def ProcessOptions.toJson (o : ProcessOptions) : Json :=
  .obj [("from", .optStr o.source), ("to", .optStr o.target), ("map", o.map.toJson)]

end Stylesheet
