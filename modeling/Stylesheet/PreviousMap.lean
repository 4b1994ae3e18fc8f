import Stylesheet.Options
import Stylesheet.Text.Blank
import Stylesheet.Url
import Stylesheet.Workspace

/-!
# Maps that a stylesheet brings along

A stylesheet that another tool made often ends with a comment that names its source map, or holds
it as a data URL. A map may also be given with the options.

* `findLink?` is the URL in the last such comment.
* `PreviousMap.load` finds the map and reads it.
* `PreviousMap.trace?` leads a place of the stylesheet to its source.
-/

namespace Stylesheet

open Text

/-- A map that came with a stylesheet. -/
structure PreviousMap where
  /-- The text of the map. -/
  text : String
  /-- The URL in the comment of the stylesheet. -/
  link : Option String
  /-- The map is part of the stylesheet. -/
  inline : Bool
  /-- Path of the map, or of the stylesheet when the map has none. -/
  file : Option String
  /-- Directory that the sources are seen from. -/
  root : Option String
  map : SourceMap
deriving Repr, DecidableEq, Inhabited

/-! ### The comment -/

/-- What follows the opening of a comment that names a map, if that is what stands in front. -/
def linkBody? (cs : List Char) : Option (List Char) :=
  (after? ['/', '*'] cs).bind fun rest =>
    after? "# sourceMappingURL=".toList (rest.dropWhile isBlank)

/-- What follows the last opening of a comment that names a map. -/
def lastLink? : List Char → Option (List Char)
  | [] => none
  | c :: cs =>
    match lastLink? cs with
    | some rest => some rest
    | none => linkBody? (c :: cs)

/-- The URL in the last comment that names a map. -/
def findLink? (css : String) : Option String :=
  (lastLink? css.toList).bind fun rest =>
    (splitAt? ['*', '/'] rest).map fun (url, _) => String.ofList (trim url)

/-! ### Data URLs -/

/-- The rest of a data URL behind its type and character set. -/
def dataBody? (url : List Char) : Option (List Char) :=
  (after? "data:application/json".toList url).map fun rest =>
    match after? ";charset=utf".toList rest with
    | none => rest
    | some more =>
      match after? ['-', '8'] more with
      | some tail => tail
      | none =>
        match after? ['8'] more with
        | some tail => tail
        | none => rest

/-- The encoding that a data URL names, up to a comma. -/
def namedEncoding? : List Char → Option (List Char)
  | [] => none
  | c :: cs =>
    let here := (after? "data:application/json;".toList (c :: cs)).bind fun rest =>
      match splitAt? [','] rest with
      | some (name, _) => if name.isEmpty then none else some name
      | none => none
    match here with
    | some name => some name
    | none => namedEncoding? cs

/-- The first forty characters. -/
def beginning (s : String) : String :=
  String.ofList (s.toList.take 40)

/-! ### Reading -/

/-- The map that was read. Maps that list the functions of their sources are refused. -/
def DecodedMap.flatten : DecodedMap → Except Error SourceMap
  | .plain m => .ok m
  | .sections whole => whole.mapError .sourceMap
  | .withScopes => .error (.unsupportedPreviousMap "hermes source map")

/-- The text of the map in a data URL. A map in base 64 is read and written anew. -/
def decodeInline (k : Packages) (url : String) : Except Error String :=
  match dataBody? url.toList with
  | some body =>
    match after? ";base64,".toList body with
    | some payload => do
      let decoded ← (k.decodeUrl (SourceMap.urlFront ++ String.ofList payload)).mapError .sourceMap
      k.mapText (← decoded.flatten)
    | none =>
      match after? [','] body with
      | some payload =>
        match Percent.decode? (String.ofList payload) with
        | some text => .ok text
        | none => .error .notText
      | none => unsupported
  | none => unsupported
where
  /-- The error for a data URL of another form. -/
  unsupported : Except Error String :=
    .error (.unsupportedMapEncoding
      (match namedEncoding? url.toList with
        | some name => String.ofList name
        | none => beginning url))

/-- Whether a JSON value looks like a map. -/
def looksLikeMap (j : Json) : Bool :=
  (j.get? "mappings").any Json.isStr || (j.get? "sections").any Json.isArr

/-- The map that a text says. A value that cannot be a map is refused with its beginning. -/
def parseMap (k : Packages) (text : String) : Except Error SourceMap :=
  match k.readJson? text with
  | none => .error .json
  | some j =>
    if looksLikeMap j then do
      let decoded ← (k.decodeMap text).mapError .sourceMap
      decoded.flatten
    else .error (.unsupportedPreviousMap (beginning text))

namespace PreviousMap

/-- The text of the map for a stylesheet, and the path it was read from. A map that the options
name has to be there; one that the stylesheet names may be missing. -/
def find (e : Environment) (link : Option String) (inline : Bool) (options : ParseOptions) :
    Except Error (Option (String × Option String)) :=
  match options.map.options?.bind MapOptions.prev with
  | some .disabled => .ok none
  | some (.json text) => .ok (some (text, none))
  | some (.file path) =>
    match e.files.read? path with
    | some text => .ok (some (trimmed text, some path))
    | none => .error (.previousMapNotFound path)
  | none =>
    match link with
    | none => .ok none
    | some url =>
      if inline then (decodeInline e.packages url).map fun text => some (text, none)
      else
        let path :=
          match options.source with
          | some source => Path.join (Path.dirname source) url
          | none => url
        .ok ((e.files.read? path).map fun text => (trimmed text, some path))

/-- The map for a stylesheet, if it has one and maps are not disabled. -/
def load (e : Environment) (css : String) (options : ParseOptions) :
    Except Error (Option PreviousMap) :=
  if options.map = .disabled then .ok none
  else
    let link := findLink? css
    let inline := link.any (·.startsWith "data:")
    match find e link inline options with
    | .error error => .error error
    | .ok none => .ok none
    | .ok (some (text, path)) =>
      let file := path.or options.source
      (parseMap e.packages text).map fun map =>
        some { text, link, inline, file, root := file.map Path.dirname, map }

/-- A source, seen from the root of the map or from its directory. -/
def resolveSource (m : PreviousMap) (source : String) : String :=
  if Path.isUrl source || source.startsWith "<" || Path.isAbsolute source then source
  else Path.normalize (Path.join ((m.map.sourceRoot.or m.root).getD "") source)

/-- A place in a source. Lines and columns count from 0. -/
structure Place where
  source : String
  line : Nat
  column : Nat
  name : Option String
deriving Repr, DecidableEq, Inhabited

/-- Where a place of the stylesheet comes from. Only entries on its line count. -/
def trace? (k : Packages) (m : PreviousMap) (line column : Nat) : Option Place := do
  let entry ← k.lookup? m.map line column
  if entry.line ≠ line then none
  else
    let origin ← entry.origin
    let source ← k.source? m.map origin.source
    some ⟨source, origin.line, origin.column, origin.name.bind (m.map.names[·]?)⟩

/-- The text of a source, under its name in the map. -/
def content? (k : Packages) (m : PreviousMap) (source : String) : Option String :=
  ((k.sourceNames m.map).findIdx? (· == source)).bind m.map.content?

end PreviousMap

end Stylesheet
