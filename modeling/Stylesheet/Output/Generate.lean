import Stylesheet.Output.Mapping
import Stylesheet.Tree.Insert

/-!
# Outputs

The output for a tree is its text and, if wanted, its map. A comment at the end of the text names
the map or holds it. Comments at the top of the tree that name earlier maps are taken out first.
-/

namespace Stylesheet

/-- What is written for a tree. -/
structure Output where
  css : String
  /-- The map, when it is not part of the text. -/
  map : Option SourceMap := none
deriving Repr, DecidableEq, Inhabited

namespace Tree

/-- Whether a node is a comment that names a map. -/
def namesMap (t : Tree) (id : NodeId) : Bool :=
  ((t.get? id).bind (·.content.text?)).any (·.startsWith "# sourceMappingURL=")

/-- The tree without a child of the root. -/
def withoutChild (t : Tree) (child : NodeId) : Tree :=
  match t.indexIn? rootId child with
  | some i => t.removeAt rootId child i
  | none => t

/-- The tree without the comments at its top that name maps. -/
def withoutLinks (t : Tree) : Tree :=
  ((t.children rootId).reverse.filter t.namesMap).foldl withoutChild t

end Tree

namespace MapPlan

/-- The known texts of sources. Those of previous maps come first, the later ones before the
earlier ones. -/
def knownTexts (p : MapPlan) (t : Tree) : List (String × String) :=
  let previous :=
    if p.mapOptions.sourcesContent = some false then []
    else
      p.previous.flatMap fun m =>
        ((p.packages.sourceNames m.map).zip m.map.allContents).filterMap fun (source, content) =>
          content.map fun text => (p.previousName m source, text)
  let inputs :=
    if p.holdsTexts then t.inputsInUse.map fun i => (p.sourceName i, i.css) else []
  previous.reverse ++ inputs

/-- A mapping as an entry of a map. -/
def entryOf (m : Mapping) : NamedEntry :=
  ⟨m.spot.line, m.spot.column, m.origin.line, m.origin.column, m.origin.source, m.origin.name⟩

/-- What the map with given mappings is built of. -/
def draft (p : MapPlan) (t : Tree) (mappings : List Mapping) : MapDraft where
  file := some p.outputFile
  entries := mappings.map entryOf
  contents :=
    let texts := p.knownTexts t
    (mappings.map (·.origin.source)).eraseDups.map fun source => (source, texts.lookup source)

/-- The map with given mappings. -/
def buildMap (p : MapPlan) (t : Tree) (mappings : List Mapping) : SourceMap :=
  p.packages.buildMap (p.draft t mappings)

/-- The URL of the map, which may be the map itself. -/
def mapUrl (p : MapPlan) (m : SourceMap) : Except Error String :=
  if p.isInline then (p.packages.mapUrl m).mapError .sourceMap
  else
    match p.mapOptions.link with
    | some (.path url) => .ok url
    | _ => .ok (p.outputFile ++ ".map")

/-- The comment that names or holds the map, with a line break in front. -/
def linkText (css url : String) : String :=
  let lineEnd := if Text.contains ['\r', '\n'] css.toList then "\r\n" else "\n"
  lineEnd ++ "/*# sourceMappingURL=" ++ url ++ " */"

/-- The text with the comment about its map, if there is to be one. It fails when the comment is to
hold the map and the map cannot be written. -/
def linked (p : MapPlan) (css : String) (m : SourceMap) : Except Error String :=
  if p.isLinked then (p.mapUrl m).map fun url => css ++ linkText css url else .ok css

/-- The output for a tree whose comments that name maps are gone. -/
def output (p : MapPlan) (t : Tree) : Except Error Output :=
  if p.wantsMap then
    let (css, mappings) := p.generateString t
    let m := p.buildMap t (Mapping.settled mappings)
    (p.linked css m).map fun css => ⟨css, if p.isInline then none else some m⟩
  else .ok ⟨t.print, none⟩

/-- Whether comments that name maps stay. -/
def keepsLinks (p : MapPlan) : Bool :=
  p.mapOptions.link = some (.enabled false)

end MapPlan

/-- The output for a tree, and the tree as it is then. -/
def Tree.generate (e : Environment) (t : Tree) (options : ProcessOptions) :
    Except Error Output × Tree :=
  let plan := MapPlan.ofTree e t options
  let t := if plan.keepsLinks then t else t.withoutLinks
  (plan.output t, t)

end Stylesheet
