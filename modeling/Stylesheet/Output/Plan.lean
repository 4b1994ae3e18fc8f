import Stylesheet.Tree.Json
import Stylesheet.Url

/-!
# What the map of an output is like

Options leave much open about the map of an output: whether there is one, whether it is part of the
output, whether a comment names it, and whether it holds the texts of the sources. What they leave
open follows the maps that came with the inputs.

A plan also says how sources are named in the map: by paths seen from the output.
-/

namespace Stylesheet

/-- The options for an output and the maps that its inputs came with. -/
structure MapPlan where
  environment : Environment
  options : ProcessOptions
  previous : List PreviousMap := []

/-- The inputs that nodes of the tree were read from, in the order of the document. -/
def Tree.inputsInUse (t : Tree) : List Input :=
  t.usedInputs.filterMap (t.inputs[·]?)

namespace MapPlan

/-- The plan for a tree. -/
def ofTree (e : Environment) (t : Tree) (options : ProcessOptions) : MapPlan :=
  ⟨e, options, t.inputsInUse.filterMap Input.map⟩

/-- The options for the map, if there are any. -/
def mapOptions (p : MapPlan) : MapOptions :=
  p.options.map.options?.getD {}

/-- The packages that the map is left to. -/
def packages (p : MapPlan) : Packages :=
  p.environment.packages

/-- Whether the output gets a map. -/
def wantsMap (p : MapPlan) : Bool :=
  match p.options.map with
  | .auto => !p.previous.isEmpty
  | .disabled => false
  | .enabled _ => true

/-- Whether the map is part of the output. -/
def isInline (p : MapPlan) : Bool :=
  match p.mapOptions.inline with
  | some inline => inline
  | none =>
    match p.mapOptions.link with
    | none | some (.enabled true) => p.previous.isEmpty || p.previous.any (·.inline)
    | some _ => false

/-- Whether a comment names the map. -/
def isLinked (p : MapPlan) : Bool :=
  p.isInline ||
    match p.mapOptions.link with
    | some (.enabled on) => on
    | some (.path _) => true
    | none => p.previous.isEmpty || p.previous.any (·.link.isSome)

/-- Whether the map holds the texts of the inputs. -/
def holdsTexts (p : MapPlan) : Bool :=
  match p.mapOptions.sourcesContent with
  | some holds => holds
  | none => p.previous.isEmpty || p.previous.any (·.map.hasContent)

/-! ### Names of sources -/

/-- A path as a URL. -/
def urlOf (path : String) : String :=
  Percent.encode (Text.replaced path "\\" "/")

/-- The directory that paths are seen from: that of the output, or of the map when it has a path of
its own. -/
def base (p : MapPlan) : String :=
  let directory :=
    match p.options.target with
    | some target => Path.dirname target
    | none => "."
  match p.mapOptions.link with
  | some (.path url) => Path.dirname (Path.join directory url)
  | _ => directory

/-- A path seen from the output. Names in angle brackets and URLs stay, and all paths when absolute
ones are wanted. -/
def path (p : MapPlan) (file : String) : String :=
  if p.mapOptions.absolute || file.startsWith "<" || Path.isUrl file then file
  else p.environment.relative p.base file

/-- The name of the output in its map. -/
def outputFile (p : MapPlan) : String :=
  match p.options.target, p.options.source with
  | some target, _ => p.path target
  | none, some source => p.path source
  | none, none => "to.css"

/-- The name of an input in the map. -/
def sourceName (p : MapPlan) (i : Input) : String :=
  match p.mapOptions.source with
  | some source => urlOf source
  | none =>
    if p.mapOptions.absolute then "file://" ++ urlOf i.name else urlOf (p.path i.name)

/-- The URL that the sources of a previous map are seen from. -/
def previousRoot (p : MapPlan) (m : PreviousMap) : Option String :=
  (m.root.or (m.file.map Path.dirname)).map fun root => urlOf (p.path root)

/-- A source seen from a root. -/
def joinRoot (root source : String) : String :=
  if root == "" || Path.isUrl source || source.startsWith "/" then source
  else Text.replaced (Path.normalize (Path.join root source)) "\\" "/"

/-- The name in the map of a source of a previous map. -/
def previousName (p : MapPlan) (m : PreviousMap) (source : String) : String :=
  match p.previousRoot m with
  | some root => joinRoot root source
  | none => source

end MapPlan

end Stylesheet
