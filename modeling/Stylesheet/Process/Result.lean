import Stylesheet.Edit.Fields
import Stylesheet.Output.Generate

/-!
# Messages and results

What plugins report: warnings, with the place they are about, and messages of other kinds. And what
processing a stylesheet gives: the tree, its text and map, and what plugins reported.
-/

namespace Stylesheet

/-- Something that a plugin found doubtful. -/
structure Warning where
  text : String
  plugin : Option String := none
  /-- The node that it is about. -/
  node : Option NodeId := none
  file : Option String := none
  line : Option Nat := none
  column : Option Nat := none
  endLine : Option Nat := none
  endColumn : Option Nat := none
deriving Repr, DecidableEq, Inhabited

namespace Warning

/-- A warning at the place where a node was read. -/
def atNode (k : Packages) (t : Tree) (node : NodeId) (text : String) : Warning :=
  let e := t.errorAt k node text
  { text, node := some node, file := e.file, line := e.line, column := e.column
    endLine := e.endLine, endColumn := e.endColumn }

/-- The warning in one line: plugin, place and text. -/
def message (w : Warning) : String :=
  (match w.plugin with
    | some plugin => plugin ++ ": "
    | none => "") ++
  (match w.line, w.column with
    | some line, some column =>
      w.file.getD "<css input>" ++ ":" ++ Decimal.natText line ++ ":" ++ Decimal.natText column ++
        ": "
    | _, _ => "") ++
  w.text

end Warning

/-- What a plugin reports. -/
inductive Message
  | warning (w : Warning)
  | custom (kind : String) (plugin : Option String) (data : Json)
deriving Repr, Inhabited

namespace Message

/-- The kind of a message. -/
def kind : Message → String
  | .warning _ => "warning"
  | .custom kind _ _ => kind

/-- The plugin that a message comes from. -/
def plugin : Message → Option String
  | .warning w => w.plugin
  | .custom _ plugin _ => plugin

/-- The warning that a message is. -/
def warning? : Message → Option Warning
  | .warning w => some w
  | .custom _ _ _ => none

end Message

/-- The version of the processor. -/
def version : String :=
  "0.1.0"

/-- The result of processing. -/
structure Result where
  tree : Tree
  options : ProcessOptions
  messages : List Message := []
  css : String := ""
  /-- The map, when there is one that is not part of the text. -/
  map : Option SourceMap := none
  lastPlugin : Option String := none

namespace Result

/-- The warnings among the messages. -/
def warnings (r : Result) : List Warning :=
  r.messages.filterMap Message.warning?

/-- The text of the map, if there is one. -/
def mapText (k : Packages) (r : Result) : Except Error (Option String) :=
  match r.map with
  | none => .ok none
  | some m => (k.mapText m).map some

/-- The result with the text and the map of its tree. -/
def printed (e : Environment) (r : Result) : Except Error Result :=
  let (output, tree) := r.tree.generate e r.options
  output.map fun o => { r with tree, css := o.css, map := o.map }

end Result

/-- What can be processed. -/
inductive ProcessInput
  | text (css : String)
  | tree (t : Tree)
  /-- A result, whose map becomes the map of the input. -/
  | result (r : Result)

/-- The options with the map of an earlier result as the map of the input. -/
def ProcessOptions.carryMap (o : ProcessOptions) (map : Option String) : ProcessOptions :=
  match map with
  | none => o
  | some text =>
    let prev := some (GivenMap.json text)
    match o.map with
    | .disabled => o
    | .auto => { o with map := .enabled { inline := some false, prev } }
    | .enabled m => { o with map := .enabled { m with inline := m.inline.or (some false), prev } }

/-- The tree and the options that processing starts with. All nodes of a given tree count as
changed. -/
def ProcessInput.prepare (w : Workspace) (options : ProcessOptions) :
    ProcessInput → Except Error Result × Workspace
  | .text css =>
    let (parsed, w) := parse w css options.forParsing
    (parsed.map fun t => { tree := t, options }, w)
  | .tree t => (.ok { tree := t.markTreeDirty Tree.rootId, options }, w)
  | .result r =>
    ((r.mapText w.packages).map fun map =>
      { tree := r.tree.markTreeDirty Tree.rootId, options := options.carryMap map }, w)

end Stylesheet
