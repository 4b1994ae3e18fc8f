import Stylesheet.Process.Result
import Stylesheet.Text.Case

/-!
# Plugins

A plugin is a named bundle of callbacks. Some are called once for the whole tree, before or after
everything else; the others are called for every node of a kind, and again whenever that node has
changed.

Callbacks work on a stage: a tree that is edited, the messages so far, and a state `σ` of their own.
-/

namespace Stylesheet

/-- What callbacks work on. -/
structure Stage (σ : Type) where
  desk : Desk
  messages : List Message := []
  memory : σ

/-- What a callback is told. -/
structure Call where
  /-- The node that is visited; the root when the callback is for the whole tree. -/
  node : NodeId
  /-- The name of the plugin. -/
  plugin : String
  options : ProcessOptions

namespace Call

/-- A warning of the plugin without a place. -/
def warning (c : Call) (text : String) : Message :=
  .warning { text, plugin := some c.plugin }

/-- A warning of the plugin at the place of a node. -/
def warningAt (c : Call) (k : Packages) (t : Tree) (node : NodeId) (text : String) : Message :=
  .warning { Warning.atNode k t node text with plugin := some c.plugin }

/-- A message of the plugin of another kind. -/
def message (c : Call) (kind : String) (data : Json) : Message :=
  .custom kind (some c.plugin) data

end Call

/-- What a callback does. -/
abbrev Action (σ : Type) := ExceptT Error (StateM (Stage σ))

namespace Action

variable {σ : Type}

/-- Does an edit. -/
def edit (e : Editing α) : Action σ α := do
  let s ← get
  let (result, desk) := e.runOn s.desk
  set { s with desk }
  match result with
  | .ok a => return a
  | .error e => throw e

/-- Reports something. -/
def report (m : Message) : Action σ Unit :=
  modify fun s => { s with messages := s.messages ++ [m] }

/-- Warns without a place. -/
def warn (call : Call) (text : String) : Action σ Unit :=
  report (call.warning text)

/-- Warns at the place of a node. -/
def warnAt (call : Call) (node : NodeId) (text : String) : Action σ Unit := do
  let desk := (← get).desk
  report (call.warningAt desk.workspace.packages desk.tree node text)

/-- Reports a message of another kind. -/
def tell (call : Call) (kind : String) (data : Json) : Action σ Unit :=
  report (call.message kind data)

end Action

/-- A callback of a plugin. One that has to be awaited cannot be called otherwise. -/
structure Callback (σ : Type) where
  awaited : Bool := false
  body : Call → Action σ Unit

/-- What happens to a node: it is entered or left. -/
structure EventKey where
  kind : NodeKind
  leaving : Bool := false
  /-- The property or the name that is listened for, in lower case. -/
  filter : Option String := none
deriving Repr, DecidableEq, Inhabited

namespace EventKey

/-- The event for nodes of a kind, possibly of one name only; the case of the name does not
count. -/
def of (kind : NodeKind) (leaving : Bool) (name : Option String) : EventKey :=
  ⟨kind, leaving, name.map Text.lower⟩

end EventKey

/-- When a callback is called. -/
inductive Hook
  | visit (key : EventKey)
  /-- Once, when the tree has settled. -/
  | atEnd
deriving Repr, DecidableEq, Inhabited

/-- A named bundle of callbacks. -/
structure Plugin (σ : Type) where
  name : String
  /-- Callbacks for the whole tree, before all visits. -/
  once : List (Callback σ) := []
  hooks : List (Hook × Callback σ) := []

/-- A callback with the name of its plugin. -/
structure Listener (σ : Type) where
  plugin : String
  callback : Callback σ

namespace Plugin

variable {σ : Type}

/-- The plugin with one more callback for the whole tree. -/
def withOnce (p : Plugin σ) (c : Callback σ) : Plugin σ :=
  { p with once := p.once ++ [c] }

/-- The plugin with one more hook. -/
def withHook (p : Plugin σ) (hook : Hook) (c : Callback σ) : Plugin σ :=
  { p with hooks := p.hooks ++ [(hook, c)] }

/-- The callbacks for the whole tree that come before all visits. -/
def onceListeners (plugins : List (Plugin σ)) : List (Listener σ) :=
  plugins.flatMap fun p => p.once.map (Listener.mk p.name)

/-- The callbacks of one hook, by plugin and in the order in which they were given. -/
def listeners (plugins : List (Plugin σ)) (hook : Hook) : List (Listener σ) :=
  plugins.flatMap fun p =>
    (p.hooks.filter fun (h, _) => h == hook).map fun (_, c) => ⟨p.name, c⟩

/-- Whether some plugin has a hook. -/
def anyHooks (plugins : List (Plugin σ)) : Bool :=
  plugins.any fun p => !p.hooks.isEmpty

end Plugin

end Stylesheet
