import Stylesheet.Process.Plugin
import Stylesheet.Tree.Basic

/-!
# Runs

A run calls the callbacks of plugins over a tree, in three parts: those for the whole tree, then
visits of nodes until no node has changed any more, then those for the end.

A visit of a node announces that it is entered, goes through its children and announces that it is
left; declarations and at-rules are announced under their kind and under their name. Only nodes that
are not marked as visited are visited. A node that is detached meanwhile is not visited further.

A run is a machine that goes step by step.

* `PluginRun.call?` is the call that the next step makes.
* `PluginRun.step` is the step, and `PluginRun.go` makes a number of them.
-/

namespace Stylesheet

/-- A part of a visit. -/
inductive VisitStep
  | event (key : EventKey)
  /-- Going through the children. -/
  | children
deriving Repr, DecidableEq, Inhabited

/-- The name under which a node is announced, besides its kind. -/
def Content.eventName? : Content → Option String
  | .declaration prop _ _ => some prop
  | .atRule name _ => some name
  | _ => none

/-- The parts of the visit of a node. -/
def Node.visitSteps (n : Node) : List VisitStep :=
  let name := n.content.eventName?
  let events (leaving : Bool) : List VisitStep :=
    .event (.of n.kind leaving none) ::
      (name.map fun name => VisitStep.event (.of n.kind leaving (some name))).toList
  events false ++ (if n.isContainer then [.children] else []) ++ events true

/-- A visit that is going on. -/
structure Visit (σ : Type) where
  node : NodeId
  /-- What is still to be done. -/
  steps : List VisitStep
  /-- The callbacks still to be called for the last event. -/
  visitors : List (Listener σ) := []
  /-- The place among the children. -/
  cursor : Option Nat := none

/-- The beginning of a visit. -/
def Visit.ofNode (t : Tree) (node : NodeId) : Visit σ where
  node
  steps := ((t.get? node).map Node.visitSteps).getD []

/-- Where a run is. -/
inductive RunPoint (σ : Type)
  /-- Callbacks for the whole tree are still to be called. -/
  | opening (rest : List (Listener σ))
  /-- Between two passes over the tree. -/
  | settling
  /-- In a pass, with the visits that are going on, the innermost first. -/
  | visiting (stack : List (Visit σ))
  /-- Callbacks for the end are still to be called. -/
  | closing (rest : List (Listener σ))
  | finished
  | failed (e : Error)

/-- What a run follows. -/
structure Program (σ : Type) where
  plugins : List (Plugin σ)
  options : ProcessOptions
  /-- Callbacks can be awaited. -/
  awaits : Bool := false

/-- A run that is going on. -/
structure PluginRun (σ : Type) where
  stage : Stage σ
  /-- The plugin that was called last. -/
  lastPlugin : Option String := none
  point : RunPoint σ

namespace PluginRun

variable {σ : Type}

/-- The beginning of a run. -/
def start (p : Program σ) (stage : Stage σ) : PluginRun σ where
  stage
  point := .opening (Plugin.onceListeners p.plugins)

/-- The tree as it is now. -/
def tree (r : PluginRun σ) : Tree :=
  r.stage.desk.tree

/-- The run with the tree changed. -/
def withTree (r : PluginRun σ) (t : Tree) : PluginRun σ :=
  { r with stage := { r.stage with desk := { r.stage.desk with tree := t } } }

/-- The run at another point. -/
def moveTo (r : PluginRun σ) (point : RunPoint σ) : PluginRun σ :=
  { r with point }

/-- Whether the run is over. -/
def isOver (r : PluginRun σ) : Bool :=
  match r.point with
  | .finished | .failed _ => true
  | _ => false

/-! ### Calls -/

/-- An error of a callback, with the plugin and the node. -/
def decorate (t : Tree) (plugin : String) (node : NodeId) : Error → Error
  | .malformed e => .malformed { e with plugin := e.plugin.or (some plugin) }
  | .inPlugin inner kind position cause => .inPlugin inner kind position cause
  | .asyncInSync inner => .asyncInSync inner
  | cause =>
    let found := t.get? node
    let start := (found.bind Node.source).bind Source.start
    .inPlugin plugin (found.map Node.kind) (start.map fun p => (p.line, p.column)) cause

/-- What a callback does when it is called in a run. -/
def perform (p : Program σ) (l : Listener σ) (node : NodeId) : Action σ Unit :=
  if l.callback.awaited && !p.awaits then throw (.asyncInSync l.plugin)
  else l.callback.body ⟨node, l.plugin, p.options⟩

/-- Calls a callback and goes on at `next`. -/
def call (p : Program σ) (r : PluginRun σ) (l : Listener σ) (node : NodeId) (next : RunPoint σ) :
    PluginRun σ :=
  match StateT.run (ExceptT.run (perform p l node)) r.stage with
  | (.ok (), stage) => ⟨stage, some l.plugin, next⟩
  | (.error e, stage) =>
    ⟨stage, some l.plugin, .failed (decorate stage.desk.tree l.plugin node e)⟩

/-! ### Visits -/

/-- Whether a node can be visited: it is a root, or stands in a list. -/
def canVisit (t : Tree) (node : NodeId) : Bool :=
  t.kind? node == some .root || (t.parent? node).isSome

/-- Leaves a visit without doing what is left of it. -/
def abandon (r : PluginRun σ) (v : Visit σ) (below : List (Visit σ)) : PluginRun σ :=
  let r :=
    match v.cursor with
    | some cursor => r.withTree (r.tree.closeCursor v.node cursor)
    | none => r
  r.moveTo (.visiting below)

/-- Goes on to the child at the cursor of a visit. A child that was visited is passed over. -/
def nextChild (r : PluginRun σ) (v : Visit σ) (cursor : Nat) (below : List (Visit σ)) :
    PluginRun σ :=
  match r.tree.cursorChild? v.node cursor with
  | none =>
    (r.withTree (r.tree.closeCursor v.node cursor)).moveTo
      (.visiting ({ v with cursor := none } :: below))
  | some (_, child) =>
    let t := r.tree.advanceCursor v.node cursor
    if t.isClean child then (r.withTree t).moveTo (.visiting (v :: below))
    else
      let t := t.markClean child
      (r.withTree t).moveTo (.visiting (.ofNode t child :: v :: below))

/-- Goes on to the next part of a visit. -/
def nextStep (p : Program σ) (r : PluginRun σ) (v : Visit σ) (below : List (Visit σ)) :
    PluginRun σ :=
  match v.steps with
  | [] => r.moveTo (.visiting below)
  | .children :: steps =>
    if (r.tree.children v.node).isEmpty then
      r.moveTo (.visiting ({ v with steps } :: below))
    else
      match (r.tree.markClean v.node).openCursor v.node with
      | some (cursor, t) =>
        (r.withTree t).moveTo (.visiting ({ v with steps, cursor := some cursor } :: below))
      | none => r.moveTo (.visiting ({ v with steps } :: below))
  | .event key :: steps =>
    let visitors := Plugin.listeners p.plugins (.visit key)
    r.moveTo (.visiting ({ v with steps, visitors } :: below))

/-- Goes on with the innermost visit. -/
def visitOn (p : Program σ) (r : PluginRun σ) (v : Visit σ) (below : List (Visit σ)) :
    PluginRun σ :=
  if canVisit r.tree v.node then
    match v.visitors with
    | l :: visitors => r.call p l v.node (.visiting ({ v with visitors } :: below))
    | [] =>
      match v.cursor with
      | some cursor => r.nextChild v cursor below
      | none => r.nextStep p v below
  else r.abandon v below

/-! ### Steps -/

/-- The call that the next step makes, if it makes one. -/
def call? (r : PluginRun σ) : Option (Listener σ × NodeId) :=
  match r.point with
  | .opening (l :: _) => some (l, Tree.rootId)
  | .closing (l :: _) => some (l, Tree.rootId)
  | .visiting (v :: _) =>
    if canVisit r.tree v.node then v.visitors.head?.map fun l => (l, v.node) else none
  | _ => none

/-- One step of a run. -/
def step (p : Program σ) (r : PluginRun σ) : PluginRun σ :=
  match r.point with
  | .opening (l :: rest) => r.call p l Tree.rootId (.opening rest)
  | .opening [] => if Plugin.anyHooks p.plugins then r.moveTo .settling else r.moveTo .finished
  | .settling =>
    if r.tree.isClean Tree.rootId then
      r.moveTo (.closing (Plugin.listeners p.plugins .atEnd))
    else
      let t := r.tree.markClean Tree.rootId
      (r.withTree t).moveTo (.visiting [.ofNode t Tree.rootId])
  | .visiting [] => r.moveTo .settling
  | .visiting (v :: below) => r.visitOn p v below
  | .closing (l :: rest) => r.call p l Tree.rootId (.closing rest)
  | .closing [] => r.moveTo .finished
  | .finished => r
  | .failed _ => r

/-- Up to `n` steps of a run. -/
def go (p : Program σ) : Nat → PluginRun σ → PluginRun σ
  | 0, r => r
  | n + 1, r => if r.isOver then r else go p n (r.step p)

/-- The calls that the first `n` steps of a run make. -/
def calls (p : Program σ) : Nat → PluginRun σ → List (Listener σ × NodeId)
  | 0, _ => []
  | n + 1, r => r.call?.toList ++ calls p n (r.step p)

end PluginRun

end Stylesheet
