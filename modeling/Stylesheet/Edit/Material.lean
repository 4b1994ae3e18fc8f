import Stylesheet.Edit.Bag
import Stylesheet.Tree.Insert
import Stylesheet.Tree.Parse

/-!
# The desk and what is put on it

Edits work on a desk: a tree together with what reading a stylesheet depends on, for an edit may
insert a text. An edit that fails keeps what it has done up to there.

Anything that is inserted is first made into detached nodes of the tree. A node that stands in a
list already, or that would end up inside itself, is copied.
-/

namespace Stylesheet

/-- A tree that is being edited. -/
structure Desk where
  tree : Tree
  workspace : Workspace := {}

/-- An edit, or a part of one. -/
abbrev Editing := ExceptT Error (StateM Desk)

namespace Editing

/-- The tree as it is now. -/
def tree : Editing Tree :=
  return (← get).tree

/-- Changes the tree. -/
def change (f : Tree → Tree) : Editing Unit :=
  modify fun d => { d with tree := f d.tree }

/-- Changes the tree by something that gives a result. -/
def changeGet (f : Tree → α × Tree) : Editing α :=
  modifyGet fun d =>
    let (a, tree) := f d.tree
    (a, { d with tree })

/-- A node that has to be in the tree. -/
def node (id : NodeId) : Editing Node := do
  match (← tree).get? id with
  | some n => return n
  | none => throw .unknownNode

/-- Reads a stylesheet. -/
def parsed (css : String) (options : ParseOptions) : Editing Tree := do
  let (result, workspace) := parse (← get).workspace css options
  modify fun d => { d with workspace }
  match result with
  | .ok t => return t
  | .error e => throw e

/-- Runs an edit. -/
def runOn (e : Editing α) (d : Desk) : Except Error α × Desk :=
  StateT.run (ExceptT.run e) d

end Editing

/-! ### What can be inserted -/

/-- What can be inserted. -/
inductive Material
  /-- A node of the tree. -/
  | node (id : NodeId)
  | nodes (ids : List NodeId)
  | bag (bag : Bag)
  | bags (bags : List Bag)
  /-- The nodes of a text, without their places in it. -/
  | text (css : String)
  /-- The nodes of another tree, with their places. `shared` says which inputs of the other tree are
  inputs of this one, by their numbers in both. -/
  | tree (other : Tree) (shared : List (Nat × Nat))

namespace Editing

mutual

/-- Makes the node of a bag. -/
def build : Bag → Editing NodeId
  | .node fields nodes => do
    let detail ← (fields.detail? nodes.isSome : Except Error Detail)
    let id ← changeGet (·.push { detail })
    if detail.block then buildList id nodes
    return id

/-- Makes the children of a node, if it has a list of them. -/
def buildList (parent : NodeId) : Option (List Bag) → Editing Unit
  | none => return
  | some bags => buildAll parent bags

/-- Makes children of a node one after the other. -/
def buildAll (parent : NodeId) : List Bag → Editing Unit
  | [] => return
  | bag :: bags => do
    let child ← build bag
    change (·.insertLast parent [child])
    buildAll parent bags

end

/-- A node that can be put into the list of `parent`: the given one, or a copy of it. -/
def adopt (parent : Option NodeId) (id : NodeId) : Editing NodeId := do
  let n ← node id
  if n.kind = .root then throw .notAChild
  let t ← tree
  if n.parent.isSome || parent.any (t.isAncestor id) then
    changeGet (·.copy id)
  else
    return id

/-- Makes detached nodes, to be put into the list of `parent` if there is one. -/
def materialize (parent : Option NodeId) : Material → Editing (List NodeId)
  | .node id => return [← adopt parent id]
  | .nodes ids => ids.mapM (adopt parent)
  | .bag bag => return [← build bag]
  | .bags bags => bags.mapM build
  | .text css => do
    let other ← parsed css {}
    changeGet (·.importText other)
  | .tree other shared => changeGet (·.importTree other shared)

end Editing

end Stylesheet
