import Stylesheet.Branch
import Stylesheet.Node.Basic

/-!
# Trees

A tree keeps its nodes in one store, under numbers that are given out in order and never used again.
Containers list their children by number, and every node knows its parent. A node that no list
holds is detached: it stays in the store and can be inserted again.

The root is the first node of the store.

A cursor is a place in the list of a container that a traversal keeps. It has a number, under which
the container knows it while the list changes.
-/

namespace Stylesheet

/-- The number of a node in its tree. -/
structure NodeId where
  index : Nat
deriving Repr, DecidableEq, Inhabited

/-- A place in a list of children that is kept while the list changes. -/
structure Cursor where
  id : Nat
  index : Int
deriving Repr, DecidableEq, Inhabited

/-- A node in the store of a tree. -/
structure Node where
  detail : Detail
  parent : Option NodeId := none
  children : List NodeId := []
  /-- The traversals of the children that are going on. -/
  cursors : List Cursor := []
  /-- The number of the last cursor that was opened. -/
  lastCursor : Nat := 0
  /-- The node was visited and has not changed since. -/
  clean : Bool := false
deriving Repr, DecidableEq, Inhabited

namespace Node

/-- What the node says. -/
def content (n : Node) : Content := n.detail.content

/-- The kind of the node. -/
def kind (n : Node) : NodeKind := n.content.kind

/-- The captured formatting of the node. -/
def raws (n : Node) : Raws := n.detail.raws

/-- Where the node was read. -/
def source (n : Node) : Option Source := n.detail.source

/-- Whether the node has a block. -/
def isContainer (n : Node) : Bool := n.detail.block

/-- The node with its details changed. -/
def withDetail (f : Detail → Detail) (n : Node) : Node :=
  { n with detail := f n.detail }

/-- The node with its formatting changed. -/
def withRaws (f : Raws → Raws) (n : Node) : Node :=
  n.withDetail fun d => { d with raws := f d.raws }

/-- The node with its children changed. -/
def withChildren (f : List NodeId → List NodeId) (n : Node) : Node :=
  { n with children := f n.children }

/-- The node with every cursor moved. -/
def moveCursors (f : Int → Int) (n : Node) : Node :=
  { n with cursors := n.cursors.map fun c => { c with index := f c.index } }

end Node

/-- A stylesheet, with all of its nodes and the inputs they were read from. -/
structure Tree where
  nodes : Array Node
  inputs : Array Input := #[]
deriving Repr, DecidableEq

namespace Tree

/-- A tree with nothing but a root. -/
def empty : Tree where
  nodes := #[{ detail := { content := .root } }]

instance : Inhabited Tree := ⟨empty⟩

/-- The root of every tree. -/
def rootId : NodeId := ⟨0⟩

/-- A node, if it is in the store. -/
def get? (t : Tree) (id : NodeId) : Option Node :=
  t.nodes[id.index]?

/-- Whether a node is in the store. -/
def contains (t : Tree) (id : NodeId) : Bool :=
  (t.get? id).isSome

/-- The tree with one node changed. -/
def modify (t : Tree) (id : NodeId) (f : Node → Node) : Tree :=
  { t with nodes := t.nodes.modify id.index f }

/-- The tree with several nodes changed in the same way. -/
def modifyAll (t : Tree) (ids : List NodeId) (f : Node → Node) : Tree :=
  ids.foldl (fun t id => t.modify id f) t

/-- The tree with one more node, and its number. -/
def push (t : Tree) (n : Node) : NodeId × Tree :=
  (⟨t.nodes.size⟩, { t with nodes := t.nodes.push n })

/-- The tree with one more detached node with the given contents, and its number. -/
def create (t : Tree) (content : Content) : NodeId × Tree :=
  t.push { detail := { content } }

/-! ### Looking around -/

/-- The kind of a node. -/
def kind? (t : Tree) (id : NodeId) : Option NodeKind :=
  (t.get? id).map Node.kind

/-- The parent of a node. -/
def parent? (t : Tree) (id : NodeId) : Option NodeId :=
  (t.get? id).bind Node.parent

/-- The children of a node; a node that cannot have any has none. -/
def children (t : Tree) (id : NodeId) : List NodeId :=
  ((t.get? id).map Node.children).getD []

/-- The place of a child in the list of a container. -/
def indexIn? (t : Tree) (parent child : NodeId) : Option Nat :=
  (t.children parent).findIdx? (· == child)

/-- The place of a node in the list of its parent. -/
def index? (t : Tree) (id : NodeId) : Option Nat :=
  (t.parent? id).bind fun parent => t.indexIn? parent id

/-- The node behind a node in the list of its parent. -/
def next? (t : Tree) (id : NodeId) : Option NodeId := do
  let parent ← t.parent? id
  let i ← t.indexIn? parent id
  (t.children parent)[i + 1]?

/-- The node in front of a node in the list of its parent. -/
def prev? (t : Tree) (id : NodeId) : Option NodeId := do
  let parent ← t.parent? id
  let i ← t.indexIn? parent id
  if i = 0 then none else (t.children parent)[i - 1]?

/-- The first child. -/
def first? (t : Tree) (id : NodeId) : Option NodeId :=
  (t.children id).head?

/-- The last child. -/
def last? (t : Tree) (id : NodeId) : Option NodeId :=
  (t.children id).getLast?

/-- Whether a node was visited and has not changed since. -/
def isClean (t : Tree) (id : NodeId) : Bool :=
  (t.get? id).any Node.clean

/-! ### Up and down -/

/-- A node and the nodes above it, the nearest first, up to `fuel` of them. -/
def lineageWithin (t : Tree) : Nat → NodeId → List NodeId
  | 0, id => [id]
  | fuel + 1, id =>
    id ::
      match t.parent? id with
      | some parent => t.lineageWithin fuel parent
      | none => []

/-- A node and the nodes above it, the nearest first. No node is above itself, so there are at most
as many as the store holds. -/
def lineage (t : Tree) (id : NodeId) : List NodeId :=
  t.lineageWithin t.nodes.size id

/-- The topmost node above a node; the node itself when it is detached. -/
def rootOf (t : Tree) (id : NodeId) : NodeId :=
  (t.lineage id).getLast?.getD id

/-- Whether a node is another one or stands above it. -/
def isAncestor (t : Tree) (above id : NodeId) : Bool :=
  (t.lineage id).contains above

/-- A node with the nodes below it, down to `fuel` levels. -/
def shapeWithin (t : Tree) : Nat → NodeId → Branch NodeId
  | 0, id => .node id []
  | fuel + 1, id => .node id ((t.children id).map (t.shapeWithin fuel))

/-- A node with all nodes below it. -/
def shape (t : Tree) (id : NodeId) : Branch NodeId :=
  t.shapeWithin t.nodes.size id

/-- The nodes below a node, each before those below it. -/
def descendants (t : Tree) (id : NodeId) : List NodeId :=
  (t.shape id).toList.tail

/-! ### Marks -/

/-- Marks a node, unless it is marked already, and the nodes above it as changed. -/
def markDirty (t : Tree) (id : NodeId) : Tree :=
  if t.isClean id then t.modifyAll (t.lineage id) fun n => { n with clean := false } else t

/-- Marks a node and all nodes below it as changed. -/
def markTreeDirty (t : Tree) (id : NodeId) : Tree :=
  t.modifyAll (t.shape id).toList fun n => { n with clean := false }

/-- Marks a node as visited. -/
def markClean (t : Tree) (id : NodeId) : Tree :=
  t.modify id fun n => { n with clean := true }

/-! ### Cursors -/

/-- Opens a cursor at the first child. A node without a block has no cursors. -/
def openCursor (t : Tree) (parent : NodeId) : Option (Nat × Tree) := do
  let n ← t.get? parent
  if n.isContainer then
    let id := n.lastCursor + 1
    some (id, t.modify parent fun n =>
      { n with lastCursor := id, cursors := n.cursors ++ [⟨id, 0⟩] })
  else none

/-- The child at a cursor and its place. -/
def cursorChild? (t : Tree) (parent : NodeId) (cursor : Nat) : Option (Nat × NodeId) := do
  let n ← t.get? parent
  let c ← n.cursors.find? (·.id == cursor)
  if c.index < 0 then none
  else
    let child ← n.children[c.index.toNat]?
    some (c.index.toNat, child)

/-- Moves one cursor to the next child. -/
def advanceCursor (t : Tree) (parent : NodeId) (cursor : Nat) : Tree :=
  t.modify parent fun n =>
    { n with cursors := n.cursors.map fun c =>
        if c.id == cursor then { c with index := c.index + 1 } else c }

/-- Closes a cursor. -/
def closeCursor (t : Tree) (parent : NodeId) (cursor : Nat) : Tree :=
  t.modify parent fun n => { n with cursors := n.cursors.filter (·.id != cursor) }

end Tree

end Stylesheet
