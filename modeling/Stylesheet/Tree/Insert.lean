import Stylesheet.Text.Blank
import Stylesheet.Tree.Basic

/-!
# Nodes in and out of lists

Putting detached nodes into the list of a container, and taking nodes out again. Every cursor on the
list is moved along, so that a traversal of it goes on where it was.

New nodes take the blanks in front of them from a node that was there before, the *sample*. At the
top of a stylesheet the first node stands at the very beginning, so a node that comes in front of it
changes places with it in this respect.
-/

namespace Stylesheet

open Text

namespace Tree

/-- What was captured in front of a node. -/
def before? (t : Tree) (id : NodeId) : Option String :=
  (t.get? id).bind (·.raws.before)

/-- The tree with what stands in front of a node changed. -/
def setBefore (t : Tree) (before : Option String) (id : NodeId) : Tree :=
  t.modify id (·.withRaws fun r => { r with before })

/-- Whether a node is a root. -/
def isRoot (t : Tree) (id : NodeId) : Bool :=
  t.kind? id == some .root

/-! ### Settling in -/

/-- Gives a node its parent and, unless something was captured or the parent is a root, the blanks
of the sample. -/
def settleOne (parent : NodeId) (parentIsRoot : Bool) (sampleBefore : Option String) (t : Tree)
    (id : NodeId) : Tree :=
  (t.markTreeDirty id).modify id fun n =>
    let before :=
      if parentIsRoot || n.raws.before.isSome then n.raws.before else sampleBefore.map blanksOf
    { n.withRaws fun r => { r with before } with parent := some parent }

/-- What changes in front of nodes at the top of a stylesheet: the sample gives way to new nodes in
front of it, and new nodes elsewhere take over what is in front of it. -/
def settleAtTop (t : Tree) (parent sample : NodeId) (inFront : Bool) (ids : List NodeId)
    (sampleBefore : Option String) : Tree :=
  if inFront then t.setBefore ((t.children parent)[1]?.bind t.before?) sample
  else if t.first? parent == some sample then t
  else ids.foldl (·.setBefore sampleBefore) t

/-- Prepares nodes for a place in the list of `parent`, next to the sample. -/
def settle (t : Tree) (parent : NodeId) (sample : Option NodeId) (inFront : Bool)
    (ids : List NodeId) : Tree :=
  let sampleBefore := sample.bind t.before?
  let settled := ids.foldl (settleOne parent (t.isRoot parent) sampleBefore) t
  match sample with
  | some s =>
    if t.isRoot parent then settled.settleAtTop parent s inFront ids sampleBefore else settled
  | none => settled

/-! ### Insertion -/

/-- The tree with a list and the cursors on it changed, and the owner marked as changed. -/
def relist (t : Tree) (parent : NodeId) (f : List NodeId → List NodeId) (move : Int → Int) : Tree :=
  (t.modify parent fun n => (n.withChildren f).moveCursors move).markDirty parent

/-- The tree with nodes put into a list at a place, and the cursors moved. -/
def splice (t : Tree) (parent : NodeId) (place : Nat) (ids : List NodeId) (move : Int → Int) :
    Tree :=
  t.relist parent (fun list => list.take place ++ ids ++ list.drop place) move

/-- Puts detached nodes at the end of a list. -/
def insertLast (t : Tree) (parent : NodeId) (ids : List NodeId) : Tree :=
  let place := (t.children parent).length
  (t.settle parent (t.last? parent) false ids).splice parent place ids id

/-- Puts detached nodes at the beginning of a list. -/
def insertFirst (t : Tree) (parent : NodeId) (ids : List NodeId) : Tree :=
  (t.settle parent (t.first? parent) true ids).splice parent 0 ids (· + ids.length)

/-- Puts detached nodes in front of the node `exist` at place `i`. -/
def insertInFront (t : Tree) (parent exist : NodeId) (i : Nat) (ids : List NodeId) : Tree :=
  (t.settle parent (some exist) (i == 0) ids).splice parent i ids fun c =>
    if (i : Int) ≤ c then c + ids.length else c

/-- Puts detached nodes behind the node `exist` at place `i`. -/
def insertBehind (t : Tree) (parent exist : NodeId) (i : Nat) (ids : List NodeId) : Tree :=
  (t.settle parent (some exist) false ids).splice parent (i + 1) ids fun c =>
    if (i : Int) < c then c + ids.length else c

/-! ### Removal -/

/-- What the first node of a stylesheet leaves to the second one, when it goes. -/
def handOverBefore (t : Tree) (parent child : NodeId) (i : Nat) : Tree :=
  if t.isRoot parent && i == 0 then
    match (t.children parent)[1]? with
    | some second => t.setBefore (t.before? child) second
    | none => t
  else t

/-- The tree with a node detached. -/
def detach (t : Tree) (id : NodeId) : Tree :=
  t.modify id fun n => { n with parent := none }

/-- Takes the child at place `i` out of a list. -/
def removeAt (t : Tree) (parent child : NodeId) (i : Nat) : Tree :=
  ((t.handOverBefore parent child i).detach child).relist parent (·.eraseIdx i) fun c =>
    if (i : Int) ≤ c then c - 1 else c

/-- Takes all children out of a list. Cursors stay where they are. -/
def removeChildren (t : Tree) (parent : NodeId) : Tree :=
  ((t.children parent).foldl detach t).relist parent (fun _ => []) id

end Tree

end Stylesheet
