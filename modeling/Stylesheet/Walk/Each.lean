import Stylesheet.Edit.Material
import Stylesheet.Tree.Basic

/-!
# Traversals

A traversal calls a visitor for nodes of a tree, and the visitor may change the tree meanwhile: the
traversal keeps its place with a cursor. Nothing bounds what a visitor inserts, so a traversal is
given a number of rounds; its result is none when these were not enough.

* `Visiting.each` goes through the children of a node.
* `Visiting.walk` goes through all nodes below a node, each before those below it.
* `Visiting.walkKind` does so with the nodes of one kind, and with a filter for their names.
-/

namespace Stylesheet

/-- Whether a traversal goes on. -/
inductive Flow (β : Type)
  | proceed
  | stop (reason : β)
deriving Repr, DecidableEq, Inhabited

/-- What a visitor does: it works on a desk and on a state of its own. -/
abbrev Visiting (σ : Type) := StateM (Desk × σ)

namespace Visiting

variable {σ β : Type}

/-- The tree as it is now. -/
def tree : Visiting σ Tree :=
  return (← get).1.tree

/-- Changes the tree. -/
def change (f : Tree → Tree) : Visiting σ Unit :=
  modify fun (d, s) => ({ d with tree := f d.tree }, s)

/-- Does an edit. -/
def edit (e : Editing α) : Visiting σ (Except Error α) :=
  modifyGet fun (d, s) =>
    let (result, d) := e.runOn d
    (result, (d, s))

/-- Goes through children from a cursor on. -/
def eachFrom (parent : NodeId) (cursor : Nat)
    (visit : NodeId → Nat → Visiting σ (Option (Flow β))) :
    Nat → Visiting σ (Option (Flow β))
  | 0 => return none
  | rounds + 1 => do
    match (← tree).cursorChild? parent cursor with
    | none => return some .proceed
    | some (i, child) =>
      match ← visit child i with
      | some .proceed =>
        change (·.advanceCursor parent cursor)
        eachFrom parent cursor visit rounds
      | other => return other

/-- Goes through the children of a node with a visitor that may itself not come to an end. -/
def eachWithin (rounds : Nat) (parent : NodeId)
    (visit : NodeId → Nat → Visiting σ (Option (Flow β))) : Visiting σ (Option (Flow β)) := do
  match (← tree).openCursor parent with
  | none => return some .proceed
  | some (cursor, t) =>
    change fun _ => t
    let result ← eachFrom parent cursor visit rounds
    change (·.closeCursor parent cursor)
    return result

/-- Goes through the children of a node. The visitor is told the place of the child. -/
def each (rounds : Nat) (parent : NodeId) (visit : NodeId → Nat → Visiting σ (Flow β)) :
    Visiting σ (Option (Flow β)) :=
  eachWithin rounds parent fun child i => some <$> visit child i

/-- Goes through all nodes below a node, each before those below it. -/
def walk (visit : NodeId → Visiting σ (Flow β)) : Nat → NodeId → Visiting σ (Option (Flow β))
  | 0, _ => return none
  | rounds + 1, id =>
    eachWithin rounds id fun child _ => do
      match ← visit child with
      | .proceed => walk visit rounds child
      | .stop reason => return some (.stop reason)

end Visiting

/-! ### Traversals of one kind of nodes -/

/-- Which names a traversal looks for. -/
inductive Filter
  | exact (name : String)
  /-- The names that a pattern matches. Patterns are read and matched by another package. -/
  | pattern (isMatch : String → Bool)

/-- Whether a name is looked for. -/
def Filter.accepts : Filter → String → Bool
  | .exact name, s => s == name
  | .pattern isMatch, s => isMatch s

/-- Whether a node is of a kind and, if there is a filter and the kind has names, has a name that is
looked for. -/
def Node.isWanted (kind : NodeKind) (filter : Option Filter) (n : Node) : Bool :=
  n.kind == kind &&
    match filter, n.content.label? with
    | some f, some name => f.accepts name
    | _, _ => true

/-- Goes through the nodes of a kind below a node, each before those below it. -/
def Visiting.walkKind (kind : NodeKind) (filter : Option Filter)
    (visit : NodeId → Visiting σ (Flow β)) (rounds : Nat) (id : NodeId) :
    Visiting σ (Option (Flow β)) :=
  walk (fun child => do
    if ((← tree).get? child).any (Node.isWanted kind filter) then visit child
    else return .proceed) rounds id

end Stylesheet
