import Stylesheet.Print.Memory

/-!
# Printing

A tree is printed as a list of chunks. A chunk that is the text of a node says which node it is and
which part of it; the formatting between nodes is in chunks of its own.

* `Tree.chunksWith` is the printer, for any memory.
* `Tree.chunks` prints with notes, `Tree.print` gives the text.
-/

namespace Stylesheet

/-- Which part of a node a chunk is. -/
inductive Phase
  /-- All of it: a declaration, a comment, or an at-rule without a block. -/
  | whole
  /-- All up to the opening brace. -/
  | start
  /-- The closing brace, or semicolons behind it. -/
  | stop
deriving Repr, DecidableEq, Inhabited

/-- A piece of printed text. -/
structure Chunk where
  text : String
  /-- The node that the chunk is a part of; none for formatting. -/
  part : Option (NodeId × Phase) := none
deriving Repr, DecidableEq, Inhabited

namespace Chunk

/-- Formatting, as a chunk unless there is none. -/
def formatting (text : String) : List Chunk :=
  if text == "" then [] else [{ text }]

/-- A part of a node. -/
def of (id : NodeId) (phase : Phase) (text : String) : Chunk :=
  ⟨text, some (id, phase)⟩

/-- The text of some chunks. -/
def textOf (chunks : List Chunk) : String :=
  String.join (chunks.map Chunk.text)

end Chunk

namespace Tree

variable {m : Type → Type} [Monad m]

/-- An at-rule up to its block or semicolon. -/
def atRuleHead (raws : Raws) (name params : String) : String :=
  let params := if params == "" then "" else RawValue.apply raws.params params
  let gap :=
    match raws.afterName with
    | some text => text
    | none => if params == "" then "" else " "
  "@" ++ name ++ gap ++ params

/-- A declaration without its semicolon. -/
def declarationText (raws : Raws) (between prop value : String) (important : Bool) : String :=
  prop ++ between ++ RawValue.apply raws.value value ++
    if important then raws.important.getD " !important" else ""

/-- The place of the last child that is no comment, which is the one that may go without a
semicolon; the first place when there is no such child. -/
def lastClosed (t : Tree) (children : List NodeId) : Nat :=
  children.length - 1 -
    (children.reverse.takeWhile fun id => t.kind? id == some .comment).length

mutual

/-- The chunks of a node with what is below it. -/
def printNode (t : Tree) (memory : Memory m) (closed : Bool) : Branch NodeId → m (List Chunk)
  | .node id kids =>
    match t.get? id with
    | none => pure []
    | some n =>
      let mark := if closed then ";" else ""
      let block (head : String) : m (List Chunk) := do
        let between ← t.slot memory id n.raws.between .beforeOpen
        let closesLast ← if n.children.isEmpty then pure false else t.closesLast memory id n
        let body ← t.printKids memory closesLast (t.lastClosed n.children) 0 kids
        let after ← t.afterText memory id n
        return Chunk.of id .start (head ++ between ++ "\x7b") :: body ++
          Chunk.formatting after ++ [Chunk.of id .stop "\x7d"]
      match n.content with
      | .root => do
        let closesLast ← t.closesLast memory id n
        let body ← t.printKids memory closesLast (t.lastClosed n.children) 0 kids
        return body ++ Chunk.formatting (n.raws.after.getD "")
      | .rule selector => do
        let chunks ← block (RawValue.apply n.raws.selector selector)
        let own := n.raws.ownSemicolon.getD ""
        return chunks ++ if own == "" then [] else [Chunk.of id .stop own]
      | .atRule name params =>
        let head := atRuleHead n.raws name params
        if n.isContainer then block head
        else pure [Chunk.of id .whole (head ++ n.raws.between.getD "" ++ mark)]
      | .declaration prop value important => do
        let between ← t.slot memory id n.raws.between .colon
        return [Chunk.of id .whole (declarationText n.raws between prop value important ++ mark)]
      | .comment text => do
        let left ← t.slot memory id n.raws.left .commentLeft
        let right ← t.slot memory id n.raws.right .commentRight
        return [Chunk.of id .whole ("/*" ++ left ++ text ++ right ++ "*/")]

/-- The chunks of the children from place `i` on. -/
def printKids (t : Tree) (memory : Memory m) (closesLast : Bool) (last i : Nat) :
    List (Branch NodeId) → m (List Chunk)
  | [] => pure []
  | kid :: kids => do
    let before ←
      match t.get? kid.label with
      | some n => t.beforeText memory kid.label n
      | none => pure ""
    let chunks ← t.printNode memory (last != i || closesLast) kid
    let rest ← t.printKids memory closesLast last (i + 1) kids
    return Chunk.formatting before ++ chunks ++ rest

end

/-- The chunks of a node with what is below it, inferred with the given memory. -/
def chunksWith (t : Tree) (memory : Memory m) (id : NodeId) : m (List Chunk) :=
  t.printNode memory false (t.shape id)

/-- The chunks of a node with what is below it. -/
def chunks (t : Tree) (id : NodeId) : List Chunk :=
  ((t.chunksWith Memory.notes id).run {}).1

/-- The text of a node with what is below it. -/
def textOf (t : Tree) (id : NodeId) : String :=
  Chunk.textOf (t.chunks id)

/-- The text of the whole tree. -/
def print (t : Tree) : String :=
  t.textOf rootId

end Tree

end Stylesheet
