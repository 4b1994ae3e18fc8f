import Stylesheet.Text.Blank
import Stylesheet.Tree.Basic

/-!
# The style of a tree

A node that was built, not read, has captured no formatting. It is printed in the style of the tree
it stands in: each trait of that style is taken from the first node, in the order of the document,
that shows it. A tree in which no node shows a trait has a fixed style.

* `Tree.sample?` finds what the first node shows of a trait.
* `Trait.usual` is the fixed style.
-/

namespace Stylesheet

/-- One trait of the style of a tree. -/
inductive Trait
  /-- What stands in front of a rule or an at-rule. -/
  | beforeRule
  | beforeDeclaration
  | beforeComment
  /-- What stands in front of the closing brace of a block with children. -/
  | beforeClose
  /-- What stands in front of the opening brace. -/
  | beforeOpen
  /-- What stands between property and value. -/
  | colon
  /-- What stands in a block without children. -/
  | emptyBody
  /-- One level of indentation. -/
  | indent
  | commentLeft
  | commentRight
deriving Repr, DecidableEq, Inhabited

/-- The style of a tree in which nothing shows the trait. -/
def Trait.usual : Trait → String
  | .beforeRule | .beforeDeclaration | .beforeComment | .beforeClose => "\n"
  | .beforeOpen => " "
  | .colon => ": "
  | .emptyBody => ""
  | .indent => "    "
  | .commentLeft | .commentRight => " "

namespace Text

/-- The text up to its last line break; all of it when it has none. -/
def upToLastBreak (s : String) : String :=
  if s.toList.contains '\n' then
    String.ofList (s.toList.reverse.dropWhile (· != '\n')).reverse
  else s

/-- The text behind its last line break; all of it when it has none. -/
def lastLine (s : String) : String :=
  String.ofList (s.toList.reverse.takeWhile (· != '\n')).reverse

/-- The blanks of a text up to its last line break. -/
def breakBlanks (s : String) : String :=
  blanksOf (upToLastBreak s)

end Text

open Text

namespace Tree

/-- The first value that `f` has for a node below `top`, in the order of the document. -/
def findBelow? (t : Tree) (top : NodeId) (f : NodeId → Node → Option α) : Option α :=
  (t.descendants top).findSome? fun id => (t.get? id).bind (f id)

/-- The captured text in front of the first node of a kind. -/
def sampleBefore? (t : Tree) (top : NodeId) (kind : NodeKind) : Option String :=
  t.findBelow? top fun _ n => if n.kind = kind then n.raws.before.map breakBlanks else none

/-- The captured text in front of the first node with a block. The first node of the tree does not
count, for nothing has to divide it from another one. -/
def sampleBeforeRule? (t : Tree) (top : NodeId) : Option String :=
  t.findBelow? top fun id n =>
    if !n.isContainer || (n.parent == some top && t.first? top == some id) then none
    else n.raws.before.map breakBlanks

/-- The captured text behind the last child of the first block with children. -/
def sampleBeforeClose? (t : Tree) (top : NodeId) : Option String :=
  t.findBelow? top fun _ n =>
    if n.children.isEmpty then none else n.raws.after.map breakBlanks

/-- The captured text in front of the first opening brace. -/
def sampleBeforeOpen? (t : Tree) (top : NodeId) : Option String :=
  t.findBelow? top fun _ n => if n.kind = .declaration then none else n.raws.between

/-- The colon of the first declaration, with the blanks around it. -/
def sampleColon? (t : Tree) (top : NodeId) : Option String :=
  t.findBelow? top fun _ n =>
    if n.kind = .declaration then
      n.raws.between.map fun s =>
        String.ofList (s.toList.filter fun c => c == ':' || isBlank c)
    else none

/-- The captured text in the first block without children. -/
def sampleEmptyBody? (t : Tree) (top : NodeId) : Option String :=
  t.findBelow? top fun _ n =>
    if n.isContainer && n.children.isEmpty then n.raws.after else none

/-- One level of indentation: what the topmost node says, or the blanks in front of the first node
at the second level. -/
def sampleIndent? (t : Tree) (top : NodeId) : Option String :=
  match ((t.get? top).bind (·.raws.indent)).filter (· != "") with
  | some indent => some indent
  | none =>
    t.findBelow? top fun _ n =>
      match n.parent with
      | none => none
      | some parent =>
        if parent == top || t.parent? parent != some top then none
        else n.raws.before.map fun s => blanksOf (lastLine s)

/-- What the nodes below `top` show of a trait. -/
def sample? (t : Tree) (top : NodeId) : Trait → Option String
  | .beforeRule => t.sampleBeforeRule? top
  | .beforeDeclaration => t.sampleBefore? top .declaration
  | .beforeComment => t.sampleBefore? top .comment
  | .beforeClose => t.sampleBeforeClose? top
  | .beforeOpen => t.sampleBeforeOpen? top
  | .colon => t.sampleColon? top
  | .emptyBody => t.sampleEmptyBody? top
  | .indent => t.sampleIndent? top
  | .commentLeft => t.findBelow? top fun _ n => n.raws.left
  | .commentRight => t.findBelow? top fun _ n => n.raws.right

/-- Whether the first block that ends with a declaration closes it with a semicolon. -/
def sampleSemicolon? (t : Tree) (top : NodeId) : Option Bool :=
  t.findBelow? top fun _ n =>
    match n.children.getLast? with
    | some last => if t.kind? last = some .declaration then n.raws.semicolon else none
    | none => none

/-- How many blocks a node stands in. -/
def depth (t : Tree) (id : NodeId) : Nat :=
  ((t.lineage id).tail.takeWhile fun above => t.kind? above != some .root).length

end Tree

end Stylesheet
