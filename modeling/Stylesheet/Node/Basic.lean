import Stylesheet.Input
import Stylesheet.Node.Kind
import Stylesheet.Node.Raws

/-!
# Nodes

A node has contents of one of five kinds, captured formatting and, when it was read from a text, its
place there. `Detail` is all of a node but its place in a tree.
-/

namespace Stylesheet

/-- What a node says. -/
inductive Content
  | root
  | rule (selector : String)
  | atRule (name params : String)
  | declaration (prop value : String) (important : Bool)
  | comment (text : String)
deriving Repr, DecidableEq, Inhabited

namespace Content

/-- The kind of a node with these contents. -/
def kind : Content → NodeKind
  | .root => .root
  | .rule _ => .rule
  | .atRule _ _ => .atRule
  | .declaration _ _ _ => .declaration
  | .comment _ => .comment

/-- The selector of a rule. -/
def selector? : Content → Option String
  | .rule selector => some selector
  | _ => none

/-- The name of an at-rule. -/
def name? : Content → Option String
  | .atRule name _ => some name
  | _ => none

/-- The parameters of an at-rule. -/
def params? : Content → Option String
  | .atRule _ params => some params
  | _ => none

/-- The property of a declaration. -/
def prop? : Content → Option String
  | .declaration prop _ _ => some prop
  | _ => none

/-- The value of a declaration. -/
def value? : Content → Option String
  | .declaration _ value _ => some value
  | _ => none

/-- Whether a declaration is marked as important. -/
def isImportant : Content → Bool
  | .declaration _ _ important => important
  | _ => false

/-- The text of a comment. -/
def text? : Content → Option String
  | .comment text => some text
  | _ => none

/-- Whether a new node with these contents has a block. At-rules get one later, if at all. -/
def opensBlock : Content → Bool
  | .root => true
  | .rule _ => true
  | _ => false

/-- The name that filters and plugins know a node by: a property, a selector or the name of an
at-rule. -/
def label? : Content → Option String
  | .declaration prop _ _ => some prop
  | .rule selector => some selector
  | .atRule name _ => some name
  | _ => none

end Content

/-- Where a node was read. The input is a number into the inputs of the tree. -/
structure Source where
  input : Nat
  start : Option Position := none
  /-- The last character of the node; its offset is the one behind it. -/
  stop : Option Position := none
deriving Repr, DecidableEq, Inhabited

/-- All of a node but its place in a tree. -/
structure Detail where
  content : Content
  raws : Raws := {}
  source : Option Source := none
  /-- The node has a block, in which children can stand. -/
  block : Bool := content.opensBlock
deriving Repr, DecidableEq, Inhabited

end Stylesheet
