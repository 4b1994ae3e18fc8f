import Stylesheet.Edit.Material
import Stylesheet.Print.Memory
import Stylesheet.Text.Cut

/-!
# Edits of fields

Changing what a node says and how it is formatted. A node is marked as changed only when the new
contents differ from the old ones.
-/

namespace Stylesheet

namespace Content

/-- The contents with another property. -/
def withProp (new : String) : Content → Content
  | .declaration _ value important => .declaration new value important
  | c => c

/-- The contents with another value. -/
def withValue (new : String) : Content → Content
  | .declaration prop _ important => .declaration prop new important
  | c => c

/-- The contents with another mark of importance. -/
def withImportant (new : Bool) : Content → Content
  | .declaration prop value _ => .declaration prop value new
  | c => c

/-- The contents with another selector. -/
def withSelector (new : String) : Content → Content
  | .rule _ => .rule new
  | c => c

/-- The contents with another name. -/
def withName (new : String) : Content → Content
  | .atRule _ params => .atRule new params
  | c => c

/-- The contents with other parameters. -/
def withParams (new : String) : Content → Content
  | .atRule name _ => .atRule name new
  | c => c

/-- The contents with another text. -/
def withText (new : String) : Content → Content
  | .comment _ => .comment new
  | c => c

end Content

namespace Tree

/-- The tree with the contents of a node changed, and the node marked if they differ. -/
def setContent (t : Tree) (id : NodeId) (old new : Content) : Tree :=
  if old = new then t
  else (t.modify id (·.withDetail fun d => { d with content := new })).markDirty id

/-- The parts of the selector of a rule. -/
def selectors (t : Tree) (id : NodeId) : List String :=
  match (t.get? id).bind (·.content.selector?) with
  | some selector => Text.commaParts selector
  | none => []

/-- What divides the parts of a selector: the first comma with the spaces behind it, or a comma and
what stands in front of the block. -/
def selectorSeparator (t : Tree) (id : NodeId) (n : Node) (selector : String) : String :=
  match selector.toList.dropWhile (· != ',') with
  | comma :: rest => String.ofList (comma :: rest.takeWhile Text.isSpace)
  | [] => "," ++ Id.run (t.slot Memory.none id n.raws.between .beforeOpen)

/-- The formatting without what stands around a node and, unless it is kept, between its parts. -/
def bare (keepBetween : Bool) (r : Raws) : Raws :=
  { r with before := none, after := none, between := if keepBetween then r.between else none }

/-- The tree without the captured formatting of a node and all nodes below it. -/
def cleanRaws (t : Tree) (id : NodeId) (keepBetween : Bool) : Tree :=
  (t.shape id).toList.foldl
    (fun t id => (t.modify id (·.withRaws (bare keepBetween))).markDirty id) t

/-- An error at the place where a node was read; without a place when it was not read. -/
def errorAt (k : Packages) (t : Tree) (id : NodeId) (reason : String) : SyntaxError :=
  let located : Option SyntaxError := do
    let source ← (t.get? id).bind Node.source
    let input ← t.inputs[source.input]?
    let start ← source.start
    some (input.error k reason (start.line, start.column)
      (source.stop.map fun p => (p.line, p.column + 1)))
  located.getD { reason }

end Tree

namespace Editing

/-- Changes the contents of a node that has to be of a kind. -/
def update (id : NodeId) (expected : NodeKind) (f : Content → Content) : Editing Unit := do
  let n ← node id
  if n.kind ≠ expected then throw (.wrongKind expected n.kind)
  change (·.setContent id n.content (f n.content))

/-- Changes the property of a declaration. -/
def setProp (id : NodeId) (new : String) : Editing Unit :=
  update id .declaration (·.withProp new)

/-- Changes the value of a declaration. -/
def setValue (id : NodeId) (new : String) : Editing Unit :=
  update id .declaration (·.withValue new)

/-- Marks a declaration as important or not. -/
def setImportant (id : NodeId) (new : Bool) : Editing Unit :=
  update id .declaration (·.withImportant new)

/-- Changes the selector of a rule. -/
def setSelector (id : NodeId) (new : String) : Editing Unit :=
  update id .rule (·.withSelector new)

/-- Changes the name of an at-rule. -/
def setName (id : NodeId) (new : String) : Editing Unit :=
  update id .atRule (·.withName new)

/-- Changes the parameters of an at-rule. -/
def setParams (id : NodeId) (new : String) : Editing Unit :=
  update id .atRule (·.withParams new)

/-- Changes the text of a comment. -/
def setText (id : NodeId) (new : String) : Editing Unit :=
  update id .comment (·.withText new)

/-- Changes the selector of a rule to one with the given parts, divided as before. -/
def setSelectors (id : NodeId) (values : List String) : Editing Unit := do
  let n ← node id
  match n.content.selector? with
  | none => throw (.wrongKind .rule n.kind)
  | some selector =>
    let t ← tree
    setSelector id ((t.selectorSeparator id n selector).intercalate values)

/-- Drops the captured formatting of a node and all nodes below it. -/
def cleanRaws (id : NodeId) (keepBetween : Bool) : Editing Unit := do
  let _ ← node id
  change (·.cleanRaws id keepBetween)

/-- Changes the formatting or the place of a node, which is marked as changed in any case. -/
def touch (id : NodeId) (f : Detail → Detail) : Editing Unit := do
  let _ ← node id
  change fun t => (t.markDirty id).modify id (·.withDetail f)

/-- Changes the captured formatting of a node. -/
def setRaws (id : NodeId) (raws : Raws) : Editing Unit :=
  touch id fun d => { d with raws }

/-- Forgets where a node was read. -/
def dropSource (id : NodeId) : Editing Unit :=
  touch id Tree.dropSource

/-- Marks a node as changed. -/
def markDirty (id : NodeId) : Editing Unit :=
  change (·.markDirty id)

end Editing

end Stylesheet
