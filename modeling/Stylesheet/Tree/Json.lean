import Stylesheet.Sketch
import Stylesheet.Tree.Graft

/-!
# Trees as JSON

A node is an object with its `type`, its `raws`, the fields of its kind and, when it has a block,
its `nodes`. The inputs are written once, at the root, in the order in which nodes first refer to
them; a node refers to an input by number.

Reading has two stages, and an error of the first wins over any of the second: first every object is
read by its form, then the tree is put together.
-/

namespace Stylesheet

/-! ### Writing -/

/-- A position as JSON. Line and column are written as numbers of 32 bits. -/
def Position.toJson (p : Position) : Json :=
  .obj [("offset", .nat p.offset), ("line", .nat (p.line % UInt32.size)),
    ("column", .nat (p.column % UInt32.size))]

/-- The fields that the kind of a node has. -/
def Content.toFields : Content → List (String × Json)
  | .root => []
  | .rule selector => [("selector", .str selector)]
  | .atRule name params => [("name", .str name), ("params", .str params)]
  | .declaration prop value important =>
    [("prop", .str prop), ("value", .str value)] ++
      if important then [("important", .bool true)] else []
  | .comment text => [("text", .str text)]

namespace Tree

/-- The inputs that nodes of the tree were read from, in the order of the document. -/
def usedInputs (t : Tree) : List Nat :=
  ((t.shape rootId).toList.filterMap fun id => (t.detail id).source.map Source.input).eraseDups

/-- A place in one of the listed inputs as JSON. -/
def sourceJson (used : List Nat) (s : Source) : Json :=
  .obj ([("inputId", .nat (used.idxOf s.input))] ++
    Json.fieldIfSome "start" (s.start.map Position.toJson) ++
    Json.fieldIfSome "end" (s.stop.map Position.toJson))

/-- The fields of a node with the given children. -/
def nodeFields (used : List Nat) (d : Detail) (nodes : List Json) : List (String × Json) :=
  [("type", .str d.content.kind.name), ("raws", d.raws.toJson)] ++ d.content.toFields ++
    (if d.block then [("nodes", .arr nodes)] else []) ++
    Json.fieldIfSome "source" (d.source.map (sourceJson used))

mutual

/-- A branch as JSON. -/
def branchJson (used : List Nat) : Draft → Json
  | .node d kids => .obj (nodeFields used d (branchesJson used kids))

/-- Several branches as JSON. -/
def branchesJson (used : List Nat) : List Draft → List Json
  | [] => []
  | b :: bs => branchJson used b :: branchesJson used bs

end

/-- The tree as JSON. -/
def toJson (t : Tree) : Json :=
  let used := t.usedInputs
  let inputs := used.filterMap fun i => t.inputs[i]?.map Input.toJson
  match t.draft rootId with
  | .node d kids =>
    .obj (nodeFields used d (branchesJson used kids) ++
      if inputs.isEmpty then [] else [("inputs", .arr inputs)])

end Tree

/-! ### Reading the form -/

/-- Reads a position. -/
def Position.ofJson? (j : Json) : Option Position := do
  let r ← j.record? ["offset", "line", "column"]
  let offset ← Json.need Json.readNat64 "offset" r
  let line ← Json.need Json.readNat32 "line" r
  let column ← Json.need Json.readNat32 "column" r
  some ⟨offset, line, column⟩

/-- Reads the place of a node. -/
def Source.ofJson? (j : Json) : Option Source := do
  let r ← j.record? ["inputId", "start", "end"]
  let input ← Json.need Json.readNat64 "inputId" r
  let start ← Json.optional Position.ofJson? "start" r
  let stop ← Json.optional Position.ofJson? "end" r
  some ⟨input, start, stop⟩

/-- Reads a kind. -/
def NodeKind.ofJson? (j : Json) : Option NodeKind :=
  match Json.variant? j with
  | some (name, .null) => NodeKind.ofName? name
  | _ => none

/-- The object of one node, apart from its children. -/
structure NodeRecord where
  kind : NodeKind
  raws : Raws
  selector : Option String
  name : Option String
  params : Option String
  prop : Option String
  value : Option String
  important : Bool
  text : Option String
  source : Option Source
  inputs : List Input.Fields
deriving Repr

namespace NodeRecord

/-- The fields of the object of a node, in order. -/
def fieldNames : List String :=
  ["type", "raws", "selector", "name", "params", "prop", "value", "important", "text", "nodes",
    "source", "inputs"]

/-- Reads the object of a node, apart from its children. -/
def ofFields? (r : Json) : Option NodeRecord := do
  let kind ← Json.need NodeKind.ofJson? "type" r
  let raws ← Json.withDefault {} Raws.ofJson? "raws" r
  let selector ← Json.optional Json.readStr "selector" r
  let name ← Json.optional Json.readStr "name" r
  let params ← Json.optional Json.readStr "params" r
  let prop ← Json.optional Json.readStr "prop" r
  let value ← Json.optional Json.readStr "value" r
  let important ← Json.withDefault false Json.readBool "important" r
  let text ← Json.optional Json.readStr "text" r
  let source ← Json.optional Source.ofJson? "source" r
  let inputs ← Json.withDefault [] (Json.readList Input.readFields) "inputs" r
  some ⟨kind, raws, selector, name, params, prop, value, important, text, source, inputs⟩

end NodeRecord

/-- A node with all that is below it, read by its form. -/
abbrev NodeForm := Sketch NodeRecord

/-- Reads a node with all that is below it by its form. -/
def NodeForm.ofJson? (j : Json) : Option NodeForm :=
  Sketch.ofJson? NodeRecord.fieldNames NodeRecord.ofFields? j

/-! ### Putting the tree together -/

namespace NodeRecord

/-- The contents of a node that is not the root. -/
def content? (r : NodeRecord) : Except Error Content :=
  match r.kind with
  | .root => .error .unknownNodeType
  | .rule => .ok (.rule (r.selector.getD ""))
  | .atRule => .ok (.atRule (r.name.getD "") (r.params.getD ""))
  | .declaration =>
    match r.value with
    | some value => .ok (.declaration (r.prop.getD "") value r.important)
    | none => .error .declarationWithoutValue
  | .comment => .ok (.comment (r.text.getD ""))

/-- The place of a node, which has to be in one of `count` inputs. -/
def source? (r : NodeRecord) (count : Nat) : Except Error (Option Source) :=
  match r.source with
  | none => .ok none
  | some s =>
    if s.input < count then .ok (some s)
    else .error (.other ("source refers to missing input " ++ Decimal.natText s.input))

end NodeRecord

namespace NodeForm

mutual

/-- The branch of a node that is not the root. -/
def draft? (count : Nat) : NodeForm → Except Error Draft
  | .node r children => do
    let content ← r.content?
    let source ← r.source? count
    let kids ← kids? count children
    .ok (.node ⟨content, r.raws, source, content.opensBlock || children.isSome⟩ kids)

/-- The branches of the children of a node. -/
def kids? (count : Nat) : Option (List NodeForm) → Except Error (List Draft)
  | none => .ok []
  | some forms => drafts? count forms

/-- The branches of several nodes. -/
def drafts? (count : Nat) : List NodeForm → Except Error (List Draft)
  | [] => .ok []
  | form :: forms => do
    let draft ← draft? count form
    let drafts ← drafts? count forms
    .ok (draft :: drafts)

end

/-- The tree of a root. -/
def tree? (e : Environment) : NodeForm → Except Error Tree
  | .node r children => do
    if r.kind ≠ .root then throw (.wrongKind .root r.kind)
    let inputs ← r.inputs.mapM (Input.ofFields e)
    let source ← r.source? inputs.length
    let kids ← kids? inputs.length children
    let top : Draft := .node ⟨.root, r.raws, source, true⟩ kids
    .ok { nodes := (Tree.layout 0 none top).toArray, inputs := inputs.toArray }

end NodeForm

/-- Reads a tree. -/
def Tree.ofJson (e : Environment) (j : Json) : Except Error Tree :=
  match NodeForm.ofJson? j with
  | none => .error .json
  | some form => form.tree? e

end Stylesheet
