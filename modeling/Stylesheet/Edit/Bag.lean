import Stylesheet.Error
import Stylesheet.Node.Basic
import Stylesheet.Sketch

/-!
# Bags

A bag describes a node that is to be made by some of its fields. The fields that are there decide
the kind: a property makes a declaration, a selector a rule, a name an at-rule, and a text a
comment; the first of these counts.
-/

namespace Stylesheet

/-- The fields of a node that is to be made. -/
structure BagFields where
  prop : Option String := none
  value : Option String := none
  important : Option Bool := none
  selector : Option String := none
  /-- The parts of a selector, when it is not given as a whole. -/
  selectors : Option (List String) := none
  name : Option String := none
  params : Option String := none
  text : Option String := none
  raws : Option Raws := none
deriving Repr, DecidableEq, Inhabited

/-- A description of a node that is to be made, with its children if it has a list of them. -/
abbrev Bag := Sketch BagFields

namespace BagFields

/-- What the node says. -/
def content? (b : BagFields) : Except Error Content :=
  match b.prop with
  | some prop =>
    match b.value with
    | some value => .ok (.declaration prop value (b.important.getD false))
    | none => .error .declarationWithoutValue
  | none =>
    match b.selector.or (b.selectors.map (", ".intercalate ·)) with
    | some selector => .ok (.rule selector)
    | none =>
      match b.name with
      | some name => .ok (.atRule name (b.params.getD ""))
      | none =>
        match b.text with
        | some text => .ok (.comment text)
        | none => .error .unknownNodeType

/-- The details of the node. An at-rule has a block when a list of children is given. -/
def detail? (b : BagFields) (hasList : Bool) : Except Error Detail :=
  b.content?.map fun content =>
    let block :=
      match content with
      | .atRule _ _ => hasList
      | c => c.opensBlock
    ⟨content, b.raws.getD {}, none, block⟩

/-- The fields of a bag, in order. -/
def fieldNames : List String :=
  ["prop", "value", "important", "selector", "selectors", "name", "params", "text", "raws", "nodes"]

/-- Reads the fields of a bag, apart from the children. -/
def ofFields? (r : Json) : Option BagFields := do
  let prop ← Json.optional Json.readStr "prop" r
  let value ← Json.optional Json.readStr "value" r
  let important ← Json.optional Json.readBool "important" r
  let selector ← Json.optional Json.readStr "selector" r
  let selectors ← Json.optional (Json.readList Json.readStr) "selectors" r
  let name ← Json.optional Json.readStr "name" r
  let params ← Json.optional Json.readStr "params" r
  let text ← Json.optional Json.readStr "text" r
  let raws ← Json.optional Raws.ofJson? "raws" r
  some ⟨prop, value, important, selector, selectors, name, params, text, raws⟩

end BagFields

namespace Bag

/-- Reads a bag. -/
def ofJson? (j : Json) : Option Bag :=
  Sketch.ofJson? BagFields.fieldNames BagFields.ofFields? j

/-- A declaration. -/
def declaration (prop value : String) : Bag :=
  .node { prop := some prop, value := some value } none

/-- A rule without children. -/
def rule (selector : String) : Bag :=
  .node { selector := some selector } none

/-- An at-rule without a block. -/
def atRule (name params : String) : Bag :=
  .node { name := some name, params := some params } none

/-- A comment. -/
def comment (text : String) : Bag :=
  .node { text := some text } none

/-- The bag with the mark of importance set. -/
def withImportant (important : Bool) : Bag → Bag
  | .node fields nodes => .node { fields with important := some important } nodes

/-- The bag with captured formatting. -/
def withRaws (raws : Raws) : Bag → Bag
  | .node fields nodes => .node { fields with raws := some raws } nodes

/-- The bag with a list of children. -/
def withNodes (nodes : List Bag) : Bag → Bag
  | .node fields _ => .node fields (some nodes)

end Bag

end Stylesheet
