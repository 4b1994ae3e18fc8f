import Stylesheet.Json.Fields

/-!
# Captured formatting

A node keeps the formatting around and inside it, as it was read: blanks, comments in odd places,
the spelling of `!important`. A slot that was not captured is filled by the printer, which looks at
the rest of the tree.
-/

namespace Stylesheet

/-- A field without its comments, and the text it was taken from. The text is used while the field
still has that value. -/
structure RawValue where
  value : String
  raw : String
deriving Repr, DecidableEq, Inhabited

/-- The captured formatting of a node. -/
structure Raws where
  /-- What stands in front of the node. -/
  before : Option String := none
  /-- What stands behind the last child. -/
  after : Option String := none
  /-- What stands between property and value, or in front of the opening brace. -/
  between : Option String := none
  /-- The last child ends with a semicolon. -/
  semicolon : Option Bool := none
  /-- What stands behind the name of an at-rule. -/
  afterName : Option String := none
  /-- What stands behind the opening mark of a comment. -/
  left : Option String := none
  /-- What stands in front of the closing mark of a comment. -/
  right : Option String := none
  /-- The spelling of `!important`. -/
  important : Option String := none
  /-- Semicolons behind the closing brace of a rule. -/
  ownSemicolon : Option String := none
  /-- One level of indentation. -/
  indent : Option String := none
  value : Option RawValue := none
  selector : Option RawValue := none
  params : Option RawValue := none
deriving Repr, DecidableEq, Inhabited

/-- A field, or the text it was taken from when it has not changed. -/
def RawValue.apply (raw : Option RawValue) (field : String) : String :=
  match raw with
  | some r => if r.value = field then r.raw else field
  | none => field

/-! ### JSON -/

/-- A captured field as JSON. -/
def RawValue.toJson (r : RawValue) : Json :=
  .obj [("value", .str r.value), ("raw", .str r.raw)]

/-- Reads a captured field. -/
def RawValue.ofJson? (j : Json) : Option RawValue := do
  let r ← j.record? ["value", "raw"]
  let value ← Json.need Json.readStr "value" r
  let raw ← Json.need Json.readStr "raw" r
  some ⟨value, raw⟩

namespace Raws

/-- The slots that were captured, as JSON. -/
def toJson (r : Raws) : Json :=
  let text name (value : Option String) := Json.fieldIfSome name (value.map .str)
  let field name (value : Option RawValue) := Json.fieldIfSome name (value.map RawValue.toJson)
  .obj (text "before" r.before ++ text "after" r.after ++ text "between" r.between ++
    Json.fieldIfSome "semicolon" (r.semicolon.map .bool) ++ text "afterName" r.afterName ++
    text "left" r.left ++ text "right" r.right ++ text "important" r.important ++
    text "ownSemicolon" r.ownSemicolon ++ text "indent" r.indent ++ field "value" r.value ++
    field "selector" r.selector ++ field "params" r.params)

/-- Reads captured formatting. -/
def ofJson? (j : Json) : Option Raws := do
  let r ← j.record? ["before", "after", "between", "semicolon", "afterName", "left", "right",
    "important", "ownSemicolon", "indent", "value", "selector", "params"]
  let text name := Json.optional Json.readStr name r
  let field name := Json.optional RawValue.ofJson? name r
  let before ← text "before"
  let after ← text "after"
  let between ← text "between"
  let semicolon ← Json.optional Json.readBool "semicolon" r
  let afterName ← text "afterName"
  let left ← text "left"
  let right ← text "right"
  let important ← text "important"
  let ownSemicolon ← text "ownSemicolon"
  let indent ← text "indent"
  let value ← field "value"
  let selector ← field "selector"
  let params ← field "params"
  some ⟨before, after, between, semicolon, afterName, left, right, important, ownSemicolon, indent,
    value, selector, params⟩

end Raws

end Stylesheet
