import Stylesheet.Branch
import Stylesheet.Node.Basic
import Stylesheet.Statement.Basic
import Stylesheet.Statement.Declaration
import Stylesheet.Token.Lexer

/-!
# From statements to a branch

Statements are read one by one into an outline: the block that is open, the blocks around it, and
the formatting that was read and belongs to nothing yet. At the end of the text no block may be
open, and the outline is one branch.

`outlineText` reads the text of a whole stylesheet.
-/

namespace Stylesheet

open Text

/-- A block that is being read. Its children are kept last first. -/
structure Frame where
  detail : Detail
  kids : List (Branch Detail) := []
deriving Repr, Inhabited

/-- What was read so far. -/
structure Outline where
  current : Frame
  /-- The blocks around the current one, the nearest first. -/
  parents : List Frame := []
  /-- Formatting that the next node, or the end of the block, takes. -/
  spaces : String := ""
  /-- The last node ended with a semicolon. -/
  semicolon : Bool := false
deriving Repr, Inhabited

namespace Outline

/-- The end of a node whose last character ends the token. -/
def stopAt (locate : Nat → Position) (t : Token) : Position :=
  { locate t.last with offset := t.stop }

/-- The details of a node that starts at a byte offset, with the formatting in front of it. -/
def detail (o : Outline) (locate : Nat → Position) (content : Content) (offset : Nat) : Detail :=
  { content, raws := { before := some o.spaces }
    source := some { input := 0, start := some (locate offset) } }

/-- The details with the end of the node. -/
def withStop (d : Detail) (stop : Position) : Detail :=
  { d with source := d.source.map fun s => { s with stop := some stop } }

/-- Adds a node to the current block. -/
def add (o : Outline) (b : Branch Detail) (semicolon : Bool) : Outline :=
  { o with
    current := { o.current with kids := b :: o.current.kids }, spaces := "", semicolon }

/-- Adds a node without children. -/
def addLeaf (o : Outline) (d : Detail) (semicolon : Bool) : Outline :=
  o.add (.node d []) semicolon

/-- Opens the block of a node. -/
def openBlock (o : Outline) (d : Detail) : Outline :=
  { current := { detail := { d with block := true } }, parents := o.current :: o.parents }

/-- The current block with what its end captures. -/
def sealed (o : Outline) : Detail :=
  let d := o.current.detail
  { d with
    raws := { d.raws with
      semicolon := if o.current.kids.isEmpty then d.raws.semicolon else some o.semicolon
      after := some (d.raws.after.getD "" ++ o.spaces) } }

/-- Closes the current block. -/
def close (o : Outline) (locate : Nat → Position) (t : Token) : Except Issue Outline :=
  match o.parents with
  | [] => .error ⟨.unexpectedClose, t.start, some (t.start + 1)⟩
  | parent :: parents =>
    let branch := Branch.node (withStop o.sealed (stopAt locate t)) o.current.kids.reverse
    .ok { current := { parent with kids := branch :: parent.kids }, parents }

/-- A semicolon that ends nothing. Behind a rule, it and the formatting in front of it become part
of the rule, but only once. -/
def freeSemicolon (o : Outline) (locate : Nat → Position) (t : Token) : Outline :=
  let spaces := o.spaces ++ t.text
  let kept := { o with spaces }
  match o.current.kids with
  | .node d kids :: more =>
    if d.content.kind == .rule && (d.raws.ownSemicolon.getD "").isEmpty then
      let stop := locate t.start
      let d := withStop { d with raws := { d.raws with ownSemicolon := some spaces } }
        { stop with offset := stop.offset + spaces.utf8ByteSize }
      { kept with current := { o.current with kids := .node d kids :: more }, spaces := "" }
    else kept
  | [] => kept

/-- What stands between the marks of a comment. -/
def commentBody (text : List Char) : List Char :=
  let inner := text.drop 2
  match after? ['/', '*'] inner.reverse with
  | some body => body.reverse
  | none => inner

/-- The details of a comment. -/
def commentDetail (o : Outline) (locate : Nat → Position) (t : Token) : Detail :=
  let inner := commentBody t.text.toList
  let text := trim inner
  let left := inner.takeWhile isBlank
  let right := if text.isEmpty then [] else (inner.reverse.takeWhile isBlank).reverse
  let d := withStop (o.detail locate (.comment (String.ofList text)) t.start) (stopAt locate t)
  { d with raws := { d.raws with
      left := some (String.ofList left), right := some (String.ofList right) } }

/-- The details of a rule with the given head. -/
def ruleDetail (o : Outline) (locate : Nat → Position) (head : List Token) (brace : Token) :
    Detail :=
  let (kept, gaps) := cutGaps head
  let (selector, raw) := cleanField false kept
  let d := o.detail locate (.rule selector) (head.headD brace).start
  { d with raws := { d.raws with between := some (Token.join gaps), selector := raw } }

/-- Reads a declaration. -/
def declaration (o : Outline) (locate : Nat → Position) (custom : Bool) (ts : List Token) :
    Except Issue Outline := do
  let closed := ts.getLast?.any fun t => t.kind == .semicolon
  let body := if closed then ts.dropLast else ts
  let parts ← readDeclaration custom body
  let last :=
    if closed then ts.getLast? else (ts.reverse.dropWhile fun t => t.kind == .space).head?
  let content := Content.declaration parts.prop parts.value parts.important
  let d := o.detail locate content parts.first.start
  let d :=
    match last with
    | some t => withStop d (stopAt locate t)
    | none => d
  .ok (o.addLeaf
    { d with raws := { d.raws with
        before := some (o.spaces ++ parts.lead)
        between := some parts.between
        important := parts.rawImportant
        value := parts.rawValue } } closed)

/-- Reads an at-rule. At the end of the text, what stands behind its parameters belongs to the block
around it. -/
def atRule (o : Outline) (locate : Nat → Position) (name : Token) (params : List Token)
    (ending : AtRuleEnd) : Except Issue Outline :=
  let (kept, gaps) := cutGaps params
  let lead := kept.takeWhile Token.isGap
  let (text, raw) := cleanField false (kept.dropWhile Token.isGap)
  let left := ending == .textEnd && !kept.isEmpty
  let d := o.detail locate (.atRule (String.ofList (name.text.toList.drop 1)) text) name.start
  let d := { d with raws := { d.raws with
      between := some (if left then "" else Token.join gaps)
      afterName := some (Token.join lead)
      params := raw } }
  match ending with
  | .semicolon t => .ok (o.addLeaf (withStop d (stopAt locate t)) true)
  | .block _ => .ok (o.openBlock d)
  | .close t =>
    let last := (params.reverse.dropWhile fun t => t.kind == .space).head?
    let d :=
      match last with
      | some p => withStop d (stopAt locate p)
      | none => d
    (o.addLeaf d false).close locate t
  | .textEnd =>
    let d :=
      match kept.getLast? with
      | some p => withStop d (stopAt locate p)
      | none => d
    .ok { o.addLeaf d false with spaces := if left then Token.join gaps else "" }

/-- Reads one statement. -/
def step (locate : Nat → Position) (o : Outline) : Statement → Except Issue Outline
  | .space t => .ok { o with spaces := o.spaces ++ t.text }
  | .semicolon t => .ok (o.freeSemicolon locate t)
  | .close t => o.close locate t
  | .comment t => .ok (o.addLeaf (o.commentDetail locate t) o.semicolon)
  | .block t =>
    let d := o.detail locate (.rule "") t.start
    .ok (o.openBlock { d with raws := { d.raws with between := some "" } })
  | .rule head brace => .ok (o.openBlock (o.ruleDetail locate head brace))
  | .declaration custom ts => o.declaration locate custom ts
  | .atRule name params ending => o.atRule locate name params ending

/-- Before anything is read. -/
def empty : Outline where
  current.detail :=
    { content := .root, source := some { input := 0, start := some ⟨0, 1, 1⟩ } }

/-- The whole branch, at the end of the text. -/
def finish (o : Outline) (stop : Position) : Except Issue (Branch Detail) :=
  match o.parents with
  | [] => .ok (.node (withStop o.sealed stop) o.current.kids.reverse)
  | _ :: _ =>
    let start := (o.current.detail.source.bind Source.start).map Position.offset
    .error { reason := .unclosedBlock, start := start.getD 0 }

end Outline

/-- The branch of a text. `locate` gives the positions of byte offsets. -/
def outlineText (locate : Nat → Position) (css : String) : Except Issue (Branch Detail) := do
  let (tokens, unclosed) := lex false css
  let (statements, issue) := statementsFrom unclosed tokens
  let outline ← statements.foldlM (Outline.step locate) Outline.empty
  match issue with
  | some issue => .error issue
  | none => outline.finish (locate css.utf8ByteSize)

end Stylesheet
