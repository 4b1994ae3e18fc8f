import Stylesheet.Number.Decimal
import Stylesheet.Text.Cut

/-!
# Errors with a place

A syntax error says what is wrong and where. When the stylesheet was made by another tool that left
a source map, the place is the one in that tool's source, and `input` keeps the place in the text
that was read.

* `SyntaxError.message` is one line.
* `SyntaxError.excerpt` shows the lines around the place, with a mark below the column.
-/

namespace Stylesheet

/-- A place in the text that was read. -/
structure InputPlace where
  file : Option String
  line : Nat
  column : Nat
  endLine : Option Nat
  endColumn : Option Nat
deriving Repr, DecidableEq, Inhabited

/-- What is wrong, and where. -/
structure SyntaxError where
  reason : String
  file : Option String := none
  line : Option Nat := none
  column : Option Nat := none
  endLine : Option Nat := none
  endColumn : Option Nat := none
  /-- The text that the place is in. -/
  css : Option String := none
  /-- The plugin that found the error. -/
  plugin : Option String := none
  input : Option InputPlace := none
deriving Repr, DecidableEq, Inhabited

namespace SyntaxError

/-- The error in one line: plugin, file, place and reason. -/
def message (e : SyntaxError) : String :=
  (match e.plugin with
    | some plugin => plugin ++ ": "
    | none => "") ++
  e.file.getD "<css input>" ++
  (match e.line, e.column with
    | some line, some column => ":" ++ Decimal.natText line ++ ":" ++ Decimal.natText column
    | _, _ => "") ++
  ": " ++ e.reason

/-- The lines of a text, each without a carriage return at its end. -/
def sourceLines (css : String) : List (List Char) :=
  (Text.pieces '\n' css.toList).map fun line =>
    if line.getLast? == some '\r' then line.dropLast else line

/-- The column that stands in front of a line of the excerpt. -/
def gutter (width n : Nat) : List Char :=
  let digits := Nat.toDigits 10 n
  ' ' :: List.replicate (width - digits.length) ' ' ++ digits ++ [' ', '|', ' ']

/-- The gutter with blanks for its digits. -/
def blankGutter (width n : Nat) : List Char :=
  (gutter width n).map fun c => if Decimal.isDigit c then ' ' else c

/-- What stands under the part of the line in front of the mark. -/
def padding (column : Nat) (line : List Char) : List Char :=
  (line.take (column - 1)).map fun c => if c == '\t' then '\t' else ' '

/-- One line of the excerpt, and the line with the mark when it is the one in question. -/
def excerptLine (line column width n : Nat) (text : List Char) : List (List Char) :=
  if n == line then
    ['>' :: gutter width n ++ text, ' ' :: blankGutter width n ++ padding column text ++ ['^']]
  else [' ' :: gutter width n ++ text]

/-- The lines of the excerpt, numbered from `n`. -/
def excerptLines (line column width : Nat) : Nat → List (List Char) → List (List Char)
  | _, [] => []
  | n, text :: texts => excerptLine line column width n text ++
      excerptLines line column width (n + 1) texts

/-- The two lines before and after the place and the line itself, with a mark below the column.
Without a text or a line there is nothing to show. -/
def excerpt (e : SyntaxError) : String :=
  match e.css, e.line with
  | some css, some line =>
    let lines := sourceLines css
    let first := line - 3
    let last := min (line + 2) lines.length
    let width := Decimal.width last
    let shown := (lines.take last).drop (min first last)
    "\n".intercalate
      ((excerptLines line (e.column.getD 1) width (first + 1) shown).map String.ofList)
  | _, _ => ""

end SyntaxError

end Stylesheet
