import Stylesheet.Text.Measure
import Stylesheet.Text.Search

/-!
# Lines and columns

A position in a text is a line and a column, both counted from 1. Lines end before a line feed; a
carriage return in front of it still belongs to the line. Columns count UTF-16 units, while the
rest of the library counts bytes, and a `LineIndex` converts between the two.

The index keeps, for every line, where it starts and a few marks along it, each with its byte
offset, its column and the text that follows. A query finds the line and the mark by binary search,
and reads on from the mark.

* `LineIndex.position` sends an offset to a line and a column.
* `LineIndex.offset?` sends a line and a column to an offset.
* `plainPosition` is what `position` computes, said without an index.
-/

namespace Stylesheet.Text

/-- A place on a line from which reading can go on. -/
structure Mark where
  /-- Byte offset in the text. -/
  offset : Nat
  /-- UTF-16 units between the start of the line and the mark. -/
  column : Nat
  /-- What follows in the text, on this line and on those below. -/
  rest : List Char
deriving Repr, DecidableEq

/-- One line, with marks along it. The first mark is at its start. -/
structure Line where
  start : Nat
  marks : Array Mark
  /-- Byte offset of the end of the line, before its line feed. -/
  stop : Nat
  marked : 0 < marks.size
deriving Repr, DecidableEq

/-- Characters between two marks on a line. -/
def stride : Nat := 64

/-- The marks on a line after the first: one behind every `stride` characters. `left` counts down to
the next one. There is none behind the line feed. -/
def marksFrom (offset column left : Nat) : List Char → List Mark
  | [] => []
  | c :: cs =>
    if c == '\n' then []
    else
      let offset' := offset + c.utf8Size
      let column' := column + charUnits c
      if left ≤ 1 then ⟨offset', column', cs⟩ :: marksFrom offset' column' stride cs
      else marksFrom offset' column' (left - 1) cs

/-- The line at the front of `text`, which starts at byte `start`. -/
def Line.ofText (start : Nat) (text : List Char) : Line where
  start := start
  marks := (⟨start, 0, text⟩ :: marksFrom start 0 stride text).toArray
  stop := start + bytes (text.takeWhile (· != '\n'))
  marked := Nat.zero_lt_succ _

/-- The lines behind the line feeds of a text that starts at byte `start`. -/
def linesFrom (start : Nat) : List Char → List Line
  | [] => []
  | c :: cs =>
    let next := start + c.utf8Size
    if c == '\n' then Line.ofText next cs :: linesFrom next cs else linesFrom next cs

/-- An index of the lines of one text. There is at least one line. -/
structure LineIndex where
  lines : Array Line
  /-- Bytes of the text. -/
  size : Nat
  lined : 0 < lines.size
deriving Repr, DecidableEq

/-- The index of a text. -/
def LineIndex.ofText (cs : List Char) : LineIndex where
  lines := (Line.ofText 0 cs :: linesFrom 0 cs).toArray
  size := bytes cs
  lined := Nat.zero_lt_succ _

/-- Number of lines; an empty text has one. -/
def LineIndex.lineCount (index : LineIndex) : Nat :=
  index.lines.size

/-- UTF-16 column, from 0, of a byte offset: reads from a mark at byte `start` while whole
characters end at or before `offset`. -/
def columnFrom (offset start column : Nat) : List Char → Nat
  | [] => column
  | c :: cs =>
    if offset < start + c.utf8Size then column
    else columnFrom offset (start + c.utf8Size) (column + charUnits c) cs

/-- Number, from 0, of the line with a byte offset. Lines start at or in front of the offset, or
behind it; the search looks for no line in particular. -/
def LineIndex.lineOf (index : LineIndex) (offset : Nat) : Fin index.lines.size :=
  lastNotAbove (fun line => if line.start ≤ offset then .lt else .gt) index.lines index.lined

/-- The line with a byte offset. -/
def LineIndex.lineAt (index : LineIndex) (offset : Nat) : Line :=
  index.lines[index.lineOf offset]

/-- The last mark of the line at or in front of a byte offset. -/
def Line.markAtOffset (line : Line) (offset : Nat) : Mark :=
  line.marks[lastNotAbove (fun m => compare m.offset offset) line.marks line.marked]

/-- The last mark of the line at or in front of a column, from 0. -/
def Line.markAtColumn (line : Line) (column : Nat) : Mark :=
  line.marks[lastNotAbove (fun m => compare m.column column) line.marks line.marked]

/-- Line and column, both from 1, of a byte offset. An offset past the end means the end, one
inside a character the start of that character. -/
def LineIndex.position (index : LineIndex) (offset : Nat) : Nat × Nat :=
  let offset := min offset index.size
  let mark := (index.lineAt offset).markAtOffset offset
  (index.lineOf offset + 1, columnFrom offset mark.offset mark.column mark.rest + 1)

/-- The characters that end at or before byte `offset`. -/
def takeBytes (offset : Nat) : List Char → List Char
  | [] => []
  | c :: cs => if offset < c.utf8Size then [] else c :: takeBytes (offset - c.utf8Size) cs

/-- Byte offset reached from a mark by reading characters while they end at or before column
`target`. -/
def offsetFrom (target column offset : Nat) : List Char → Nat
  | [] => offset
  | c :: cs =>
    if target < column + charUnits c then offset
    else offsetFrom target (column + charUnits c) (offset + c.utf8Size) cs

/-- Byte offset of a line and a column, both from 1. There is none for a line that the text does
not have; a column past the end of the line means its end, since nothing behind it is read. -/
def LineIndex.offset? (index : LineIndex) (line column : Nat) : Option Nat :=
  match line with
  | 0 => none
  | n + 1 =>
    (index.lines[n]?).map fun l =>
      let target := column - 1
      let mark := l.markAtColumn target
      offsetFrom target mark.column mark.offset (takeBytes (l.stop - mark.offset) mark.rest)

/-- Line and column of a byte offset, counted on the text in front of it: one more than its line
feeds, one more than the units behind the last of them. -/
def plainPosition (cs : List Char) (offset : Nat) : Nat × Nat :=
  let front := takeBytes offset cs
  (front.count '\n' + 1, units (front.reverse.takeWhile (· != '\n')) + 1)

end Stylesheet.Text
