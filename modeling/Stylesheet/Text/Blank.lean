import Stylesheet.Text.Unicode

/-!
# Blanks, letters and digits

Two sets of characters separate words in a stylesheet and in the texts around it.

* `isBlank` is the Unicode property `White_Space`. It decides what trimming removes.
* `isSpace` is the smaller set that the grammar of a stylesheet knows: a blank, a tab, a line
  feed, a carriage return and a form feed.

`isLetterOrDigit` decides which characters may stand in the unit of a number.
-/

namespace Stylesheet.Text

/-- The Unicode property `White_Space`. -/
def isBlank (c : Char) : Bool :=
  let n := c.toNat
  (0x09 ≤ n && n ≤ 0x0D) || n == 0x20 || n == 0x85 || n == 0xA0 || n == 0x1680 ||
    (0x2000 ≤ n && n ≤ 0x200A) || n == 0x2028 || n == 0x2029 || n == 0x202F || n == 0x205F ||
    n == 0x3000

/-- The characters that the grammar of a stylesheet treats as white space. -/
def isSpace (c : Char) : Bool :=
  c == ' ' || c == '\n' || c == '\t' || c == '\r' || c == '\x0c'

/-- Every white space character of the grammar is blank. -/
theorem isBlank_of_isSpace {c : Char} (h : isSpace c = true) : isBlank c = true := by
  simp only [isSpace, Bool.or_eq_true, beq_iff_eq] at h
  rcases h with (((rfl | rfl) | rfl) | rfl) | rfl <;> decide

/-- Drops the blanks in front. -/
def trimStart (cs : List Char) : List Char :=
  cs.dropWhile isBlank

/-- Drops the blanks at the end. -/
def trimEnd (cs : List Char) : List Char :=
  (cs.reverse.dropWhile isBlank).reverse

/-- Drops the blanks at both ends. -/
def trim (cs : List Char) : List Char :=
  trimEnd (trimStart cs)

/-- The text without the blanks at both ends. -/
def trimmed (s : String) : String :=
  String.ofList (trim s.toList)

/-- The blanks of a text, in order, and nothing else. -/
def blanksOf (s : String) : String :=
  String.ofList (s.toList.filter isBlank)

/-- Whether a character is a letter or a number. -/
def isLetterOrDigit (c : Char) : Bool :=
  Unicode.inRanges Unicode.alphanumeric c.toNat

end Stylesheet.Text
