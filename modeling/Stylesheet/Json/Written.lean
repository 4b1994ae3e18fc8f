import Stylesheet.Json.Numeral
import Stylesheet.Text.Escape

/-!
# JSON as it is written

`Written.parse?` reads the characters of a value without asking what they mean: brackets, commas,
quotes, escapes and numbers have to have the right form, but a number may be too large, a text may
hold bytes or codes that are no characters, and values may be nested without any limit. What a
written value says is another question, which may be asked of some of its parts only.

The characters may have gaps, see `Text.legible`.
-/

namespace Stylesheet.Json

open Text

/-- A part of a text in quotes. -/
inductive Piece
  | char (c : Char)
  /-- A byte that belongs to no character. -/
  | gap
  /-- A code of four hexadecimal digits, which may be half of a pair. -/
  | code (n : Nat)
deriving Repr, DecidableEq, Inhabited

/-- A value as it is written. -/
inductive Written
  | null
  | bool (b : Bool)
  | number (n : Numeral)
  | text (pieces : List Piece)
  | arr (items : List Written)
  | obj (fields : List (List Piece × Written))
deriving Repr, Inhabited

/-- The text that pieces make. Codes from `D800` to `DFFF` have to come in pairs. -/
def Piece.text? : List Piece → Option (List Char)
  | [] => some []
  | .char c :: ps => (text? ps).map (c :: ·)
  | .gap :: _ => none
  | .code high :: .code low :: ps =>
    if 0xD800 ≤ high ∧ high ≤ 0xDBFF then
      if 0xDC00 ≤ low ∧ low ≤ 0xDFFF then
        (text? ps).map (Char.ofNat (0x10000 + (high - 0xD800) * 0x400 + (low - 0xDC00)) :: ·)
      else none
    else if 0xDC00 ≤ high ∧ high ≤ 0xDFFF then none
    else (text? (.code low :: ps)).map (Char.ofNat high :: ·)
  | .code n :: ps =>
    if 0xD800 ≤ n ∧ n ≤ 0xDFFF then none else (text? ps).map (Char.ofNat n :: ·)

namespace Written

/-- White space between the parts of a value. -/
def isSpace : Option Char → Bool
  | some c => c == ' ' || c == '\n' || c == '\t' || c == '\r'
  | none => false

/-- Drops the white space in front. -/
def skipSpace (cs : List (Option Char)) : List (Option Char) :=
  cs.dropWhile isSpace

/-- The character behind a backslash and a letter, for the escapes of one letter. -/
def shortEscape? (c : Char) : Option Char :=
  match c with
  | '"' => some '"'
  | '\\' => some '\\'
  | '/' => some '/'
  | 'b' => some '\x08'
  | 'f' => some '\x0c'
  | 'n' => some '\n'
  | 'r' => some '\r'
  | 't' => some '\t'
  | _ => none

/-- A text up to its closing quote. -/
def cutQuoted : List (Option Char) → Option (List Piece × List (Option Char))
  | [] => none
  | some '"' :: cs => some ([], cs)
  | some '\\' :: some 'u' :: some a :: some b :: some c :: some d :: cs =>
    if [a, b, c, d].all isHex then
      (cutQuoted cs).map fun (ps, rest) => (.code (hexValue [a, b, c, d]) :: ps, rest)
    else none
  | some '\\' :: some e :: cs =>
    match shortEscape? e with
    | some c => (cutQuoted cs).map fun (ps, rest) => (.char c :: ps, rest)
    | none => none
  | some '\\' :: _ => none
  | some c :: cs =>
    if c.toNat < 0x20 then none
    else (cutQuoted cs).map fun (ps, rest) => (.char c :: ps, rest)
  | none :: cs => (cutQuoted cs).map fun (ps, rest) => (.gap :: ps, rest)

/-- Whether a character can be part of a number or of one of the three names. -/
def isWordChar : Option Char → Bool
  | some c => c.isAlphanum || c == '+' || c == '-' || c == '.'
  | none => false

/-- The value that a word says: one of the three names, or a number. -/
def ofWord? (word : List Char) : Option Written :=
  if word = ['n', 'u', 'l', 'l'] then some .null
  else if word = ['t', 'r', 'u', 'e'] then some (.bool true)
  else if word = ['f', 'a', 'l', 's', 'e'] then some (.bool false)
  else (Numeral.read? word).map .number

/-- A value without brackets and quotes. No character of a word can stand behind it, so the word
is cut first and read then. -/
def cutWord (cs : List (Option Char)) : Option (Written × List (Option Char)) :=
  (ofWord? ((cs.takeWhile isWordChar).filterMap id)).map fun w => (w, cs.dropWhile isWordChar)

mutual

/-- A value at the front of a text. Every round but those that enter a list reads a character, so
twice as many rounds as there are characters suffice. -/
def cutValue : Nat → List (Option Char) → Option (Written × List (Option Char))
  | 0, _ => none
  | fuel + 1, cs =>
    match skipSpace cs with
    | some '"' :: ds => (cutQuoted ds).map fun (ps, rest) => (.text ps, rest)
    | some '[' :: ds =>
      match skipSpace ds with
      | some ']' :: rest => some (.arr [], rest)
      | rest => (cutItems fuel rest).map fun (items, rest) => (.arr items, rest)
    | some '{' :: ds =>
      match skipSpace ds with
      | some '}' :: rest => some (.obj [], rest)
      | rest => (cutFields fuel rest).map fun (fields, rest) => (.obj fields, rest)
    | ds => cutWord ds

/-- The items of an array up to its closing bracket. -/
def cutItems : Nat → List (Option Char) → Option (List Written × List (Option Char))
  | 0, _ => none
  | fuel + 1, cs => do
    let (item, rest) ← cutValue fuel cs
    match skipSpace rest with
    | some ']' :: rest => some ([item], rest)
    | some ',' :: rest => do
      let (items, rest) ← cutItems fuel rest
      some (item :: items, rest)
    | _ => none

/-- The fields of an object up to its closing brace. -/
def cutFields : Nat → List (Option Char) → Option (List (List Piece × Written) × List (Option Char))
  | 0, _ => none
  | fuel + 1, cs =>
    match skipSpace cs with
    | some '"' :: ds => do
      let (name, rest) ← cutQuoted ds
      match skipSpace rest with
      | some ':' :: rest => do
        let (value, rest) ← cutValue fuel rest
        match skipSpace rest with
        | some '}' :: rest => some ([(name, value)], rest)
        | some ',' :: rest => do
          let (fields, rest) ← cutFields fuel rest
          some ((name, value) :: fields, rest)
        | _ => none
      | _ => none
    | _ => none

end

/-- The value that characters write, if it is one and nothing else. -/
def parse? (cs : List (Option Char)) : Option Written :=
  match cutValue (2 * cs.length + 2) cs with
  | some (w, rest) => if (skipSpace rest).isEmpty then some w else none
  | none => none

/-- The value that a text writes. -/
def ofText? (s : String) : Option Written :=
  parse? (s.toList.map some)

end Written

end Stylesheet.Json
