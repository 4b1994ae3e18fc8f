import Stylesheet.Proofs.Text.Boundary
import Stylesheet.Proofs.Token.Quoted

/-!
# Cutting by byte offsets

`cutToken` takes a token off a list of characters, so it cannot ask for a place that is not there. A
`Scanner` works on the bytes of a text: it looks for the end of a token byte by byte, and keeps the
two byte offsets of a token instead of its characters. Every index and every slice that it asks for
is checked: it stops with `Fault.outside` at an index behind the last byte and at a slice that
begins or ends inside of a character. Cutting a whole text stops with `Fault.stuck` where a token
takes nothing off.

A byte is tested as the character with its number. The tests ask for characters of ASCII only, so
none of them takes a byte of another character for one.
-/

namespace Stylesheet

open Text

/-- Why a scan stops. -/
inductive Fault
  | unclosed (unclosed : Unclosed)
  /-- An index behind the last byte, or a slice that begins or ends inside of a character, was asked
  for. -/
  | outside
  /-- Nothing was consumed. -/
  | stuck
deriving Repr, DecidableEq, Inhabited

/-- A computation on the bytes of a text that checks every place it asks for. -/
abbrev Bytewise := Except Fault

namespace Bytewise

variable (css : String)

/-! ### Bytes and slices -/

/-- The byte at an index, as the character with its number. -/
def byteAt (i : Nat) : Bytewise Char :=
  match (utf8 css)[i]? with
  | some b => .ok (.ofUInt8 b)
  | none => .error .outside

/-- The byte at an index, if there is one. -/
def byteAt? (i : Nat) : Option Char :=
  (utf8 css)[i]?.map .ofUInt8

/-- The bytes between two indices. -/
def between (start stop : Nat) : Bytewise (List Char) :=
  if start ≤ stop ∧ stop ≤ css.utf8ByteSize then
    .ok (((utf8 css).extract start stop).map .ofUInt8)
  else .error .outside

/-- The text between two byte offsets. -/
def slice (start stop : Nat) : Bytewise String :=
  match slice? css start stop with
  | some part => .ok part
  | none => .error .outside

/-! ### Searches -/

/-- The first index from `i` on that passes the test, or the number of bytes. -/
def firstFrom (p : Nat → Bytewise Bool) (i : Nat) : Bytewise Nat :=
  if i < css.utf8ByteSize then do
    if ← p i then return i else firstFrom p (i + 1)
  else return css.utf8ByteSize
termination_by css.utf8ByteSize - i

/-- Whether the byte at an index passes the test. -/
def passes (q : Char → Bool) (i : Nat) : Bytewise Bool := do
  return q (← byteAt css i)

/-- Whether a word ends in front of an index. -/
def endsWordAt (i : Nat) : Bytewise Bool := do
  let c ← byteAt css i
  return endsWord c || (c == '/' && byteAt? css (i + 1) == some '*')

/-- The first index from `start` on with the byte. -/
def findByte (c : Char) (start : Nat) : Option Nat :=
  if start ≤ css.utf8ByteSize then
    (((utf8 css).drop start).findIdx? fun b => Char.ofUInt8 b == c).map (start + ·)
  else none

/-- What is found lies between the start and the end of the text. -/
theorem bounds_of_findByte {css : String} {c : Char} {start found : Nat}
    (h : findByte css c start = some found) : start ≤ found ∧ found < css.utf8ByteSize := by
  rw [findByte] at h
  split at h
  · obtain ⟨k, hk, rfl⟩ := Option.map_eq_some_iff.mp h
    have hlt := (List.findIdx?_eq_some_iff_getElem.mp hk).1
    rw [List.length_drop, length_utf8] at hlt
    omega
  · cases h

/-- Whether the bytes in front of an index end in an odd number of backslashes. -/
def escapedAt (i : Nat) : Bytewise Bool := do
  let front ← between css 0 i
  return isEscaped front

/-- The first index from `start` on with the byte, if it is not escaped there. -/
def closeFrom (close : Char) (start : Nat) : Bytewise (Option Nat) :=
  match h : findByte css close start with
  | none => return none
  | some found => do
    have := bounds_of_findByte h
    if ← escapedAt css found then closeFrom close (found + 1) else return some found
termination_by css.utf8ByteSize - start

/-- Byte offset behind the character at an offset. -/
def charEnd (i : Nat) : Bytewise Nat := do
  let rest ← slice css i css.utf8ByteSize
  match rest.toList.head? with
  | some c => return i + c.utf8Size
  | none => return css.utf8ByteSize

/-! ### Tokens -/

/-- Passes over backslashes from an index on. Each of them turns over whether the last one
escapes. -/
def backslashes (i : Nat) (escape : Bool) : Bytewise (Nat × Bool) :=
  if i < css.utf8ByteSize then do
    if (← byteAt css i) == '\\' then backslashes (i + 1) !escape else return (i, escape)
  else return (i, escape)
termination_by css.utf8ByteSize - i

/-- The end of a character code, with one blank behind it. -/
def codeEnd (i : Nat) : Bytewise Nat := do
  let stop ← firstFrom css (passes css fun d => !isHex d) i
  if stop < css.utf8ByteSize then do
    if (← byteAt css stop) == ' ' then return stop + 1 else return stop
  else return stop

/-- The end of what is escaped by a backslash in front of an index. -/
def escapedEnd (i : Nat) : Bytewise Nat :=
  if i < css.utf8ByteSize then do
    let c ← byteAt css i
    if isSpace c || c == '/' then return i
    else if isHex c then codeEnd css i
    else charEnd css i
  else return i

/-- The token at a backslash. -/
def backslash (pos : Nat) : Bytewise (TokenKind × Nat) := do
  let (stop, escape) ← backslashes css (pos + 1) true
  if escape then return (.word, ← escapedEnd css stop) else return (.word, stop)

/-- The token at an opening quote. -/
def quoted (tolerant : Bool) (quote : Char) (pos : Nat) : Bytewise (TokenKind × Nat) := do
  match ← closeFrom css quote (pos + 1) with
  | some found => return (.string, ← charEnd css found)
  | none =>
    if tolerant then return (.string, css.utf8ByteSize) else throw (.unclosed ⟨.string, pos⟩)

/-- The token at the mark of a comment. -/
def comment (tolerant : Bool) (pos : Nat) : Bytewise (TokenKind × Nat) := do
  let rest ← slice css (pos + 2) css.utf8ByteSize
  match splitAt? ['*', '/'] rest.toList with
  | some (text, _) => return (.comment, pos + 2 + bytes text + 2)
  | none =>
    if tolerant then return (.comment, css.utf8ByteSize) else throw (.unclosed ⟨.comment, pos⟩)

/-- The word on top of the stack, if there is one. -/
def topWord : List (Nat × Nat) → Bytewise String
  | [] => return ""
  | (start, stop) :: _ => slice css start stop

/-- The group at an opening parenthesis, or the parenthesis alone where something breaks the
group. -/
def group (pos : Nat) : Bytewise (TokenKind × Nat) :=
  match findByte css ')' (pos + 1) with
  | some close => do
    let content ← between css (pos + 1) (close + 1)
    if content.any breaksGroup then return (.openParen, pos + 1)
    else return (.brackets, close + 1)
  | none => return (.openParen, pos + 1)

/-- The token at an opening parenthesis. -/
def paren (tolerant : Bool) (words : List (Nat × Nat)) (pos : Nat) :
    Bytewise (TokenKind × Nat) := do
  let word ← topWord css words
  if word == "url" && !((byteAt? css (pos + 1)).any fun c => c == '"' || c == '\'' || isSpace c)
  then
    match ← closeFrom css ')' (pos + 1) with
    | some found => return (.brackets, found + 1)
    | none =>
      if tolerant then return (.openParen, pos + 1) else throw (.unclosed ⟨.bracket, pos⟩)
  else group css pos

/-- The token at a byte offset: its kind, and the offset behind it. -/
def token (tolerant : Bool) (words : List (Nat × Nat)) (pos : Nat) :
    Bytewise (TokenKind × Nat) := do
  let c ← byteAt css pos
  match punctuation? c with
  | some kind => return (kind, pos + 1)
  | none =>
    if isSpace c then
      return (.space, ← firstFrom css (passes css fun d => !isSpace d) (pos + 1))
    else if c == '(' then paren css tolerant words pos
    else if c == '"' || c == '\'' then quoted css tolerant c pos
    else if c == '@' then return (.atWord, ← firstFrom css (passes css endsAtWord) (pos + 1))
    else if c == '\\' then backslash css pos
    else if c == '/' && byteAt? css (pos + 1) == some '*' then comment css tolerant pos
    else return (.word, ← firstFrom css (endsWordAt css) (pos + 1))

end Bytewise

/-! ### One token at a time -/

/-- A token by its two byte offsets. -/
structure Span where
  kind : TokenKind
  start : Nat
  stop : Nat
deriving Repr, DecidableEq, Inhabited

namespace Span

/-- The text of a token. -/
def text (css : String) (t : Span) : Bytewise String :=
  Bytewise.slice css t.start t.stop

/-- Byte offset of the last character of a token. -/
def last (css : String) (t : Span) : Bytewise Nat := do
  let text ← t.text css
  match text.toList.getLast? with
  | some c => return t.start + (text.utf8ByteSize - c.utf8Size)
  | none => return t.start

/-- The texts of tokens, one behind the other. -/
def joined (css : String) : List Span → Bytewise String
  | [] => return ""
  | t :: ts => do
    let text ← t.text css
    return text ++ (← joined css ts)

end Span

/-- The state of cutting the bytes of a text, with the tokens that were handed back. -/
structure Scanner where
  /-- Byte offset of what is not cut yet. -/
  pos : Nat := 0
  /-- The words on the stack, each by its two byte offsets. -/
  words : List (Nat × Nat) := []
  returned : List Span := []
  /-- Nothing that does not end is an error. -/
  tolerant : Bool := false
deriving Repr, DecidableEq, Inhabited

namespace Scanner

variable (css : String) (s : Scanner)

/-- The stack of words behind the first byte: a parenthesis takes one off. -/
def wordsAt : List (Nat × Nat) :=
  if Bytewise.byteAt? css s.pos == some '(' then s.words.tail else s.words

/-- The stack of words behind a token: plain words, which start with no backslash, are put on. -/
def wordsAfter (kind : TokenKind) (stop : Nat) : List (Nat × Nat) :=
  if kind == .word && Bytewise.byteAt? css s.pos != some '\\' then (s.pos, stop) :: s.words
  else s.wordsAt css

/-- Hands a token back; the next token will be this one. -/
def back (t : Span) : Scanner :=
  { s with returned := t :: s.returned }

/-- The next token, if there is one. With `tolerant` set this call takes what does not end. -/
def next (tolerant : Bool) : Bytewise (Option Span) × Scanner :=
  match s.returned with
  | t :: ts => (.ok (some t), { s with returned := ts })
  | [] =>
    if s.pos < css.utf8ByteSize then
      match Bytewise.token css (s.tolerant || tolerant) s.words s.pos with
      | .error fault => (.error fault, { s with words := s.wordsAt css })
      | .ok (kind, stop) =>
        (.ok (some ⟨kind, s.pos, stop⟩),
          { s with pos := stop, words := s.wordsAfter css kind stop })
    else (.ok none, s)

/-- Bytes that are not cut yet, and tokens that were handed back. -/
def left : Nat :=
  css.utf8ByteSize - s.pos + s.returned.length

/-- All tokens that are left. -/
def all (s : Scanner) : Bytewise (List Span) :=
  match s.next css false with
  | (.error fault, _) => .error fault
  | (.ok none, _) => .ok []
  | (.ok (some t), s') =>
    if s'.left css < s.left css then (all s').map (t :: ·) else .error .stuck
termination_by s.left css

end Scanner

/-- All tokens of a text, found by byte offsets. -/
def tokenizeBytes (tolerant : Bool) (css : String) : Bytewise (List Span) :=
  Scanner.all css { tolerant }

end Stylesheet
