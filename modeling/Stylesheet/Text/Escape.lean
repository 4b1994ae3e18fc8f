/-!
# Escapes

A backslash in a stylesheet stands in front of a character code of one to six hexadecimal digits,
with one blank behind it that belongs to it, in front of a line feed, which disappears, or in
front of any other character, which then stands for itself.

* `unescape` resolves the escapes of a text.
* `unquote` takes the quotes off first.
* `quote` writes a text in quotes, so that `unquote` reads it back.
-/

namespace Stylesheet.Text

/-- Value of a hexadecimal digit. -/
def hexDigit? (c : Char) : Option Nat :=
  if '0' ≤ c ∧ c ≤ '9' then some (c.toNat - '0'.toNat)
  else if 'a' ≤ c ∧ c ≤ 'f' then some (c.toNat - 'a'.toNat + 10)
  else if 'A' ≤ c ∧ c ≤ 'F' then some (c.toNat - 'A'.toNat + 10)
  else none

/-- Whether a character is a hexadecimal digit. -/
def isHex (c : Char) : Bool :=
  (hexDigit? c).isSome

/-- The number that hexadecimal digits denote. -/
def hexValue (ds : List Char) : Nat :=
  ds.foldl (fun n d => 16 * n + (hexDigit? d).getD 0) 0

/-- The character with a code, or the replacement character for 0 and for codes that no character
has. -/
def charOfCode (n : Nat) : Char :=
  if n = 0 ∨ (0xD800 ≤ n ∧ n ≤ 0xDFFF) ∨ 0x10FFFF < n then '\uFFFD' else Char.ofNat n

/-- How far reading an escape has come. -/
inductive EscapeState
  /-- Outside of any escape. -/
  | plain
  /-- Behind the backslash. -/
  | opened
  /-- Behind the given digits of a character code. -/
  | code (digits : List Char)
deriving Repr, DecidableEq

/-- Whether the blank behind a character code belongs to it. -/
def endsCode (c : Char) : Bool :=
  c == ' ' || c == '\t' || c == '\n'

/-- Resolves escapes, from a state in the middle of one. -/
def unescapeFrom : EscapeState → List Char → List Char
  | .plain, [] => []
  | .opened, [] => ['\\']
  | .code ds, [] => [charOfCode (hexValue ds)]
  | .plain, c :: cs => if c == '\\' then unescapeFrom .opened cs else c :: unescapeFrom .plain cs
  | .opened, c :: cs =>
    if c == '\n' then unescapeFrom .plain cs
    else if isHex c then unescapeFrom (.code [c]) cs
    else c :: unescapeFrom .plain cs
  | .code ds, c :: cs =>
    if ds.length < 6 && isHex c then unescapeFrom (.code (ds ++ [c])) cs
    else
      charOfCode (hexValue ds) ::
        (if endsCode c then unescapeFrom .plain cs
        else if c == '\\' then unescapeFrom .opened cs
        else c :: unescapeFrom .plain cs)

/-- Resolves the escapes of a text. -/
def unescape (cs : List Char) : List Char :=
  unescapeFrom .plain cs

/-- The contents of a quoted text, with its escapes resolved. A missing quote at the end is
forgiven, and a text without a quote in front is taken as it is. -/
def unquote : List Char → List Char
  | [] => []
  | q :: cs =>
    if q == '"' || q == '\'' then
      unescape (if cs.getLast? == some q then cs.dropLast else cs)
    else unescape (q :: cs)

/-- Puts a backslash in front of every quote `q` and every backslash. -/
def escapeQuote (q : Char) : List Char → List Char
  | [] => []
  | c :: cs => if c == q || c == '\\' then '\\' :: c :: escapeQuote q cs else c :: escapeQuote q cs

/-- A text in quotes `q`. -/
def quote (q : Char) (cs : List Char) : List Char :=
  q :: escapeQuote q cs ++ [q]

end Stylesheet.Text
