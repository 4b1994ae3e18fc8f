import Stylesheet.Number.Binary64

/-!
# JSON values

Options, trees and source maps are written as JSON. The fields of an object keep their order, and a
name may occur more than once, as the text allows.
-/

namespace Stylesheet

/-- A JSON value. -/
inductive Json
  | null
  | bool (b : Bool)
  /-- A number without a fraction or exponent that fits 64 bits. -/
  | int (n : Int)
  /-- Any other number. -/
  | real (x : Binary64)
  | str (s : String)
  | arr (items : List Json)
  | obj (fields : List (String × Json))
deriving Repr, Inhabited

namespace Json

/-- A number that is natural. -/
def nat (n : Nat) : Json :=
  .int n

/-- The value of an option, or null. -/
def ofOption (f : α → Json) : Option α → Json
  | some a => f a
  | none => .null

/-- A text, or null. -/
def optStr : Option String → Json :=
  ofOption .str

/-- A natural number, or null. -/
def optNat : Option Nat → Json :=
  ofOption nat

/-- A field that is written only when it has a value. -/
def fieldIfSome (name : String) : Option Json → List (String × Json)
  | some j => [(name, j)]
  | none => []

/-- The last field of that name, in an object. -/
def get? (name : String) : Json → Option Json
  | .obj fields => (fields.reverse.find? (·.1 == name)).map (·.2)
  | _ => none

/-- The text, when the value is one. -/
def str? : Json → Option String
  | .str s => some s
  | _ => none

/-- The items, when the value is an array. -/
def arr? : Json → Option (List Json)
  | .arr items => some items
  | _ => none

/-- Whether the value is a text. -/
def isStr (j : Json) : Bool :=
  j.str?.isSome

/-- Whether the value is an array. -/
def isArr (j : Json) : Bool :=
  j.arr?.isSome

/-! ### Writing

A value is written without any blanks. In a text, a quote, a backslash and the control characters
are escaped, and all other characters stand for themselves. -/

/-- A hexadecimal digit in lower case. -/
def hexChar (n : Nat) : Char :=
  (Nat.toDigits 16 n).headD '0'

/-- A character inside quotes. -/
def escapeChar (c : Char) : List Char :=
  if c == '"' then ['\\', '"']
  else if c == '\\' then ['\\', '\\']
  else if c == '\n' then ['\\', 'n']
  else if c == '\r' then ['\\', 'r']
  else if c == '\t' then ['\\', 't']
  else if c == '\x08' then ['\\', 'b']
  else if c == '\x0c' then ['\\', 'f']
  else if c.toNat < 0x20 then
    ['\\', 'u', '0', '0', hexChar (c.toNat / 16), hexChar (c.toNat % 16)]
  else [c]

/-- A text in quotes. -/
def renderText (s : String) : String :=
  String.ofList ('"' :: s.toList.flatMap escapeChar ++ ['"'])

mutual

/-- The text of a value. -/
def render : Json → String
  | .null => "null"
  | .bool true => "true"
  | .bool false => "false"
  | .int n => String.ofList (if n < 0 then '-' :: Nat.toDigits 10 n.natAbs
      else Nat.toDigits 10 n.natAbs)
  | .real x => x.text
  | .str s => renderText s
  | .arr items => "[" ++ ",".intercalate (renderItems items) ++ "]"
  | .obj fields => "\x7b" ++ ",".intercalate (renderFields fields) ++ "\x7d"

/-- The texts of the items of an array. -/
def renderItems : List Json → List String
  | [] => []
  | j :: js => render j :: renderItems js

/-- The texts of the fields of an object. -/
def renderFields : List (String × Json) → List String
  | [] => []
  | (name, j) :: fields => (renderText name ++ ":" ++ render j) :: renderFields fields

end

end Json

end Stylesheet
