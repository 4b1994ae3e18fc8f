/-!
# Tokens

A token is a run of characters of a stylesheet with the kind of thing it is. White space, comments
and punctuation are tokens too, so the texts of the tokens of a stylesheet, one behind the other,
are the stylesheet.
-/

namespace Stylesheet

/-- What a token is. -/
inductive TokenKind
  | space
  | word
  | string
  | atWord
  /-- A group in parentheses without quotes, slashes, escapes and line breaks. -/
  | brackets
  | comment
  | openParen
  | closeParen
  | openSquare
  | closeSquare
  | openCurly
  | closeCurly
  | semicolon
  | colon
deriving Repr, DecidableEq, Inhabited

/-- A run of characters that starts at byte `start` of the text. -/
structure Token where
  kind : TokenKind
  text : String
  start : Nat
deriving Repr, DecidableEq, Inhabited

namespace Token

/-- Byte offset behind the token. -/
def stop (t : Token) : Nat :=
  t.start + t.text.utf8ByteSize

/-- Byte offset of the token's last character. -/
def last (t : Token) : Nat :=
  match t.text.toList.getLast? with
  | some c => t.stop - c.utf8Size
  | none => t.start

/-- Whether the token is white space or a comment. -/
def isGap (t : Token) : Bool :=
  t.kind == .space || t.kind == .comment

/-- The texts of tokens, one behind the other. -/
def join (ts : List Token) : String :=
  String.join (ts.map Token.text)

@[simp] theorem join_nil : join [] = "" := rfl

theorem join_cons (t : Token) (ts : List Token) : join (t :: ts) = t.text ++ join ts := by
  simp [join]

theorem join_append (as bs : List Token) : join (as ++ bs) = join as ++ join bs := by
  simp [join]

end Token

/-- A string, comment or group that does not end. -/
inductive UnclosedKind
  | string
  | comment
  | bracket
deriving Repr, DecidableEq, Inhabited

/-- The word for what does not end. -/
def UnclosedKind.name : UnclosedKind → String
  | .string => "string"
  | .comment => "comment"
  | .bracket => "bracket"

/-- Something that starts at byte `offset` and does not end. -/
structure Unclosed where
  what : UnclosedKind
  offset : Nat
deriving Repr, DecidableEq, Inhabited

/-- What to tell about it. -/
def Unclosed.message (u : Unclosed) : String :=
  "Unclosed " ++ u.what.name

end Stylesheet
