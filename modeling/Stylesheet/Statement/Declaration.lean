import Stylesheet.Node.Raws
import Stylesheet.Statement.Basic
import Stylesheet.Text.Blank
import Stylesheet.Text.Case

/-!
# Declarations

The tokens of a declaration are a property, a colon and a value, with `!important` possibly behind
it. Tokens that are no words may stand in front of the property, and a `_` or `*` at its start is
formatting too.

* `cleanField` is a field of a node without the comments in it: a selector, the parameters of an
  at-rule, the value of a declaration.
* `readDeclaration` takes the tokens apart.
* `cutImportant` finds the mark at the end of a value.
* `missedSemicolon?` finds a second declaration inside a value.
-/

namespace Stylesheet

/-! ### Fields without comments

The text of a field is that of its tokens without the comments that touch white space or an end, and
without white space at the end. When something was left out, the whole text is kept beside it. -/

/-- Whether a comment next to this can be left out: an end of the tokens, or white space. -/
def isLoose : Option TokenKind → Bool
  | none => true
  | some kind => kind == .space

/-- Takes over tokens behind `value`, when `prev` is the kind of the token in front. The result says
whether nothing was left out. -/
def cleanFrom (custom : Bool) (prev : Option TokenKind) (value : String) (clean : Bool) :
    List Token → String × Bool
  | [] => (value, clean)
  | t :: ts =>
    let next := ts.head?.map Token.kind
    if t.kind == .space && ts.isEmpty && !custom then (value, false)
    else if t.kind == .comment &&
        (isLoose prev || isLoose next || value.toList.getLast? == some ',') then
      cleanFrom custom (some t.kind) value false ts
    else cleanFrom custom (some t.kind) (value ++ t.text) clean ts

/-- The field that tokens say, and the text of the tokens when something was left out. -/
def cleanField (custom : Bool) (ts : List Token) : String × Option RawValue :=
  let (value, clean) := cleanFrom custom none "" true ts
  (value, if clean then none else some ⟨value, Token.join ts⟩)

/-! ### Declarations, taken apart -/

/-- A declaration, taken apart. -/
structure DeclarationParts where
  /-- What stands in front of the property. -/
  lead : String
  /-- The first token of the property. -/
  first : Token
  prop : String
  between : String
  value : String
  rawValue : Option RawValue
  important : Bool
  /-- The spelling of the mark, when it is an unusual one. -/
  rawImportant : Option String
deriving Repr, DecidableEq

/-! ### The mark at the end -/

/-- Whether a text starts with an exclamation mark behind blanks. -/
def startsWithBang (s : String) : Bool :=
  (Text.trimStart s.toList).head? == some '!'

/-- Tokens without the white space at their end, and its text. -/
def cutSpaces (ts : List Token) : List Token × String :=
  let isSpace (t : Token) := t.kind == .space
  ((ts.reverse.dropWhile isSpace).reverse, Token.join (ts.reverse.takeWhile isSpace).reverse)

/-- Collects the mark from the end of a value: takes tokens off the end, kept last first in
`left`, and puts their texts in front of `mark`. `kinds` are the kinds of the tokens in front of the
word, the nearest first; the collecting goes on until an exclamation mark is found and the kind is
no white space. -/
def collectMark (mark : String) : List TokenKind → List Token → String × List Token
  | [], left => (mark, left)
  | kind :: kinds, left =>
    if startsWithBang mark && kind != .space then (mark, left)
    else
      match left with
      | [] => (mark, left)
      | t :: left => collectMark (t.text ++ mark) kinds left

/-- A value without its mark, whether it has one, and the spelling when that is unusual. The mark is
the last token that is neither white space nor a comment, `!important` in one token, or the word
`important` with an exclamation mark somewhere in front. -/
def cutImportant (ts : List Token) : List Token × Bool × Option String :=
  let tail := (ts.reverse.takeWhile Token.isGap).reverse
  let front := (ts.reverse.dropWhile Token.isGap).reverse
  match front.getLast? with
  | none => (ts, false, none)
  | some word =>
    let lower := Text.lower word.text
    if lower == "!important" then
      let (kept, spaces) := cutSpaces front.dropLast
      let mark := spaces ++ word.text ++ Token.join tail
      (kept, true, if mark == " !important" then none else some mark)
    else if lower == "important" then
      let kinds := (front.drop 1).reverse.map Token.kind
      let (mark, left) := collectMark "" kinds ts.reverse
      if startsWithBang mark then (left.reverse, true, some mark) else (ts, false, none)
    else (ts, false, none)

/-! ### A second declaration inside a value -/

/-- Looks for a colon outside of parentheses. `seen` are the tokens read so far, the last first;
`prev` is the last one that counts. The word `progid` may have a colon. -/
def findColon (depth : Int) (prev : Option Token) (seen : List Token) :
    List Token → Except Issue (Option (List Token))
  | [] => .ok none
  | t :: ts =>
    let depth :=
      if t.kind == .openParen then depth + 1 else if t.kind == .closeParen then depth - 1 else depth
    if depth == 0 && t.kind == .colon then
      match prev with
      | none => .error (.about .doubleColon t)
      | some p =>
        if p.kind == .word && p.text == "progid" then findColon depth prev (t :: seen) ts
        else .ok (some seen)
    else findColon depth (some t) (t :: seen) ts

/-- The second token from the end that is no white space, or the first token. The tokens are given
last first. -/
def secondWord (found : Nat) (last : Option Token) : List Token → Option Token
  | [] => last
  | t :: ts =>
    if t.kind == .space then secondWord found (some t) ts
    else if found == 1 then some t
    else secondWord (found + 1) (some t) ts

/-- The issue when a value holds a second declaration, for which a semicolon was missed. -/
def missedSemicolon? (ts : List Token) : Except Issue Unit := do
  match ← findColon 0 none [] ts with
  | none => .ok ()
  | some seen =>
    match secondWord 0 none seen with
    | none => .ok ()
    | some t =>
      .error { reason := .missedSemicolon, start := if t.kind == .word then t.stop else t.start }

/-! ### Taking a declaration apart -/

/-- The text between property and value, up to the colon, and what follows. A word with a letter, a
digit or an underscore cannot stand there. -/
def cutBetween (between : String) : List Token → Except Issue (String × List Token)
  | [] => .ok (between, [])
  | t :: ts =>
    if t.kind == .colon then .ok (between ++ t.text, ts)
    else if t.kind == .word && t.text.toList.any fun c => c.isAlphanum || c == '_' then
      .error (.about .unknownWord t)
    else cutBetween (between ++ t.text) ts

/-- The tokens in front of the first word, and the rest. Without a word there is no declaration,
and the last token is to blame. -/
def cutLead : List Token → Except Issue (List Token × Token × List Token)
  | [] => .error { reason := .unknownWord, start := 0 }
  | t :: ts =>
    if t.kind == .word then .ok ([], t, ts)
    else if ts.isEmpty then .error (.about .unknownWord t)
    else (cutLead ts).map fun (lead, first, rest) => (t :: lead, first, rest)

/-- Whether a token ends the property. -/
def endsProperty (t : Token) : Bool :=
  t.kind == .colon || t.isGap

/-- A mark of old browsers at the start of a property, and the property without it. -/
def cutHack (prop : String) : String × String :=
  match prop.toList with
  | '_' :: cs => ("_", String.ofList cs)
  | '*' :: cs => ("*", String.ofList cs)
  | _ => ("", prop)

/-- Takes the tokens of a declaration apart. They have no semicolon at their end. -/
def readDeclaration (custom : Bool) (ts : List Token) : Except Issue DeclarationParts := do
  let (lead, first, rest) ← cutLead ts
  let all := first :: rest
  let (between, rest) ← cutBetween "" (all.dropWhile fun t => !endsProperty t)
  let (hack, prop) := cutHack (Token.join (all.takeWhile fun t => !endsProperty t))
  let gaps := rest.takeWhile Token.isGap
  let body := rest.dropWhile Token.isGap
  if body.isEmpty && !custom then .error (.about .missingValue first)
  else
    let (kept, important, rawImportant) := cutImportant body
    let hasWord := kept.any fun t => !t.isGap
    let (value, rawValue) := cleanField custom (if hasWord then kept else gaps ++ kept)
    if value.toList.contains ':' && !custom then missedSemicolon? kept
    .ok
      { lead := Token.join lead ++ hack
        first
        prop
        between := if hasWord then between ++ Token.join gaps else between
        value
        rawValue
        important
        rawImportant }

end Stylesheet
