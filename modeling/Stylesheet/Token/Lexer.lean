import Stylesheet.Text.Blank
import Stylesheet.Text.Cut
import Stylesheet.Text.Escape
import Stylesheet.Text.Measure
import Stylesheet.Token.Basic

/-!
# Cutting a stylesheet into tokens

`cutToken` takes one token off the front of a text. The rules look at the characters ahead only,
with one exception: a parenthesis behind the word `url` starts a group whose contents are taken as
they are. For that the words read so far are kept on a stack, of which every opening parenthesis
takes one off.

* `cutToken_tiles`: what is taken and what is left are the text, and something is taken.
* `lex` cuts a whole text; `Lexer` hands out the tokens one by one and takes them back.
-/

namespace Stylesheet

open Text

/-- A text cut in two. -/
structure Cut where
  taken : List Char
  rest : List Char
deriving Repr, DecidableEq

/-- The two parts are `cs`, and the first has a character. -/
def Cut.Tiles (cut : Cut) (cs : List Char) : Prop :=
  cut.taken ++ cut.rest = cs ∧ cut.taken ≠ []

/-- Takes the first character and those behind it that pass the test. -/
def cutWhile (p : Char → Bool) (c : Char) (cs : List Char) : Cut :=
  ⟨c :: cs.takeWhile p, cs.dropWhile p⟩

/-- Reads up to the first `close` with an even number of backslashes in front of it. -/
def cutClosed (close : Char) (escaped : Bool) : List Char → Option Cut
  | [] => none
  | c :: cs =>
    if c == close && !escaped then some ⟨[c], cs⟩
    else (cutClosed close (c == '\\' && !escaped) cs).map fun cut => ⟨c :: cut.taken, cut.rest⟩

/-- Characters that a group read as one token cannot hold. -/
def breaksGroup (c : Char) : Bool :=
  c == '\r' || c == '\n' || c == '"' || c == '\'' || c == '(' || c == '/' || c == '\\'

/-- Reads up to the first closing parenthesis, when nothing in front of it breaks the group. -/
def cutGroup : List Char → Option Cut
  | [] => none
  | c :: cs =>
    if c == ')' then some ⟨[c], cs⟩
    else if breaksGroup c then none
    else (cutGroup cs).map fun cut => ⟨c :: cut.taken, cut.rest⟩

/-- Characters that end the word behind an `@`. -/
def endsAtWord (c : Char) : Bool :=
  isSpace c || c == '"' || c == '#' || c == '\'' || c == '(' || c == ')' || c == '/' || c == ';' ||
    c == '[' || c == '\\' || c == ']' || c == '{' || c == '}'

/-- Characters that end a word, save for a comment. -/
def endsWord (c : Char) : Bool :=
  isSpace c || c == '!' || c == '"' || c == '#' || c == '\'' || c == '(' || c == ')' || c == ':' ||
    c == ';' || c == '@' || c == '[' || c == '\\' || c == ']' || c == '{' || c == '}'

/-- The rest of a word: up to a character that ends it or the start of a comment. -/
def cutWord : List Char → Cut
  | [] => ⟨[], []⟩
  | c :: cs =>
    if endsWord c || (c == '/' && cs.head? == some '*') then ⟨[], c :: cs⟩
    else
      let cut := cutWord cs
      ⟨c :: cut.taken, cut.rest⟩

/-- What belongs to a backslash that escapes: nothing in front of white space and slashes, a
character code with one blank behind it, or any other character. -/
def cutEscaped : List Char → Cut
  | [] => ⟨[], []⟩
  | c :: cs =>
    if isSpace c || c == '/' then ⟨[], c :: cs⟩
    else if isHex c then
      let digits := cs.takeWhile isHex
      match cs.dropWhile isHex with
      | [] => ⟨c :: digits, []⟩
      | d :: ds => if d == ' ' then ⟨c :: digits ++ [d], ds⟩ else ⟨c :: digits, d :: ds⟩
    else ⟨[c], cs⟩

/-- A run of backslashes, with what the last one escapes when their number is odd. -/
def cutBackslashes (odd : Bool) : List Char → Cut
  | [] => ⟨[], []⟩
  | c :: cs =>
    if c == '\\' then
      let cut := cutBackslashes (!odd) cs
      ⟨c :: cut.taken, cut.rest⟩
    else if odd then cutEscaped (c :: cs)
    else ⟨[], c :: cs⟩

/-- What a token was found to be. -/
structure Lexeme where
  kind : TokenKind
  cut : Cut
deriving Repr, DecidableEq

/-- The token at an opening parenthesis, when `word` is the word on top of the stack. -/
def cutParen (tolerant : Bool) (word : String) (cs : List Char) : Except UnclosedKind Lexeme :=
  let alone : Lexeme := ⟨.openParen, ⟨['('], cs⟩⟩
  let verbatim :=
    word == "url" && !(cs.head?.any fun c => c == '"' || c == '\'' || isSpace c)
  if verbatim then
    match cutClosed ')' false cs with
    | some cut => .ok ⟨.brackets, ⟨'(' :: cut.taken, cut.rest⟩⟩
    | none => if tolerant then .ok alone else .error .bracket
  else
    match cutGroup cs with
    | some cut => .ok ⟨.brackets, ⟨'(' :: cut.taken, cut.rest⟩⟩
    | none => .ok alone

/-- The token at an opening quote. -/
def cutString (tolerant : Bool) (quote : Char) (cs : List Char) : Except UnclosedKind Lexeme :=
  match cutClosed quote false cs with
  | some cut => .ok ⟨.string, ⟨quote :: cut.taken, cut.rest⟩⟩
  | none => if tolerant then .ok ⟨.string, ⟨quote :: cs, []⟩⟩ else .error .string

/-- The token at the start of a comment, when `cs` is what follows the opening mark. -/
def cutComment (tolerant : Bool) (cs : List Char) : Except UnclosedKind Lexeme :=
  match splitAt? ['*', '/'] cs with
  | some (text, rest) => .ok ⟨.comment, ⟨'/' :: '*' :: text ++ ['*', '/'], rest⟩⟩
  | none => if tolerant then .ok ⟨.comment, ⟨'/' :: '*' :: cs, []⟩⟩ else .error .comment

/-- The kind of a token that is always one character long. -/
def punctuation? (c : Char) : Option TokenKind :=
  match c with
  | '[' => some .openSquare
  | ']' => some .closeSquare
  | '{' => some .openCurly
  | '}' => some .closeCurly
  | ':' => some .colon
  | ';' => some .semicolon
  | ')' => some .closeParen
  | _ => none

/-- The token at the front of `c :: cs`. -/
def cutToken (tolerant : Bool) (word : String) (c : Char) (cs : List Char) :
    Except UnclosedKind Lexeme :=
  match punctuation? c with
  | some kind => .ok ⟨kind, ⟨[c], cs⟩⟩
  | none =>
    if isSpace c then .ok ⟨.space, cutWhile isSpace c cs⟩
    else if c == '(' then cutParen tolerant word cs
    else if c == '"' || c == '\'' then cutString tolerant c cs
    else if c == '@' then .ok ⟨.atWord, cutWhile (fun d => !endsAtWord d) c cs⟩
    else if c == '\\' then
      let cut := cutBackslashes true cs
      .ok ⟨.word, ⟨c :: cut.taken, cut.rest⟩⟩
    else if c == '/' && cs.head? == some '*' then cutComment tolerant cs.tail
    else
      let cut := cutWord cs
      .ok ⟨.word, ⟨c :: cut.taken, cut.rest⟩⟩

/-- The stack of words behind a character: a parenthesis takes one off. -/
def wordsAt (words : List String) (c : Char) : List String :=
  if c == '(' then words.tail else words

/-- The stack of words behind a token: plain words, which start with no backslash, are put on. -/
def wordsAfter (words : List String) (c : Char) (lexeme : Lexeme) : List String :=
  if lexeme.kind == .word && c != '\\' then String.ofList lexeme.cut.taken :: words
  else wordsAt words c

/-! ### Nothing is lost -/

theorem cutWhile_tiles (p : Char → Bool) (c : Char) (cs : List Char) :
    (cutWhile p c cs).Tiles (c :: cs) := by
  simp [Cut.Tiles, cutWhile]

theorem cutClosed_append {close : Char} {escaped : Bool} {cs : List Char} {cut : Cut}
    (h : cutClosed close escaped cs = some cut) : cut.taken ++ cut.rest = cs := by
  induction cs generalizing escaped cut with
  | nil => simp [cutClosed] at h
  | cons c cs ih =>
    simp only [cutClosed] at h
    split at h
    · cases h; rfl
    · obtain ⟨d, hd, rfl⟩ := Option.map_eq_some_iff.1 h
      simp [ih hd]

theorem cutGroup_append {cs : List Char} {cut : Cut} (h : cutGroup cs = some cut) :
    cut.taken ++ cut.rest = cs := by
  induction cs generalizing cut with
  | nil => simp [cutGroup] at h
  | cons c cs ih =>
    simp only [cutGroup] at h
    split at h
    · cases h; rfl
    · split at h
      · cases h
      · obtain ⟨d, hd, rfl⟩ := Option.map_eq_some_iff.1 h
        simp [ih hd]

theorem cutWord_append (cs : List Char) : (cutWord cs).taken ++ (cutWord cs).rest = cs := by
  induction cs with
  | nil => rfl
  | cons c cs ih =>
    simp only [cutWord]
    split
    · rfl
    · simp [ih]

theorem cutEscaped_append (cs : List Char) :
    (cutEscaped cs).taken ++ (cutEscaped cs).rest = cs := by
  cases cs with
  | nil => rfl
  | cons c cs =>
    simp only [cutEscaped]
    split
    · rfl
    · split
      · have h := List.takeWhile_append_dropWhile (p := isHex) (l := cs)
        split
        · rename_i hd
          rw [hd, List.append_nil] at h
          simp [h]
        · rename_i d ds hd
          rw [hd] at h
          split <;> simp [h]
      · rfl

theorem cutBackslashes_append (odd : Bool) (cs : List Char) :
    (cutBackslashes odd cs).taken ++ (cutBackslashes odd cs).rest = cs := by
  induction cs generalizing odd with
  | nil => rfl
  | cons c cs ih =>
    simp only [cutBackslashes]
    split
    · simp [ih]
    · split
      · exact cutEscaped_append _
      · rfl

theorem cutParen_tiles {tolerant : Bool} {word : String} {cs : List Char} {lexeme : Lexeme}
    (h : cutParen tolerant word cs = .ok lexeme) : lexeme.cut.Tiles ('(' :: cs) := by
  simp only [cutParen] at h
  split at h
  · split at h
    · rename_i cut hcut
      cases h
      simp [Cut.Tiles, cutClosed_append hcut]
    · split at h
      · cases h; simp [Cut.Tiles]
      · cases h
  · split at h
    · rename_i cut hcut
      cases h
      simp [Cut.Tiles, cutGroup_append hcut]
    · cases h; simp [Cut.Tiles]

theorem cutString_tiles {tolerant : Bool} {quote : Char} {cs : List Char} {lexeme : Lexeme}
    (h : cutString tolerant quote cs = .ok lexeme) : lexeme.cut.Tiles (quote :: cs) := by
  simp only [cutString] at h
  split at h
  · rename_i cut hcut
    cases h
    simp [Cut.Tiles, cutClosed_append hcut]
  · split at h
    · cases h; simp [Cut.Tiles]
    · cases h

theorem cutComment_tiles {tolerant : Bool} {cs : List Char} {lexeme : Lexeme}
    (h : cutComment tolerant cs = .ok lexeme) : lexeme.cut.Tiles ('/' :: '*' :: cs) := by
  simp only [cutComment] at h
  split at h
  · rename_i text rest hcut
    cases h
    simp [Cut.Tiles, splitAt?_eq_some hcut]
  · split at h
    · cases h; simp [Cut.Tiles]
    · cases h

/-- Whatever the token, it and the rest are the text, and it has a character. -/
theorem cutToken_tiles {tolerant : Bool} {word : String} {c : Char} {cs : List Char}
    {lexeme : Lexeme} (h : cutToken tolerant word c cs = .ok lexeme) :
    lexeme.cut.Tiles (c :: cs) := by
  unfold cutToken at h
  split at h
  · cases h; simp [Cut.Tiles]
  · split at h
    · cases h; exact cutWhile_tiles ..
    · split at h
      · rename_i hc
        rw [beq_iff_eq] at hc
        subst hc
        exact cutParen_tiles h
      · split at h
        · exact cutString_tiles h
        · split at h
          · cases h; exact cutWhile_tiles ..
          · split at h
            · cases h; simp [Cut.Tiles, cutBackslashes_append]
            · split at h
              · rename_i hc
                simp only [Bool.and_eq_true, beq_iff_eq] at hc
                obtain ⟨rfl, hcs⟩ := hc
                cases cs with
                | nil => simp at hcs
                | cons d ds =>
                  simp only [List.head?_cons, Option.some.injEq] at hcs
                  subst hcs
                  exact cutComment_tiles h
              · cases h; simp [Cut.Tiles, cutWord_append]

/-- What is left behind a token is shorter than the text. -/
theorem Cut.Tiles.length_rest_lt {cut : Cut} {cs : List Char} (h : cut.Tiles cs) :
    cut.rest.length < cs.length := by
  have := congrArg List.length h.1
  have := List.length_pos_iff.2 h.2
  simp only [List.length_append] at *
  omega

/-! ### Whole texts -/

/-- The tokens of a text that starts at byte `offset`, and what stopped the cutting early. -/
def lexFrom (tolerant : Bool) (words : List String) (offset : Nat) :
    List Char → List Token × Option Unclosed
  | [] => ([], none)
  | c :: cs =>
    match h : cutToken tolerant (words.head?.getD "") c cs with
    | .error what => ([], some ⟨what, offset⟩)
    | .ok lexeme =>
      have := (cutToken_tiles h).length_rest_lt
      let token : Token := ⟨lexeme.kind, String.ofList lexeme.cut.taken, offset⟩
      let (tokens, stopped) :=
        lexFrom tolerant (wordsAfter words c lexeme) (offset + bytes lexeme.cut.taken)
          lexeme.cut.rest
      (token :: tokens, stopped)
termination_by cs => cs.length
decreasing_by exact this

/-- The tokens of a text up to something that does not end, and what that is. -/
def lex (tolerant : Bool) (css : String) : List Token × Option Unclosed :=
  lexFrom tolerant [] 0 css.toList

/-- All tokens of a text. In tolerant mode, what does not end is cut at the end of the text. -/
def tokenize (tolerant : Bool) (css : String) : Except Unclosed (List Token) :=
  match lex tolerant css with
  | (tokens, none) => .ok tokens
  | (_, some unclosed) => .error unclosed

/-! ### One token at a time -/

/-- The state of cutting a text, with the tokens that were handed back. -/
structure Lexer where
  /-- What is not cut yet. -/
  rest : List Char
  /-- Byte offset of `rest`. -/
  offset : Nat := 0
  words : List String := []
  returned : List Token := []
  /-- Nothing that does not end is an error. -/
  tolerant : Bool := false
deriving Repr

namespace Lexer

/-- At the start of a text. -/
def ofText (css : String) (tolerant : Bool) : Lexer :=
  { rest := css.toList, tolerant := tolerant }

/-- Whether no token is left. -/
def atEnd (l : Lexer) : Bool :=
  l.returned.isEmpty && l.rest.isEmpty

/-- Hands a token back; the next token will be this one. -/
def back (l : Lexer) (t : Token) : Lexer :=
  { l with returned := t :: l.returned }

/-- The next token, if there is one. With `tolerant` set this call takes what does not end. -/
def next (l : Lexer) (tolerant : Bool) : Except Unclosed (Option Token) × Lexer :=
  match l.returned with
  | t :: ts => (.ok (some t), { l with returned := ts })
  | [] =>
    match l.rest with
    | [] => (.ok none, l)
    | c :: cs =>
      match cutToken (l.tolerant || tolerant) (l.words.head?.getD "") c cs with
      | .error what => (.error ⟨what, l.offset⟩, { l with words := wordsAt l.words c })
      | .ok lexeme =>
        (.ok (some ⟨lexeme.kind, String.ofList lexeme.cut.taken, l.offset⟩),
          { l with
            rest := lexeme.cut.rest
            offset := l.offset + bytes lexeme.cut.taken
            words := wordsAfter l.words c lexeme })

end Lexer

end Stylesheet
