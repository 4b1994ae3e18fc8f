import Stylesheet.Proofs.Token.Places
import Stylesheet.Proofs.Token.Tiles

/-!
# Tokens found by byte offsets

A scanner that works on the bytes of a text and a lexer that takes characters off it go side by side
(`Scanner.Mirrors`): the scanner stands at a boundary with the characters of the lexer behind it,
and its words are slices of the text. Each call tells the same of both, and keeps them side by side
(`Scanner.Mirrors.next`), so no call asks for a place that is not there. A token takes bytes off, so
a scanner that goes on comes to the end of the text, and finds the tokens that the lexer cuts
(`tokenizeBytes_eq`).

The tokens of a scanner tile the text (`tokenize_tiles`): none is empty, each starts where the one
in front of it stops, from the first byte to the last, all offsets are boundaries, so the texts and
the last characters of the tokens can be taken out of the text, and the texts are the text.
-/

namespace Stylesheet

open Text

/-- A token by its two byte offsets. -/
def Token.span (t : Token) : Span :=
  ⟨t.kind, t.start, t.stop⟩

variable {css : String} {s : Scanner} {l l' : Lexer}

/-- What a token takes off a lexer are bytes, or a token that was handed back. -/
theorem Lexer.bytes_of_next {t : Token} {tolerant : Bool}
    (h : l.next tolerant = (.ok (some t), l')) :
    bytes l'.rest + l'.returned.length < bytes l.rest + l.returned.length := by
  rcases next_cases h with ⟨hreturned, hrest⟩ | ⟨hreturned, taken, hne, hrest⟩
  · rw [hreturned, hrest]
    exact Nat.lt_succ_self _
  -- A token that was cut has a character, and a character has a byte.
  · have hpos : 0 < bytes taken :=
      Nat.pos_of_ne_zero fun hzero => hne (eq_nil_of_bytes_eq_zero hzero)
    rw [hreturned, hrest, bytes_append]
    omega

/-! ### Side by side -/

namespace Scanner

/-- The scanner is where the lexer is. -/
structure Mirrors (css : String) (s : Scanner) (l : Lexer) : Prop where
  placed : ∃ front, css.toList = front ++ l.rest ∧ s.pos = bytes front
  offset : l.offset = s.pos
  words : List.Forall₂ (fun w text => Bytewise.slice css w.1 w.2 = .ok text) s.words l.words
  returned : s.returned = l.returned.map Token.span
  tolerant : s.tolerant = l.tolerant

/-- What a call of a lexer tells, as a scanner tells it. -/
def reported : Except Unclosed (Option Token) → Bytewise (Option Span)
  | .ok t => .ok (t.map Token.span)
  | .error unclosed => .error (.unclosed unclosed)

namespace Mirrors

/-- A scanner and a lexer start side by side. -/
theorem ofText (tolerant : Bool) (css : String) :
    Mirrors css { tolerant } (Lexer.ofText css tolerant) :=
  ⟨⟨[], rfl, rfl⟩, rfl, .nil, rfl, rfl⟩

/-- Handing a token back keeps both side by side. -/
theorem back (h : s.Mirrors css l) (t : Token) : (s.back t.span).Mirrors css (l.back t) :=
  ⟨h.placed, h.offset, h.words, congrArg (t.span :: ·) h.returned, h.tolerant⟩

/-- The word on top of the stack is the text at its place. -/
theorem topWord (h : s.Mirrors css l) :
    Bytewise.topWord css s.words = .ok (l.words.head?.getD "") := by
  have hwords : ∀ {ws : List (Nat × Nat)} {texts : List String},
      List.Forall₂ (fun w text => Bytewise.slice css w.1 w.2 = .ok text) ws texts →
      Bytewise.topWord css ws = .ok (texts.head?.getD "") := by
    rintro _ _ (_ | ⟨hword, -⟩)
    · rfl
    · exact hword
  exact hwords h.words

/-- As many bytes are left as the characters have. -/
theorem left_eq (h : s.Mirrors css l) : s.left css = bytes l.rest + l.returned.length := by
  obtain ⟨front, hfront, hpos⟩ := h.placed
  rw [left, hpos, utf8ByteSize_eq hfront, Nat.add_sub_cancel_left, h.returned, List.length_map]

/-- The first byte that is left is that of the first character, as far as one of ASCII is asked
for. -/
theorem byteAt?_pos (h : s.Mirrors css l) {c d : Char} {cs : List Char} (hrest : l.rest = c :: cs)
    (hd : d.toNat < 0x80) : (Bytewise.byteAt? css s.pos == some d) = (c == d) := by
  obtain ⟨front, hfront, hpos⟩ := h.placed
  rw [hpos, Bytewise.byteAt?_beq hd hfront, hrest]
  rfl

/-- The stack at a token: a parenthesis takes its word. -/
theorem wordsAt (h : s.Mirrors css l) {c : Char} {cs : List Char} (hrest : l.rest = c :: cs) :
    List.Forall₂ (fun w text => Bytewise.slice css w.1 w.2 = .ok text) (s.wordsAt css)
      (Stylesheet.wordsAt l.words c) := by
  rw [Scanner.wordsAt, Stylesheet.wordsAt, h.byteAt?_pos hrest (by decide)]
  split
  · have htail : ∀ {ws : List (Nat × Nat)} {texts : List String},
        List.Forall₂ (fun w text => Bytewise.slice css w.1 w.2 = .ok text) ws texts →
        List.Forall₂ (fun w text => Bytewise.slice css w.1 w.2 = .ok text) ws.tail texts.tail := by
      rintro _ _ (_ | ⟨-, htexts⟩)
      · exact .nil
      · exact htexts
    exact htail h.words
  · exact h.words

/-- The stack behind it: a word is put on top. -/
theorem wordsAfter (h : s.Mirrors css l) {c : Char} {cs : List Char} (hrest : l.rest = c :: cs)
    {lexeme : Lexeme} (htiles : lexeme.cut.Tiles (c :: cs)) :
    List.Forall₂ (fun w text => Bytewise.slice css w.1 w.2 = .ok text)
      (s.wordsAfter css lexeme.kind (s.pos + bytes lexeme.cut.taken))
      (Stylesheet.wordsAfter l.words c lexeme) := by
  rw [Scanner.wordsAfter, Stylesheet.wordsAfter, bne, h.byteAt?_pos hrest (by decide)]
  show List.Forall₂ _ (if lexeme.kind == .word && !(c == '\\') then _ else _)
    (if lexeme.kind == .word && !(c == '\\') then _ else _)
  split
  · obtain ⟨front, hfront, hpos⟩ := h.placed
    refine .cons ?_ h.words
    rw [hpos]
    have hsplit : css.toList = front ++ (lexeme.cut.taken ++ lexeme.cut.rest) := by
      rw [hfront, hrest, htiles.1]
    exact Bytewise.slice_eq hsplit
  · exact h.wordsAt hrest

/-- A call tells the same of both, and keeps them side by side. -/
theorem next (h : s.Mirrors css l) (tolerant : Bool) :
    (s.next css tolerant).1 = reported (l.next tolerant).1 ∧
      (s.next css tolerant).2.Mirrors css (l.next tolerant).2 := by
  obtain ⟨front, hfront, hpos⟩ := h.placed
  have hreturned := h.returned
  rw [Scanner.next, Lexer.next]
  -- Both give back first what was returned to them, and scan when there is nothing.
  cases hl : l.returned with
  | cons t ts =>
    rw [hl] at hreturned
    rw [hreturned]
    exact ⟨rfl, h.placed, h.offset, h.words, rfl, h.tolerant⟩
  | nil =>
    rw [hl, List.map_nil] at hreturned
    rw [hreturned]
    dsimp only
    have hsize := utf8ByteSize_eq hfront
    cases hrest : l.rest with
    | nil =>
      rw [hrest, bytes_nil] at hsize
      rw [if_neg (by omega)]
      exact ⟨rfl, h⟩
    | cons c cs =>
      have hpositive := c.utf8Size_pos
      rw [hrest] at hfront hsize
      rw [bytes_cons] at hsize
      have htoken := Bytewise.token_eq h.topWord hfront (s.tolerant || tolerant)
      have htolerant : (l.tolerant || tolerant) = (s.tolerant || tolerant) := by rw [h.tolerant]
      dsimp only
      rw [if_pos (by omega), hpos, htoken, htolerant, ← hpos]
      -- After the same cut, the offset moves on by the bytes of the token, and the word stacks
      -- agree.
      cases hcut : cutToken (s.tolerant || tolerant) (l.words.head?.getD "") c cs with
      | error what =>
        dsimp only [Bytewise.told]
        refine ⟨?_, ⟨front, hfront, hpos⟩, h.offset, h.wordsAt hrest, rfl, h.tolerant⟩
        rw [h.offset]
        rfl
      | ok lexeme =>
        have htiles := cutToken_tiles hcut
        dsimp only [Bytewise.told]
        refine ⟨?_, ⟨front ++ lexeme.cut.taken, ?_, ?_⟩, ?_, h.wordsAfter hrest htiles, rfl,
          h.tolerant⟩
        · rw [h.offset]
          show Except.ok (some (Span.mk _ _ _)) = Except.ok (some (Token.span _))
          rw [Token.span, Token.stop, utf8ByteSize_ofList]
        · rw [List.append_assoc, htiles.1, hfront]
        · rw [bytes_append, hpos]
        · rw [h.offset]

/-- A token that is told leaves fewer bytes, or was handed back. -/
theorem left_next_lt (h : s.Mirrors css l) {t : Token} (ht : l.next false = (.ok (some t), l')) :
    (s.next css false).2.left css < s.left css := by
  have hnext := (h.next false).2
  rw [ht] at hnext
  rw [hnext.left_eq, h.left_eq]
  exact Lexer.bytes_of_next ht

/-- A scanner that goes on tells the tokens of a lexer that goes on, up to what stops both. -/
theorem all_eq (h : s.Mirrors css l) {ts : List Token} (hout : l.HandsOut ts l')
    {stopped : Option Unclosed} (hend : (l'.next false).1 = stopped.elim (.ok none) .error) :
    s.all css = stopped.elim (.ok (ts.map Token.span)) fun u => .error (.unclosed u) := by
  -- Along the tokens that are handed out; the bound on the rounds holds by what is left.
  induction hout generalizing s with
  | nil l =>
    have hnext := (h.next false).1
    rw [hend] at hnext
    rw [all]
    rcases hs : s.next css false with ⟨told, s'⟩
    rw [hs] at hnext
    obtain rfl : told = _ := hnext
    cases stopped <;> rfl
  | @cons l l'' l' t ts hl hrest ih =>
    have hnext := h.next false
    have hleft := h.left_next_lt hl
    rw [hl] at hnext
    rw [all]
    rcases hs : s.next css false with ⟨told, s'⟩
    rw [hs] at hnext hleft
    obtain ⟨rfl, hmirrors⟩ : told = _ ∧ _ := hnext
    dsimp only [reported, Option.map_some]
    rw [if_pos hleft, ih hmirrors hend]
    cases stopped <;> rfl

end Mirrors

end Scanner

/-- The tokens that are found byte by byte are those that are cut off the characters. -/
theorem tokenizeBytes_eq (tolerant : Bool) (css : String) :
    tokenizeBytes tolerant css =
      match tokenize tolerant css with
      | .ok ts => .ok (ts.map Token.span)
      | .error u => .error (.unclosed u) := by
  obtain ⟨l, hout, hend⟩ := lex_handsOut tolerant css
  rw [tokenizeBytes, (Scanner.Mirrors.ofText tolerant css).all_eq hout hend, tokenize]
  rcases lex tolerant css with ⟨ts, _ | u⟩ <;> rfl

/-! ### Tiles -/

namespace Span

/-- The token has a character, and stands between two boundaries. So its text and the place of its
last character can be asked for. -/
structure StandsIn (css : String) (t : Span) : Prop where
  nonempty : t.start < t.stop
  start_boundary : Boundary css t.start
  stop_boundary : Boundary css t.stop
  text : ∃ text, t.text css = .ok text ∧ utf8 text = (utf8 css).extract t.start t.stop
  last : ∃ last, t.last css = .ok last ∧ t.start ≤ last ∧
    IsGreatest {b | b < t.stop ∧ Boundary css b} last

/-- Each token starts where the one in front of it stops, and the first one at a given place. -/
def Follow (start : Nat) : List Span → Prop
  | [] => True
  | t :: ts => t.start = start ∧ Follow t.stop ts

/-- The tokens stand in the text one behind the other, from its first byte to its last, and their
texts are the text. -/
structure Tile (css : String) (ts : List Span) : Prop where
  follow : Follow 0 ts
  stands : ∀ t ∈ ts, t.StandsIn css
  ends : ((ts.getLast?).map Span.stop).getD 0 = css.utf8ByteSize
  joined : joined css ts = .ok css

end Span

/-- Spans follow each other as tokens do. -/
theorem follow_map_span {start : Nat} {ts : List Token} (h : Token.Follow start ts) :
    Span.Follow start (ts.map Token.span) := by
  induction ts generalizing start with
  | nil => exact trivial
  | cons t ts ih =>
    obtain ⟨rfl, hfollow⟩ := h
    exact ⟨rfl, ih hfollow⟩

variable {t : Token} {ts : List Token}

/-- The text of a token is what the text has between its two offsets. -/
theorem Token.StandsIn.text_span (h : t.StandsIn css) : t.span.text css = .ok t.text := by
  have hslice : slice? css t.start t.stop = some t.text := by
    rw [slice?, if_pos ⟨Nat.le_of_lt h.nonempty, h.start_boundary, h.stop_boundary⟩, ← h.text,
      ofUtf8?_utf8]
  show Bytewise.slice css t.start t.stop = _
  rw [Bytewise.slice, hslice]

/-- The last character of a span is that of the token. -/
theorem Token.StandsIn.last_span (h : t.StandsIn css) : t.span.last css = .ok t.last := by
  rw [Span.last, h.text_span, Bytewise.ok_bind]
  rcases List.eq_nil_or_concat t.text.toList with hnil | ⟨cs, c, hcs⟩
  · rw [hnil, Token.last, hnil]
    rfl
  · obtain ⟨hstop, hlast⟩ := Token.stop_last_of_concat (hcs.trans List.concat_eq_append)
    rw [hcs, List.concat_eq_append, List.getLast?_concat]
    refine congrArg Except.ok ?_
    rw [Token.stop] at hstop
    show t.start + _ = _
    omega

/-- Spans joined are tokens joined. -/
theorem joined_map_span (h : ∀ t ∈ ts, t.StandsIn css) :
    Span.joined css (ts.map Token.span) = .ok (Token.join ts) := by
  induction ts with
  | nil => rfl
  | cons t ts ih =>
    obtain ⟨ht, hts⟩ := List.forall_mem_cons.mp h
    rw [List.map_cons, Span.joined, ht.text_span, Bytewise.ok_bind, ih hts, Token.join_cons]
    rfl

/-- **Tokens tile the text.** When the bytes of a text can be cut, in either mode, the tokens tile
it from the first byte to the last, and they are those that are cut off its characters. No index and
no slice is out of place, and no token takes nothing off. So all that can stop the cutting is
something that does not end, and in tolerant mode nothing stops it. -/
theorem tokenize_tiles (tolerant : Bool) (css : String) :
    match tokenizeBytes tolerant css with
    | .ok spans => Span.Tile css spans ∧
        ∃ ts, tokenize tolerant css = .ok ts ∧ ts.map Token.span = spans
    | .error fault => tolerant = false ∧
        ∃ u, fault = .unclosed u ∧ tokenize tolerant css = .error u := by
  rw [tokenizeBytes_eq]
  cases hts : tokenize tolerant css with
  | error u =>
    refine ⟨?_, u, rfl, rfl⟩
    cases tolerant with
    | false => rfl
    | true =>
      obtain ⟨ts, hok⟩ := exists_tokenize_tolerant css
      rw [hok] at hts
      cases hts
  | ok ts =>
    obtain ⟨htile, hjoin⟩ := tile_of_tokenize hts
    -- That no slice fails is known by now; what is left is about tokens.
    refine ⟨⟨follow_map_span htile.follow, fun s hs => ?_, ?_, ?_⟩, ts, rfl, rfl⟩
    · obtain ⟨t, ht, rfl⟩ := List.mem_map.mp hs
      have hstands := htile.stands t ht
      exact ⟨hstands.nonempty, hstands.start_boundary, hstands.stop_boundary,
        ⟨t.text, hstands.text_span, hstands.text⟩,
        ⟨t.last, hstands.last_span, hstands.start_le_last, hstands.last⟩⟩
    · rw [List.getLast?_map, Option.map_map]
      exact htile.ends
    · rw [joined_map_span htile.stands, hjoin]

end Stylesheet
