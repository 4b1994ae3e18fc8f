import Mathlib.Tactic.SplitIfs
import Stylesheet.Token.Lexer

/-!
# How tokens are spelled

The tokens of a text, one behind the other, are the text (`join_lex`), and the text of a token fits
its kind (`Token.Spelled`): a brace is a brace, a comment has both of its marks, and no token is
empty. Each token starts where the one in front of it stops (`lex_follow`).

All of this is read off one token at a time: `cutToken_tiles` says that nothing is lost, and
`cutToken_spelled` says what the characters that were taken are. What is said of single tokens is
said for each way in which the token at the front of a text is found (`FirstToken`).
-/

namespace Stylesheet

open Text

/-- The characters that a token of a kind is made of. -/
def TokenKind.Spells : TokenKind → List Char → Prop
  | .semicolon, cs => cs = [';']
  | .openCurly, cs => cs = ['{']
  | .closeCurly, cs => cs = ['}']
  | .colon, cs => cs = [':']
  | .atWord, cs => cs.head? = some '@'
  | .comment, cs => ∃ body, cs = '/' :: '*' :: body ++ ['*', '/']
  | _, cs => cs ≠ []

/-- The text of the token fits its kind. -/
def Token.Spelled (t : Token) : Prop :=
  t.kind.Spells t.text.toList

theorem TokenKind.Spells.ne_nil {kind : TokenKind} {cs : List Char} (h : kind.Spells cs) :
    cs ≠ [] := by
  intro hnil
  subst hnil
  cases kind <;> simp [Spells] at h

/-- No token is empty. -/
theorem Token.Spelled.text_ne {t : Token} (h : t.Spelled) : t.text ≠ "" := by
  intro ht
  apply TokenKind.Spells.ne_nil h
  rw [ht]
  rfl

/-- Gaps are white space and comments. -/
theorem Token.isGap_iff {t : Token} : t.isGap = true ↔ t.kind = .space ∨ t.kind = .comment := by
  rw [isGap, Bool.or_eq_true, beq_iff_eq, beq_iff_eq]

theorem Token.join_singleton (t : Token) : Token.join [t] = t.text := by
  rw [Token.join_cons]
  exact String.append_empty

/-- Tokens are known by their text, when it is known where they start. -/
theorem Token.eq_of_join_eq {as bs cs ds : List Token} (h : as ++ bs = cs ++ ds)
    (hjoin : join as = join cs) (hspelled : ∀ t ∈ as ++ bs, t.Spelled) : cs = as := by
  have hnil : ∀ us : List Token, (∀ t ∈ us, t.Spelled) → join us = "" → us = [] := by
    intro us hus hempty
    cases us with
    | nil => rfl
    | cons u us =>
      rw [join_cons, String.append_eq_empty_iff] at hempty
      exact absurd hempty.1 (hus u List.mem_cons_self).text_ne
  rcases List.append_eq_append_iff.mp h with ⟨us, rfl, rfl⟩ | ⟨us, rfl, rfl⟩
  · rw [join_append, eq_comm] at hjoin
    rw [hnil us (fun u hu => hspelled u (by simp [hu])) (by simpa using hjoin), List.append_nil]
  · rw [join_append] at hjoin
    rw [hnil us (fun u hu => hspelled u (by simp [hu])) (by simpa using hjoin), List.append_nil]

theorem Token.Spelled.text_of_semicolon {t : Token} (h : t.Spelled) (hk : t.kind = .semicolon) :
    t.text = ";" := by
  rw [Spelled, hk] at h
  rw [← String.ofList_toList (s := t.text), h]

theorem Token.Spelled.text_of_openCurly {t : Token} (h : t.Spelled) (hk : t.kind = .openCurly) :
    t.text = "\x7b" := by
  rw [Spelled, hk] at h
  rw [← String.ofList_toList (s := t.text), h]

theorem Token.Spelled.text_of_closeCurly {t : Token} (h : t.Spelled) (hk : t.kind = .closeCurly) :
    t.text = "\x7d" := by
  rw [Spelled, hk] at h
  rw [← String.ofList_toList (s := t.text), h]

/-- The tokens stand one behind the other, the first at a byte offset. -/
def Token.Follow (offset : Nat) : List Token → Prop
  | [] => True
  | t :: ts => t.start = offset ∧ Follow (offset + t.text.utf8ByteSize) ts

/-- Tokens follow each other when both parts do and the second one starts where the first ends. -/
theorem Token.follow_append {offset : Nat} {as bs : List Token} :
    Follow offset (as ++ bs) ↔
      Follow offset as ∧ Follow (offset + (join as).utf8ByteSize) bs := by
  induction as generalizing offset with
  | nil => simp [Follow]
  | cons a as ih =>
    rw [List.cons_append, Follow, ih, Follow, join_cons, String.utf8ByteSize_append, and_assoc,
      Nat.add_assoc]

/-! ### One token -/

/-- The token at the front of a text that has one, for each way in which it is found. -/
inductive FirstToken : Char → List Char → Lexeme → Prop
  | punctuation {c : Char} {cs : List Char} {kind : TokenKind} (hc : punctuation? c = some kind) :
    FirstToken c cs ⟨kind, ⟨[c], cs⟩⟩
  | space {c : Char} {cs : List Char} (hc : isSpace c = true) :
    FirstToken c cs ⟨.space, cutWhile isSpace c cs⟩
  | verbatim {cs : List Char} {cut : Cut} (hcut : cutClosed ')' false cs = some cut) :
    FirstToken '(' cs ⟨.brackets, ⟨'(' :: cut.taken, cut.rest⟩⟩
  | group {cs : List Char} {cut : Cut} (hcut : cutGroup cs = some cut) :
    FirstToken '(' cs ⟨.brackets, ⟨'(' :: cut.taken, cut.rest⟩⟩
  | openParen {cs : List Char} : FirstToken '(' cs ⟨.openParen, ⟨['('], cs⟩⟩
  | string {quote : Char} {cs : List Char} {cut : Cut} (hquote : quote = '"' ∨ quote = '\'')
    (hcut : cutClosed quote false cs = some cut) :
    FirstToken quote cs ⟨.string, ⟨quote :: cut.taken, cut.rest⟩⟩
  | atWord {cs : List Char} :
    FirstToken '@' cs ⟨.atWord, cutWhile (fun d => !endsAtWord d) '@' cs⟩
  | backslashes {cs : List Char} : FirstToken '\\' cs
    ⟨.word, ⟨'\\' :: (cutBackslashes true cs).taken, (cutBackslashes true cs).rest⟩⟩
  | comment {cs body rest : List Char} (hbody : splitAt? ['*', '/'] cs = some (body, rest)) :
    FirstToken '/' ('*' :: cs) ⟨.comment, ⟨'/' :: '*' :: body ++ ['*', '/'], rest⟩⟩
  | word {c : Char} {cs : List Char} (hc : isSpace c = false) :
    FirstToken c cs ⟨.word, ⟨c :: (cutWord cs).taken, (cutWord cs).rest⟩⟩

/-- A token that is cut off in strict mode was found in one of these ways. -/
theorem FirstToken.of_cutToken {word : String} {c : Char} {cs : List Char} {lexeme : Lexeme}
    (h : cutToken false word c cs = .ok lexeme) : FirstToken c cs lexeme := by
  unfold cutToken at h
  split at h
  next kind hkind =>
    cases h
    exact .punctuation hkind
  next =>
    -- In the order of the questions that the tokenizer asks; each leaves one shape.
    split_ifs at h with hspace hparen hquote hat hback hcomment
    · cases h
      exact .space hspace
    · rw [beq_iff_eq.mp hparen]
      simp only [cutParen, Bool.false_eq_true, ↓reduceIte] at h
      split_ifs at h
      · cases hcut : cutClosed ')' false cs <;> rw [hcut] at h <;> cases h
        exact .verbatim hcut
      · cases hcut : cutGroup cs <;> rw [hcut] at h <;> cases h
        · exact .openParen
        · exact .group hcut
    · rw [cutString] at h
      cases hcut : cutClosed c false cs <;> rw [hcut] at h <;> cases h
      exact .string (by simpa using hquote) hcut
    · rw [beq_iff_eq.mp hat] at h ⊢
      cases h
      exact .atWord
    · rw [beq_iff_eq.mp hback] at h ⊢
      cases h
      exact .backslashes
    · simp only [Bool.and_eq_true, beq_iff_eq] at hcomment
      obtain ⟨rfl, hhead⟩ := hcomment
      obtain ⟨ds, rfl⟩ := List.head?_eq_some_iff.mp hhead
      rw [List.tail_cons, cutComment] at h
      cases hbody : splitAt? ['*', '/'] ds <;> rw [hbody] at h <;> cases h
      exact .comment hbody
    · cases h
      exact .word (Bool.eq_false_iff.mpr hspace)

/-- A token that begins with white space is white space. -/
theorem cutToken_of_isSpace {c : Char} (hc : isSpace c = true) (word : String) (cs : List Char) :
    cutToken false word c cs = .ok ⟨.space, cutWhile isSpace c cs⟩ := by
  have hpunctuation : punctuation? c = none := by
    simp only [isSpace, Bool.or_eq_true, beq_iff_eq] at hc
    rcases hc with (((rfl | rfl) | rfl) | rfl) | rfl <;> rfl
  rw [cutToken, hpunctuation]
  dsimp only
  rw [if_pos hc]

/-- A punctuation character is spelled by itself. -/
theorem punctuation?_spells {c : Char} {kind : TokenKind} (h : punctuation? c = some kind) :
    kind.Spells [c] := by
  unfold punctuation? at h
  split at h <;> first | cases h; simp [TokenKind.Spells] | cases h

/-- What was taken for a token fits its kind. -/
theorem cutToken_spelled {word : String} {c : Char} {cs : List Char} {lexeme : Lexeme}
    (h : cutToken false word c cs = .ok lexeme) : lexeme.kind.Spells lexeme.cut.taken := by
  cases FirstToken.of_cutToken h with
  | punctuation hc => exact punctuation?_spells hc
  | comment => exact ⟨_, rfl⟩
  | atWord => rfl
  | _ => exact List.cons_ne_nil _ _

/-! ### Whole texts -/

/-- A token is cut off, and the rest of the text is cut on. -/
theorem lexFrom_of_ok {tolerant : Bool} {words : List String} {offset : Nat} {c : Char}
    {cs : List Char} {lexeme : Lexeme}
    (h : cutToken tolerant (words.head?.getD "") c cs = .ok lexeme) :
    lexFrom tolerant words offset (c :: cs) =
      (⟨lexeme.kind, String.ofList lexeme.cut.taken, offset⟩ ::
          (lexFrom tolerant (wordsAfter words c lexeme) (offset + bytes lexeme.cut.taken)
            lexeme.cut.rest).1,
        (lexFrom tolerant (wordsAfter words c lexeme) (offset + bytes lexeme.cut.taken)
          lexeme.cut.rest).2) := by
  rw [lexFrom]
  split
  · rename_i h'
    rw [h] at h'
    cases h'
  · rename_i h'
    rw [h] at h'
    cases h'
    rfl

/-- Each token of a text was cut off some text that is left. -/
theorem exists_cutToken_of_mem_lexFrom {tolerant : Bool} {words : List String} {offset : Nat}
    {cs : List Char} {t : Token} (ht : t ∈ (lexFrom tolerant words offset cs).1) :
    ∃ word c ds lexeme, cutToken tolerant word c ds = .ok lexeme ∧ t.kind = lexeme.kind ∧
      t.text.toList = lexeme.cut.taken := by
  fun_induction lexFrom tolerant words offset cs with
  | case1 words offset => simp at ht
  | case2 words offset c cs what h => simp at ht
  | case3 words offset c cs lexeme h hlt token tokens stopped hrest ih =>
    rw [hrest] at ih
    rcases List.mem_cons.mp ht with rfl | ht
    · exact ⟨_, c, cs, lexeme, h, rfl, String.toList_ofList⟩
    · exact ih ht

/-- Every token is spelled as its kind is. -/
theorem lexFrom_spelled (words : List String) (offset : Nat) (cs : List Char) :
    ∀ t ∈ (lexFrom false words offset cs).1, t.Spelled := by
  intro t ht
  obtain ⟨word, c, ds, lexeme, h, hkind, htext⟩ := exists_cutToken_of_mem_lexFrom ht
  rw [Token.Spelled, hkind, htext]
  exact cutToken_spelled h

/-- Tokens that were all read make up the text. -/
theorem join_lexFrom (tolerant : Bool) (words : List String) (offset : Nat) (cs : List Char)
    (hend : (lexFrom tolerant words offset cs).2 = none) :
    Token.join (lexFrom tolerant words offset cs).1 = String.ofList cs := by
  fun_induction lexFrom tolerant words offset cs with
  | case1 words offset => rfl
  | case2 words offset c cs what h => simp at hend
  | case3 words offset c cs lexeme h hlt token tokens stopped hrest ih =>
    rw [hrest] at ih
    rw [Token.join_cons, ih hend, ← (cutToken_tiles h).1, String.ofList_append]

theorem lexFrom_follow (tolerant : Bool) (words : List String) (offset : Nat) (cs : List Char) :
    Token.Follow offset (lexFrom tolerant words offset cs).1 := by
  fun_induction lexFrom tolerant words offset cs with
  | case1 words offset => trivial
  | case2 words offset c cs what h => trivial
  | case3 words offset c cs lexeme h hlt token tokens stopped hrest ih =>
    rw [hrest] at ih
    refine ⟨rfl, ?_⟩
    rwa [show token.text.utf8ByteSize = bytes lexeme.cut.taken from utf8ByteSize_ofList _]

/-- Every token of a text fits its kind. -/
theorem lex_spelled (css : String) : ∀ t ∈ (lex false css).1, t.Spelled :=
  lexFrom_spelled [] 0 css.toList

/-- The tokens of a text stand one behind the other. -/
theorem lex_follow (tolerant : Bool) (css : String) : Token.Follow 0 (lex tolerant css).1 :=
  lexFrom_follow tolerant [] 0 css.toList

/-- The tokens of a text are the text, when nothing stopped the cutting. -/
theorem join_lex {tolerant : Bool} {css : String} (hend : (lex tolerant css).2 = none) :
    Token.join (lex tolerant css).1 = css := by
  rw [lex, join_lexFrom tolerant [] 0 css.toList hend, String.ofList_toList]

end Stylesheet
