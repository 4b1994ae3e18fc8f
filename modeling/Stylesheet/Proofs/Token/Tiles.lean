import Mathlib.Data.List.Basic
import Mathlib.Tactic.SplitIfs
import Stylesheet.Proofs.Text.Boundary
import Stylesheet.Proofs.Token.Spelling

/-!
# Tokens tile a text

Tolerant mode refuses no token (`cutToken_tolerant`): a token that strict mode accepts is cut in the
same way, a string or a comment that does not end goes on to the end of the text, and a parenthesis
whose group does not end is a token of its own. The words on the stack are those of strict mode, so
the tokens of a text are the same in both modes up to the first one that strict mode refuses
(`lexFrom_tolerant`).

Whatever can be cut into tokens is tiled by them (`tile_of_tokenize`): no token is empty, each
starts where the one in front of it stops, from the first byte to the last, and what a token says is
what stands between its two offsets, which are boundaries of characters. In tolerant mode every text
can be cut. A token is cut off the characters that are left, so all of this follows from two facts
about the list of tokens: they stand one behind the other (`Token.Follow`), and their texts, one
behind the other, are the front of the text (`Token.tile_of_join`).

A lexer that hands out tokens one by one hands out those of the whole text, and then tells that
there is no more, or what does not end (`lex_handsOut`). Where strict mode stops, tolerant mode goes
on at the same byte with a token for what does not end (`tokenize_tolerant`).
-/

namespace Stylesheet

open Text

/-- The token for something that starts with `c` and does not end, when `cs` is what follows. -/
def unclosedLexeme (c : Char) (cs : List Char) : UnclosedKind → Lexeme
  | .string => ⟨.string, ⟨c :: cs, []⟩⟩
  | .comment => ⟨.comment, ⟨c :: cs, []⟩⟩
  | .bracket => ⟨.openParen, ⟨['('], cs⟩⟩

/-- A token instead of a refusal. -/
def forgive (c : Char) (cs : List Char) : Except UnclosedKind Lexeme → Lexeme
  | .ok lexeme => lexeme
  | .error what => unclosedLexeme c cs what

/-! ### One token -/

theorem cutParen_tolerant (word : String) (cs : List Char) :
    cutParen true word cs = .ok (forgive '(' cs (cutParen false word cs)) := by
  simp only [cutParen]
  split
  · cases cutClosed ')' false cs <;> rfl
  · cases cutGroup cs <;> rfl

theorem cutString_tolerant (quote : Char) (cs : List Char) :
    cutString true quote cs = .ok (forgive quote cs (cutString false quote cs)) := by
  simp only [cutString]
  cases cutClosed quote false cs <;> rfl

theorem cutComment_tolerant (cs : List Char) :
    cutComment true cs = .ok (forgive '/' ('*' :: cs) (cutComment false cs)) := by
  simp only [cutComment]
  cases splitAt? ['*', '/'] cs <;> rfl

/-- Tolerant mode cuts the token of strict mode where there is one, and forgives otherwise. -/
theorem cutToken_tolerant (word : String) (c : Char) (cs : List Char) :
    cutToken true word c cs = .ok (forgive c cs (cutToken false word c cs)) := by
  unfold cutToken
  cases punctuation? c with
  | some kind => rfl
  | none =>
    dsimp only
    -- Three kinds of token can fail to close; the others are cut alike in both modes.
    split_ifs with hspace hparen hquote hat hback hcomment
    · rfl
    · rw [beq_iff_eq] at hparen
      rw [hparen]
      exact cutParen_tolerant word cs
    · exact cutString_tolerant c cs
    · rfl
    · rfl
    · simp only [Bool.and_eq_true, beq_iff_eq] at hcomment
      obtain ⟨rfl, hhead⟩ := hcomment
      obtain ⟨ds, rfl⟩ := List.head?_eq_some_iff.mp hhead
      exact cutComment_tolerant ds
    · rfl

/-! ### Whole texts -/

/-- In tolerant mode a text is cut to its end. -/
theorem lexFrom_tolerant_snd (words : List String) (offset : Nat) (cs : List Char) :
    (lexFrom true words offset cs).2 = none := by
  fun_induction lexFrom true words offset cs with
  | case1 words offset => rfl
  | case2 words offset c cs what h =>
    rw [cutToken_tolerant] at h
    cases h
  | case3 words offset c cs lexeme h hlt token tokens stopped hrest ih =>
    rwa [hrest] at ih

/-- Strict and tolerant mode cut the same tokens up to one that strict mode refuses. Tolerant mode
cuts it in the way of `unclosedLexeme` and goes on behind it. -/
theorem lexFrom_tolerant (words : List String) (offset : Nat) (cs : List Char) :
    match lexFrom false words offset cs with
    | (ts, none) => lexFrom true words offset cs = (ts, none)
    | (ts, some u) => ∃ (words' : List String) (c : Char) (rest : List Char),
        let lexeme := unclosedLexeme c rest u.what
        lexFrom true words offset cs =
          (ts ++ ⟨lexeme.kind, String.ofList lexeme.cut.taken, u.offset⟩ ::
            (lexFrom true words' (u.offset + bytes lexeme.cut.taken) lexeme.cut.rest).1, none) := by
  fun_induction lexFrom false words offset cs with
  | case1 words offset => rw [lexFrom]
  | case2 words offset c cs what h =>
    have hcut := cutToken_tolerant (words.head?.getD "") c cs
    rw [h] at hcut
    refine ⟨wordsAfter words c (unclosedLexeme c cs what), c, cs, ?_⟩
    rw [lexFrom_of_ok hcut, lexFrom_tolerant_snd]
    rfl
  | case3 words offset c cs lexeme h hlt token tokens stopped hrest ih =>
    -- The words on the stack behind the token are the same, so what is left is cut alike.
    have hcut := cutToken_tolerant (words.head?.getD "") c cs
    rw [h] at hcut
    rw [hrest] at ih
    rw [lexFrom_of_ok (show _ = Except.ok lexeme from hcut)]
    cases stopped with
    | none =>
      rw [show lexFrom true (wordsAfter words c lexeme) _ lexeme.cut.rest = _ from ih]
    | some u =>
      obtain ⟨words', d, rest, hlex⟩ := ih
      refine ⟨words', d, rest, ?_⟩
      rw [hlex]
      rfl

/-! ### Tiles -/

/-- The token has a character, and its text is what stands between its two offsets. Both of them and
the offset of its last character are boundaries of characters. -/
structure Token.StandsIn (css : String) (t : Token) : Prop where
  nonempty : t.start < t.stop
  start_boundary : Boundary css t.start
  stop_boundary : Boundary css t.stop
  text : utf8 t.text = (utf8 css).extract t.start t.stop
  start_le_last : t.start ≤ t.last
  last : IsGreatest {b | b < t.stop ∧ Boundary css b} t.last

/-- The tokens stand in the text one behind the other, from its first byte to byte `stop`, and there
is nothing between them. -/
structure Token.Tile (css : String) (stop : Nat) (ts : List Token) : Prop where
  follow : Token.Follow 0 ts
  stands : ∀ t ∈ ts, t.StandsIn css
  ends : ((ts.getLast?).map Token.stop).getD 0 = stop
  joined : utf8 (Token.join ts) = (utf8 css).take stop

/-- The last character of a token starts behind the others. -/
theorem Token.stop_last_of_concat {t : Token} {cs : List Char} {c : Char}
    (h : t.text.toList = cs ++ [c]) :
    t.stop = t.start + bytes cs + c.utf8Size ∧ t.last = t.start + bytes cs := by
  have hstop : t.stop = t.start + bytes cs + c.utf8Size := by
    rw [Token.stop, utf8ByteSize_eq_bytes, h, bytes_append, Nat.add_assoc]
    rfl
  have hlast : t.last = t.stop - c.utf8Size := by
    have hget : t.text.toList.getLast? = some c := by rw [h, List.getLast?_concat]
    rw [Token.last, hget]
  exact ⟨hstop, by omega⟩

theorem Token.standsIn_of_append {t : Token} {front : String} (rest : String)
    (hstart : t.start = front.utf8ByteSize) (hne : t.text ≠ "") :
    t.StandsIn (front ++ t.text ++ rest) := by
  have hsize : t.stop = (front ++ t.text).utf8ByteSize := by
    rw [Token.stop, hstart, String.utf8ByteSize_append]
  -- The text is a character behind others.
  obtain ⟨cs, c, hcs⟩ : ∃ cs c, t.text.toList = cs ++ [c] := by
    rcases List.eq_nil_or_concat t.text.toList with hnil | ⟨cs, c, hcs⟩
    · exact absurd (String.toList_inj.mp hnil) hne
    · exact ⟨cs, c, hcs.trans List.concat_eq_append⟩
  obtain ⟨hstop, hlast⟩ := Token.stop_last_of_concat hcs
  have hpos := c.utf8Size_pos
  have hcut : front ++ t.text ++ rest =
      String.ofList (front.toList ++ cs ++ c :: rest.toList) := by
    rw [← String.toList_inj, String.toList_append, String.toList_append, hcs,
      String.toList_ofList]
    simp
  refine ⟨by omega, ?_, ?_, ?_, by omega, ?_⟩
  · rw [hstart, String.append_assoc]
    exact boundary_append _ _
  · rw [hsize]
    exact boundary_append _ _
  · rw [hstart, hsize, extract_utf8]
  · rw [hcut, hstop, hlast, hstart, utf8ByteSize_eq_bytes, ← bytes_append]
    exact isGreatest_boundary _ _ _

theorem Token.follow_start {as bs : List Token} {t : Token} (h : Token.Follow 0 (as ++ t :: bs)) :
    t.start = (Token.join as).utf8ByteSize := by
  have hstart := (Token.follow_append.mp h).2.1
  rwa [Nat.zero_add] at hstart

/-- Tokens that stand one behind the other tile a text when their texts are its front. -/
theorem Token.tile_of_join {css rest : String} {ts : List Token} (hfollow : Token.Follow 0 ts)
    (hne : ∀ t ∈ ts, t.text ≠ "") (hcss : css = Token.join ts ++ rest) :
    Token.Tile css (Token.join ts).utf8ByteSize ts := by
  refine ⟨hfollow, fun t ht => ?_, ?_, ?_⟩
  · obtain ⟨as, bs, rfl⟩ := List.append_of_mem ht
    rw [hcss, Token.join_append, Token.join_cons, ← String.append_assoc, String.append_assoc]
    exact Token.standsIn_of_append _ (Token.follow_start hfollow) (hne t ht)
  · rcases List.eq_nil_or_concat ts with rfl | ⟨as, t, hts⟩
    · rfl
    · obtain rfl := hts.trans List.concat_eq_append
      rw [List.getLast?_concat, Option.map_some, Option.getD_some, Token.stop,
        Token.follow_start hfollow, Token.join_append, String.utf8ByteSize_append]
      simp [Token.join]
  · rw [hcss, utf8_append, ← length_utf8, List.take_left]

/-- The tokens in front of one tile the text up to where it starts. -/
theorem Token.tile_front {css : String} {as bs : List Token} {t : Token}
    (hfollow : Token.Follow 0 (as ++ t :: bs)) (hne : ∀ u ∈ as ++ t :: bs, u.text ≠ "")
    (hjoin : Token.join (as ++ t :: bs) = css) : Token.Tile css t.start as := by
  have hcss : css = Token.join as ++ Token.join (t :: bs) := by rw [← Token.join_append, hjoin]
  rw [Token.follow_start hfollow]
  exact Token.tile_of_join (Token.follow_append.mp hfollow).1
    (fun u hu => hne u (List.mem_append_left _ hu)) hcss

/-- The last token stops where the tiling ends. -/
theorem Token.Tile.stop_last {css : String} {stop : Nat} {as : List Token} {t : Token}
    (h : Token.Tile css stop (as ++ [t])) : t.stop = stop := by
  have hends := h.ends
  rwa [List.getLast?_concat] at hends

/-! ### Whole texts -/

theorem lexFrom_ne (tolerant : Bool) (words : List String) (offset : Nat) (cs : List Char) :
    ∀ t ∈ (lexFrom tolerant words offset cs).1, t.text ≠ "" := by
  intro t ht hempty
  obtain ⟨word, c, ds, lexeme, h, -, htext⟩ := exists_cutToken_of_mem_lexFrom ht
  have hnil : lexeme.cut.taken = [] := by rw [← htext, hempty]; rfl
  exact (cutToken_tiles h).2 hnil

/-- The tokens of a text tile it, when nothing stopped the cutting. -/
theorem lex_tile {tolerant : Bool} {css : String} (hend : (lex tolerant css).2 = none) :
    Token.Tile css css.utf8ByteSize (lex tolerant css).1 := by
  have hjoin := join_lex hend
  have htile := Token.tile_of_join (lex_follow tolerant css) (lexFrom_ne tolerant [] 0 css.toList)
    (String.append_empty (s := Token.join (lex tolerant css).1)).symm
  rwa [hjoin] at htile

/-- In tolerant mode every text can be cut. -/
theorem exists_tokenize_tolerant (css : String) : ∃ ts, tokenize true css = .ok ts := by
  have hend : (lex true css).2 = none := lexFrom_tolerant_snd [] 0 css.toList
  rcases hlex : lex true css with ⟨ts, stopped⟩
  rw [hlex] at hend
  obtain rfl : stopped = none := hend
  exact ⟨ts, by rw [tokenize, hlex]⟩

/-- The tokens of a text that can be cut tile it, and their texts are the text. -/
theorem tile_of_tokenize {tolerant : Bool} {css : String} {ts : List Token}
    (h : tokenize tolerant css = .ok ts) :
    Token.Tile css css.utf8ByteSize ts ∧ Token.join ts = css := by
  rw [tokenize] at h
  rcases hlex : lex tolerant css with ⟨us, _ | u⟩
  · rw [hlex] at h
    obtain rfl := Except.ok.inj h
    have hend : (lex tolerant css).2 = none := by rw [hlex]
    have htile := lex_tile hend
    have hjoin := join_lex hend
    rw [hlex] at htile hjoin
    exact ⟨htile, hjoin⟩
  · rw [hlex] at h
    cases h

/-! ### One token after the other -/

/-- A lexer hands out a token that was given back, or one that it cuts off the rest. -/
theorem Lexer.next_cases {l l' : Lexer} {t : Token} {tolerant : Bool}
    (h : l.next tolerant = (.ok (some t), l')) :
    (l.returned = t :: l'.returned ∧ l'.rest = l.rest) ∨
      l'.returned = l.returned ∧ ∃ taken, taken ≠ [] ∧ l.rest = taken ++ l'.rest := by
  rw [next] at h
  split at h
  next u us hus =>
    cases h
    exact .inl ⟨hus, rfl⟩
  next hnil =>
    split at h
    · cases h
    next c cs hcs =>
      split at h
      · cases h
      next lexeme hcut =>
        cases h
        obtain ⟨htaken, hne⟩ := cutToken_tiles hcut
        exact .inr ⟨rfl, lexeme.cut.taken, hne, by rw [hcs, htaken]⟩

/-- The lexer hands out the tokens, one call after the other, and is then in the last state. -/
inductive Lexer.HandsOut : Lexer → List Token → Lexer → Prop
  | nil (l : Lexer) : HandsOut l [] l
  | cons {l l' l'' : Lexer} {t : Token} {ts : List Token} (h : l.next false = (.ok (some t), l'))
      (hrest : HandsOut l' ts l'') : HandsOut l (t :: ts) l''

/-- From any state, the lexer hands out the tokens of what is left, and then tells what stopped the
cutting. -/
theorem lexFrom_handsOut (tolerant : Bool) (words : List String) (offset : Nat) (cs : List Char) :
    ∃ l : Lexer,
      Lexer.HandsOut { rest := cs, offset := offset, words := words, tolerant := tolerant }
        (lexFrom tolerant words offset cs).1 l ∧
      (l.next false).1 = (lexFrom tolerant words offset cs).2.elim (.ok none) .error := by
  fun_induction lexFrom tolerant words offset cs with
  | case1 words offset => exact ⟨_, .nil _, rfl⟩
  | case2 words offset c cs what h =>
    refine ⟨_, .nil _, ?_⟩
    simp [Lexer.next, h]
  | case3 words offset c cs lexeme h hlt token tokens stopped hrest ih =>
    rw [hrest] at ih
    obtain ⟨l, hout, hend⟩ := ih
    refine ⟨l, .cons ?_ hout, hend⟩
    simp [Lexer.next, h, token]

theorem lex_handsOut (tolerant : Bool) (css : String) :
    ∃ l, (Lexer.ofText css tolerant).HandsOut (lex tolerant css).1 l ∧
      (l.next false).1 = (lex tolerant css).2.elim (.ok none) .error :=
  lexFrom_handsOut tolerant [] 0 css.toList

/-! ### Strict and tolerant -/

/-- The token stands for something that does not end: a string or a comment reaches to the end of
the text, and a parenthesis stands alone. -/
def Token.Forgives (css : String) (t : Token) : UnclosedKind → Prop
  | .string => t.kind = .string ∧ t.stop = css.utf8ByteSize
  | .comment => t.kind = .comment ∧ t.stop = css.utf8ByteSize
  | .bracket => t.kind = .openParen ∧ t.text = "("

/-- What tolerant mode cuts instead of a refusal stands for what does not end. A string or a comment
takes all that is left, so it is the last token of the text. -/
theorem Token.forgives_unclosedLexeme {css : String} {c : Char} {cs : List Char}
    {what : UnclosedKind} {words : List String} {after : Nat} {ts : List Token} {t : Token}
    (hkind : t.kind = (unclosedLexeme c cs what).kind)
    (htext : t.text = String.ofList (unclosedLexeme c cs what).cut.taken)
    (htile : Token.Tile css css.utf8ByteSize
      (ts ++ t :: (lexFrom true words after (unclosedLexeme c cs what).cut.rest).1)) :
    t.Forgives css what := by
  have hnil : (lexFrom true words after []).1 = [] := by rw [lexFrom]
  cases what with
  | bracket => exact ⟨hkind, htext⟩
  | string | comment =>
    rw [show (unclosedLexeme c cs _).cut.rest = [] from rfl, hnil] at htile
    exact ⟨hkind, htile.stop_last⟩

/-- **Strict and tolerant mode agree.** What strict mode cuts, tolerant mode cuts alike. What strict
mode does not cut, it cuts up to the byte it tells, and tolerant mode has the same tokens up to
there and then one for what does not end. -/
theorem tokenize_tolerant (css : String) :
    match tokenize false css with
    | .ok ts => tokenize true css = .ok ts
    | .error u => ∃ (ts more : List Token) (t : Token) (l : Lexer),
        (Lexer.ofText css false).HandsOut ts l ∧ (l.next false).1 = .error u ∧
        tokenize true css = .ok (ts ++ t :: more) ∧
        Token.Tile css u.offset ts ∧ t.start = u.offset ∧ t.Forgives css u.what := by
  have hmodes := lexFrom_tolerant [] 0 css.toList
  obtain ⟨l, hout, hend⟩ := lex_handsOut false css
  rcases hlex : lex false css with ⟨ts, stopped⟩
  rw [hlex] at hout hend
  rw [show lexFrom false [] 0 css.toList = _ from hlex] at hmodes
  rw [tokenize, hlex]
  cases stopped with
  | none =>
    rw [tokenize, show lex true css = _ from hmodes]
  | some u =>
    obtain ⟨words, c, rest, htolerant⟩ := hmodes
    change lex true css = _ at htolerant
    -- Tolerant mode cuts the whole text, so its tokens tile it, and so do those in front of one.
    have hstops : (lex true css).2 = none := lexFrom_tolerant_snd [] 0 css.toList
    have htile := lex_tile hstops
    have hjoin := join_lex hstops
    have hne : ∀ t ∈ (lex true css).1, t.text ≠ "" := lexFrom_ne true [] 0 css.toList
    rw [htolerant] at htile hjoin hne
    exact ⟨ts, _, _, l, hout, hend, by rw [tokenize, htolerant],
      Token.tile_front htile.follow hne hjoin, rfl, Token.forgives_unclosedLexeme rfl rfl htile⟩

end Stylesheet
