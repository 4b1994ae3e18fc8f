import Mathlib.Data.List.Basic
import Stylesheet.Proofs.Token.Quoted

/-!
# Groups that are taken as they are

A parenthesis behind the word `url` starts a group whose contents are taken as they are. The lexer
looks at the top of a stack for that: each plain word is put on it, and each opening parenthesis
takes one off. So the word that counts is the last one that no parenthesis behind it has taken
(`head?_wordsBehind_iff`). It stands in front of the parenthesis in `url(`, but it need not stand
there: there may be white space, colons or braces in between, and words with their parentheses.

* `lex_paren` says what is read at a parenthesis, whatever stands in front of it and behind it.
* `UrlsLocal` says of a text that the word `url` stands right in front of each group that is taken
  as it is. Two such texts are cut alike where they are alike, whatever stands in front
  (`UrlsLocal.back_eq`).
-/

namespace Stylesheet

open Text

/-! ### The word that counts -/

namespace Token

/-- The token is put on the stack of words. -/
def IsPlainWord (t : Token) : Prop :=
  t.kind = .word ∧ t.text.toList.head? ≠ some '\\'

/-- The token takes a word off the stack. -/
def OpensParen (t : Token) : Prop :=
  t.text.toList.head? = some '('

instance (t : Token) : Decidable t.IsPlainWord :=
  inferInstanceAs (Decidable (_ ∧ _))

instance (t : Token) : Decidable t.OpensParen :=
  inferInstanceAs (Decidable (_ = _))

end Token

/-- The stack of words behind one more token. -/
def wordsPast (words : List String) (t : Token) : List String :=
  if t.IsPlainWord then t.text :: words else if t.OpensParen then words.tail else words

/-- The stack of words behind tokens. -/
def wordsBehind (words : List String) (ts : List Token) : List String :=
  ts.foldl wordsPast words

/-- Each plain word is taken by a parenthesis behind it, and each parenthesis takes one. -/
inductive Spent : List Token → Prop
  | nil : Spent []
  | other {t : Token} {ts : List Token} (hword : ¬ t.IsPlainWord) (hparen : ¬ t.OpensParen)
    (h : Spent ts) : Spent (t :: ts)
  | taken {t p : Token} {inner ts : List Token} (hword : t.IsPlainWord)
    (hnot : ¬ p.IsPlainWord) (hparen : p.OpensParen) (hinner : Spent inner) (h : Spent ts) :
    Spent (t :: (inner ++ p :: ts))

/-- Words that are spent stay so behind others that are. -/
theorem Spent.append {as bs : List Token} (ha : Spent as) (hb : Spent bs) : Spent (as ++ bs) := by
  induction ha with
  | nil => exact hb
  | other hword hparen _ ih => exact .other hword hparen ih
  | taken hword hnot hparen hinner _ _ ih =>
    rw [List.cons_append, List.append_assoc, List.cons_append]
    exact .taken hword hnot hparen hinner ih

/-- The stack behind two parts is that of the second one behind the first. -/
theorem wordsBehind_append (words : List String) (as bs : List Token) :
    wordsBehind words (as ++ bs) = wordsBehind (wordsBehind words as) bs :=
  List.foldl_append

theorem wordsBehind_cons (words : List String) (t : Token) (ts : List Token) :
    wordsBehind words (t :: ts) = wordsBehind (wordsPast words t) ts :=
  rfl

/-- Spent words leave the stack as it is. -/
theorem Spent.wordsBehind_eq {ts : List Token} (h : Spent ts) (words : List String) :
    wordsBehind words ts = words := by
  induction h generalizing words with
  | nil => rfl
  | other hword hparen _ ih => rw [wordsBehind_cons, wordsPast, if_neg hword, if_neg hparen, ih]
  | taken hword hnot hparen _ _ ihinner ih =>
    rw [wordsBehind_cons, wordsPast, if_pos hword, wordsBehind_append, ihinner, wordsBehind_cons,
      wordsPast, if_neg hnot, if_pos hparen, List.tail_cons, ih]

/-- A word on top of the stack was put there by a token that is followed by spent words only. -/
theorem exists_of_wordsBehind {ts : List Token} {word : String} {words : List String}
    (h : wordsBehind [] ts = word :: words) :
    ∃ front t back, ts = front ++ t :: back ∧ t.IsPlainWord ∧ t.text = word ∧ Spent back ∧
      wordsBehind [] front = words := by
  induction hlength : ts.length using Nat.strongRecOn generalizing ts word words with
  | ind length ih =>
    subst hlength
    rcases List.eq_nil_or_concat' ts with rfl | ⟨ts, t, rfl⟩
    · cases h
    have hshorter : ∀ us : List Token, us.length ≤ ts.length →
        us.length < (ts ++ [t]).length := by
      intro us hus
      rw [List.length_append]
      exact Nat.lt_succ_of_le hus
    rw [wordsBehind_append] at h
    change wordsPast (wordsBehind [] ts) t = _ at h
    rw [wordsPast] at h
    split_ifs at h with hword hparen
    · obtain ⟨rfl, rfl⟩ := List.cons.inj h
      exact ⟨ts, t, [], rfl, hword, rfl, .nil, rfl⟩
    · -- The word that the parenthesis takes, and the one below it.
      obtain ⟨taken, htaken⟩ : ∃ taken, wordsBehind [] ts = taken :: word :: words := by
        cases hstack : wordsBehind [] ts with
        | nil => rw [hstack] at h; cases h
        | cons taken below => exact ⟨taken, by rw [hstack] at h; rw [← h]; rfl⟩
      obtain ⟨front, u, inner, rfl, hu, -, hinner, hbelow⟩ :=
        ih _ (hshorter ts (Nat.le_refl _)) htaken rfl
      obtain ⟨front, v, back, rfl, hv, hvtext, hback, hrest⟩ :=
        ih _ (hshorter front (by simp)) hbelow rfl
      refine ⟨front, v, back ++ u :: (inner ++ [t]), by simp, hv, hvtext, ?_, hrest⟩
      exact hback.append (.taken hu hword hparen hinner .nil)
    · obtain ⟨front, u, back, rfl, hu, hutext, hback, hrest⟩ :=
        ih _ (hshorter ts (Nat.le_refl _)) h rfl
      refine ⟨front, u, back ++ [t], by simp, hu, hutext, ?_, hrest⟩
      exact hback.append (.other hword hparen .nil)

/-- The last plain word that no parenthesis behind it has taken. -/
def BehindWord (word : String) (front : List Token) : Prop :=
  ∃ fs t more, front = fs ++ t :: more ∧ t.IsPlainWord ∧ t.text = word ∧ Spent more

/-- The word on top of the stack is the last one that was not taken. -/
theorem head?_wordsBehind_iff {ts : List Token} {word : String} :
    (wordsBehind [] ts).head? = some word ↔ BehindWord word ts := by
  constructor
  · intro h
    obtain ⟨words, hwords⟩ := List.head?_eq_some_iff.mp h
    obtain ⟨front, t, back, hts, ht, htext, hback, -⟩ := exists_of_wordsBehind hwords
    exact ⟨front, t, back, hts, ht, htext, hback⟩
  · rintro ⟨front, t, back, rfl, ht, rfl, hback⟩
    rw [wordsBehind_append, wordsBehind_cons, hback.wordsBehind_eq, wordsPast, if_pos ht]
    rfl

/-! ### Cutting on -/

/-- The lexer's own account of the stack is that of its tokens. -/
theorem wordsAfter_eq {tolerant : Bool} {words : List String} {word : String} {c : Char}
    {cs : List Char} {lexeme : Lexeme} (h : cutToken tolerant word c cs = .ok lexeme)
    (offset : Nat) : wordsAfter words c lexeme =
      wordsPast words ⟨lexeme.kind, String.ofList lexeme.cut.taken, offset⟩ := by
  obtain ⟨htiles, hne⟩ := cutToken_tiles h
  have hfirst : lexeme.cut.taken.head? = some c := by
    rw [← @List.head?_append_of_ne_nil _ _ lexeme.cut.rest hne, htiles]
    rfl
  have hword : Token.IsPlainWord ⟨lexeme.kind, String.ofList lexeme.cut.taken, offset⟩ ↔
      (lexeme.kind == .word && c != '\\') = true := by
    rw [Token.IsPlainWord, String.toList_ofList, hfirst]
    simp
  have hparen : Token.OpensParen ⟨lexeme.kind, String.ofList lexeme.cut.taken, offset⟩ ↔
      (c == '(') = true := by
    rw [Token.OpensParen, String.toList_ofList, hfirst]
    simp
  rw [wordsAfter, wordsAt, wordsPast]
  simp only [hword, hparen]

/-- A token that cannot be cut ends the reading. -/
theorem lexFrom_of_error {tolerant : Bool} {words : List String} {offset : Nat} {c : Char}
    {cs : List Char} {what : UnclosedKind}
    (h : cutToken tolerant (words.head?.getD "") c cs = .error what) :
    lexFrom tolerant words offset (c :: cs) = ([], some ⟨what, offset⟩) := by
  rw [lexFrom]
  split
  · rename_i h'
    rw [h] at h'
    cases h'
    rfl
  · rename_i h'
    rw [h] at h'
    cases h'

/-- Behind its first tokens, a text is cut on from the stack that they leave. -/
theorem lexFrom_eq_append {tolerant : Bool} {words : List String} {offset : Nat} {cs : List Char}
    {front back : List Token} {stop : Option Unclosed}
    (h : lexFrom tolerant words offset cs = (front ++ back, stop)) :
    ∃ rest, cs = (Token.join front).toList ++ rest ∧
      lexFrom tolerant (wordsBehind words front) (offset + (Token.join front).utf8ByteSize) rest =
        (back, stop) := by
  -- Token by token the reading begins anew, further on and with more words known.
  induction front generalizing words offset cs with
  | nil => exact ⟨cs, rfl, h⟩
  | cons t front ih =>
    cases cs with
    | nil =>
      rw [lexFrom] at h
      cases h
    | cons c cs =>
      cases hcut : cutToken tolerant (words.head?.getD "") c cs with
      | error what =>
        rw [lexFrom_of_error hcut] at h
        cases h
      | ok lexeme =>
        rw [lexFrom_of_ok hcut, wordsAfter_eq hcut offset] at h
        obtain ⟨htokens, hstop⟩ := Prod.mk.inj h
        obtain ⟨rfl, hrest⟩ := List.cons.inj htokens
        obtain ⟨rest, hcs, hlex⟩ := ih (Prod.ext hrest hstop)
        refine ⟨rest, ?_, ?_⟩
        · rw [Token.join_cons, String.toList_append, String.toList_ofList, List.append_assoc, ← hcs,
            (cutToken_tiles hcut).1]
        · rw [wordsBehind_cons, Token.join_cons, String.utf8ByteSize_append, utf8ByteSize_ofList,
            ← Nat.add_assoc]
          exact hlex

/-! ### What is read at a parenthesis -/

/-- The group that `cs` starts with is taken as it is, up to the first parenthesis that closes and
is not escaped; without one, the text is not closed. -/
def ReadsVerbatim (cs : List Char) (offset : Nat) (back : List Token) (stop : Option Unclosed) :
    Prop :=
  (∃ body rest, cs = body ++ ')' :: rest ∧ ClosedBy ')' [] body ∧
    back.head? = some ⟨.brackets, String.ofList ('(' :: body ++ [')']), offset⟩) ∨
  (¬ ∃ body rest, cs = body ++ ')' :: rest ∧ ClosedBy ')' [] body) ∧
    back = [] ∧ stop = some ⟨.bracket, offset⟩

/-- The group that `cs` starts with is one token when nothing up to the first parenthesis that
closes breaks it; otherwise the parenthesis that opens it is a token of its own. -/
def ReadsGroup (cs : List Char) (offset : Nat) (back : List Token) : Prop :=
  (∃ body rest, cs = body ++ ')' :: rest ∧ (∀ c ∈ body, c ≠ ')' ∧ breaksGroup c = false) ∧
    back.head? = some ⟨.brackets, String.ofList ('(' :: body ++ [')']), offset⟩) ∨
  (¬ ∃ body rest, cs = body ++ ')' :: rest ∧ ∀ c ∈ body, c ≠ ')' ∧ breaksGroup c = false) ∧
    back.head? = some ⟨.openParen, "(", offset⟩

/-- Behind the word `url`, these characters go on with a group like any other. -/
def StartsPlain (cs : List Char) : Prop :=
  ∃ c ∈ cs.head?, c = '"' ∨ c = '\'' ∨ isSpace c = true

/-- A group runs up to the first closing parenthesis, and nothing in it breaks it. -/
theorem cutGroup_eq_some_iff {cs : List Char} {cut : Cut} :
    cutGroup cs = some cut ↔ ∃ body, (∀ c ∈ body, c ≠ ')' ∧ breaksGroup c = false) ∧
      cs = body ++ ')' :: cut.rest ∧ cut.taken = body ++ [')'] := by
  induction cs generalizing cut with
  | nil => simp [cutGroup]
  | cons c cs ih =>
    rw [cutGroup]
    -- The first character closes the group, breaks it, or is part of its body.
    split_ifs with hclose hbreaks
    · rw [beq_iff_eq] at hclose
      subst hclose
      constructor
      · rintro ⟨⟩
        exact ⟨[], List.forall_mem_nil _, rfl, rfl⟩
      · rintro ⟨_ | ⟨d, body⟩, hbody, hcs, htaken⟩
        · obtain ⟨-, hcs⟩ := List.cons.inj hcs
          rw [hcs, show [')'] = cut.taken from htaken.symm]
        · obtain ⟨rfl, -⟩ := List.cons.inj hcs
          exact absurd rfl (hbody _ List.mem_cons_self).1
    · constructor
      · rintro ⟨⟩
      · rintro ⟨_ | ⟨d, body⟩, hbody, hcs, -⟩
        · exact absurd (List.cons.inj hcs).1 (by simpa using hclose)
        · obtain ⟨rfl, -⟩ := List.cons.inj hcs
          have hnot := (hbody _ List.mem_cons_self).2
          rw [hbreaks] at hnot
          cases hnot
    · rw [Option.map_eq_some_iff]
      have hc : c ≠ ')' ∧ breaksGroup c = false := ⟨by simpa using hclose, by simpa using hbreaks⟩
      constructor
      · rintro ⟨next, hnext, rfl⟩
        obtain ⟨body, hbody, hcs, htaken⟩ := ih.mp hnext
        exact ⟨c :: body, List.forall_mem_cons.mpr ⟨hc, hbody⟩, congrArg (c :: ·) hcs,
          congrArg (c :: ·) htaken⟩
      · rintro ⟨_ | ⟨d, body⟩, hbody, hcs, htaken⟩
        · exact absurd (List.cons.inj hcs).1 hc.1
        · obtain ⟨rfl, htail⟩ := List.cons.inj hcs
          refine ⟨⟨body ++ [')'], cut.rest⟩,
            ih.mpr ⟨body, (List.forall_mem_cons.mp hbody).2, htail, rfl⟩, ?_⟩
          rw [← List.cons_append, ← htaken]

theorem startsPlain_iff {cs : List Char} : StartsPlain cs ↔
    (cs.head?.any fun c => c == '"' || c == '\'' || isSpace c) = true := by
  rw [StartsPlain, Option.any_eq_true]
  simp only [Bool.or_eq_true, beq_iff_eq, or_assoc]
  rfl

/-- Behind the word, what is in parentheses is taken as it stands. -/
theorem cutParen_verbatim {cs : List Char} (hcs : ¬ StartsPlain cs) (tolerant : Bool) :
    cutParen tolerant "url" cs =
      match cutClosed ')' false cs with
      | some cut => .ok ⟨.brackets, ⟨'(' :: cut.taken, cut.rest⟩⟩
      | none => if tolerant then .ok ⟨.openParen, ⟨['('], cs⟩⟩ else .error .bracket := by
  rw [startsPlain_iff, Bool.not_eq_true] at hcs
  rw [cutParen, hcs]
  rfl

/-- Elsewhere it is taken as a group, or the parenthesis alone is. -/
theorem cutParen_group {word : String} {cs : List Char}
    (h : ¬ (word = "url" ∧ ¬ StartsPlain cs)) (tolerant : Bool) :
    cutParen tolerant word cs =
      match cutGroup cs with
      | some cut => .ok ⟨.brackets, ⟨'(' :: cut.taken, cut.rest⟩⟩
      | none => .ok ⟨.openParen, ⟨['('], cs⟩⟩ := by
  rw [startsPlain_iff, Bool.not_eq_true, ← Bool.not_eq_true', ← beq_iff_eq, ← Bool.and_eq_true] at h
  rw [cutParen]
  exact if_neg h

/-- The first token tells how the parenthesis was read. -/
theorem readsVerbatim_lexFrom {words : List String} (hword : words.head?.getD "" = "url")
    {cs : List Char} (hcs : ¬ StartsPlain cs) (offset : Nat) :
    ReadsVerbatim cs offset (lexFrom false words offset ('(' :: cs)).1
      (lexFrom false words offset ('(' :: cs)).2 := by
  have hcut : cutToken false (words.head?.getD "") '(' cs = cutParen false "url" cs := by
    rw [hword]
    rfl
  rw [cutParen_verbatim hcs] at hcut
  -- Which parenthesis closes is said by its backslashes; the flag that the loop carries is gone.
  have hiff := @cutClosed_eq_some_iff ')' [] cs
  rw [isEscaped_nil] at hiff
  cases hclosed : cutClosed ')' false cs with
  | some cut =>
    rw [hclosed] at hcut
    obtain ⟨body, hbody, hcs, htaken⟩ := hiff.mp hclosed
    rw [lexFrom_of_ok hcut, htaken]
    exact .inl ⟨body, cut.rest, hcs, hbody, rfl⟩
  | none =>
    rw [hclosed] at hcut
    rw [lexFrom_of_error hcut]
    refine .inr ⟨?_, rfl, rfl⟩
    rintro ⟨body, rest, hcs, hbody⟩
    have hsome := (@hiff ⟨body ++ [')'], rest⟩).mpr ⟨body, hbody, hcs, rfl⟩
    rw [hclosed] at hsome
    cases hsome

theorem readsGroup_lexFrom {words : List String} {cs : List Char}
    (hword : ¬ (words.head?.getD "" = "url" ∧ ¬ StartsPlain cs)) (offset : Nat) :
    ReadsGroup cs offset (lexFrom false words offset ('(' :: cs)).1 := by
  have hcut : cutToken false (words.head?.getD "") '(' cs =
      cutParen false (words.head?.getD "") cs := rfl
  rw [cutParen_group hword] at hcut
  cases hgroup : cutGroup cs with
  | some cut =>
    rw [hgroup] at hcut
    obtain ⟨body, hbody, hcs, htaken⟩ := cutGroup_eq_some_iff.mp hgroup
    rw [lexFrom_of_ok hcut, htaken]
    exact .inl ⟨body, cut.rest, hcs, hbody, rfl⟩
  | none =>
    rw [hgroup] at hcut
    rw [lexFrom_of_ok hcut]
    -- Were there a body, the group would have been cut.
    refine .inr ⟨?_, rfl⟩
    rintro ⟨body, rest, hcs, hbody⟩
    have hsome := cutGroup_eq_some_iff.mpr
      ⟨body, hbody, hcs, (rfl : (Cut.mk (body ++ [')']) rest).taken = _)⟩
    rw [hgroup] at hsome
    cases hsome

theorem getD_eq_url_iff {words : List String} :
    words.head?.getD "" = "url" ↔ words.head? = some "url" := by
  cases words.head? with
  | none => decide
  | some word => exact (Option.some_inj).symm

/-- **Parentheses.** In every text, where an opening parenthesis starts a token: when the last plain
word in front that was not taken is `url`, and what follows is neither a quote nor white space, the
group is taken as it is. In all other cases it is a group like any other. A word right in front of
the parenthesis is the one that counts, but the one that counts need not stand there. -/
theorem lex_paren {css : String} {front back : List Token} {stop : Option Unclosed}
    {cs : List Char} (hlex : lex false css = (front ++ back, stop))
    (hcss : css.toList = (Token.join front).toList ++ '(' :: cs) :
    (BehindWord "url" front ∧ ¬ StartsPlain cs →
      ReadsVerbatim cs (Token.join front).utf8ByteSize back stop) ∧
    (¬ (BehindWord "url" front ∧ ¬ StartsPlain cs) →
      ReadsGroup cs (Token.join front).utf8ByteSize back) ∧
    ∀ fs t, front = fs ++ [t] → t.IsPlainWord → BehindWord t.text front := by
  obtain ⟨rest, hrest, hback⟩ := lexFrom_eq_append hlex
  obtain rfl : rest = '(' :: cs := List.append_cancel_left (hrest.symm.trans hcss)
  rw [Nat.zero_add] at hback
  have hurl : BehindWord "url" front ↔ (wordsBehind [] front).head?.getD "" = "url" :=
    head?_wordsBehind_iff.symm.trans getD_eq_url_iff.symm
  rw [hurl]
  refine ⟨fun ⟨hword, hplain⟩ => ?_, fun hword => ?_, ?_⟩
  · have hreads := readsVerbatim_lexFrom hword hplain (Token.join front).utf8ByteSize
    rwa [hback] at hreads
  · have hreads := readsGroup_lexFrom hword (Token.join front).utf8ByteSize
    rwa [hback] at hreads
  · rintro fs t rfl ht
    exact ⟨fs, t, [], rfl, ht, rfl, .nil⟩

/-- The word `url` in front of the parenthesis counts, and the group is closed behind an escaped
parenthesis. -/
theorem lex_paren_urlWithEscape :
    lex false "a:url(b \\) c)" = ([⟨.word, "a", 0⟩, ⟨.colon, ":", 1⟩, ⟨.word, "url", 2⟩] ++
      [⟨.brackets, "(b \\) c)", 5⟩], none) ∧
    ReadsVerbatim ['b', ' ', '\\', ')', ' ', 'c', ')'] 5 [⟨.brackets, "(b \\) c)", 5⟩] none := by
  have hlex : lex false "a:url(b \\) c)" = ([⟨.word, "a", 0⟩, ⟨.colon, ":", 1⟩,
      ⟨.word, "url", 2⟩] ++ [⟨.brackets, "(b \\) c)", 5⟩], none) := by
    decide +kernel
  obtain ⟨hverbatim, -, hword⟩ :=
    @lex_paren _ _ _ _ ['b', ' ', '\\', ')', ' ', 'c', ')'] hlex (by decide +kernel)
  refine ⟨hlex, hverbatim ⟨hword [⟨.word, "a", 0⟩, ⟨.colon, ":", 1⟩] _ rfl (by decide), ?_⟩⟩
  rw [startsPlain_iff]
  decide

/-- A word `url` counts for a parenthesis that does not stand right behind it. -/
theorem url_behind_space :
    ¬ ∀ (css : String) (front back : List Token) (stop : Option Unclosed) (cs : List Char),
      lex false css = (front ++ back, stop) →
      css.toList = (Token.join front).toList ++ '(' :: cs →
      let verbatim := (∃ fs t, front = fs ++ [t] ∧ t.kind = .word ∧ t.text = "url") ∧
        ¬ StartsPlain cs
      (verbatim → ReadsVerbatim cs (Token.join front).utf8ByteSize back stop) ∧
        (¬ verbatim → ReadsGroup cs (Token.join front).utf8ByteSize back) := by
  intro h
  obtain ⟨-, hgroup⟩ := h "url (a/b)" [⟨.word, "url", 0⟩, ⟨.space, " ", 3⟩]
    [⟨.brackets, "(a/b)", 4⟩] none ['a', '/', 'b', ')'] (by decide +kernel) (by decide +kernel)
  have hnot : ¬ ∃ fs t, ([⟨.word, "url", 0⟩, ⟨.space, " ", 3⟩] : List Token) = fs ++ [t] ∧
      t.kind = .word ∧ t.text = "url" := by
    rintro ⟨fs, t, hfront, hkind, -⟩
    have hlast := congrArg List.getLast? hfront
    rw [List.getLast?_concat] at hlast
    cases hlast
    cases hkind
  rcases hgroup fun hverbatim => hnot hverbatim.1 with ⟨body, rest, -, hbody, hhead⟩ | ⟨-, hhead⟩
  · -- The slash in the group would break it.
    obtain ⟨-, htext, -⟩ := Token.mk.inj (Option.some.inj hhead)
    have hlist : '(' :: (['a', '/', 'b'] ++ [')']) = '(' :: (body ++ [')']) := by
      have hcongr := congrArg String.toList htext
      rwa [String.toList_ofList, String.toList_ofList] at hcongr
    obtain rfl : ['a', '/', 'b'] = body := List.append_cancel_right (List.cons.inj hlist).2
    exact absurd (hbody '/' (by decide)).2 (by decide)
  · cases hhead

/-! ### Texts that are cut alike -/

/-- The token without its place. -/
def Token.unplaced (t : Token) : Token :=
  { t with start := 0 }

/-- The word `url` stands at the end. -/
def EndsWithUrl (front : List Token) : Prop :=
  ∃ fs t, front = fs ++ [t] ∧ t.kind = .word ∧ t.text = "url"

/-- The word `url` stands right in front of each group that is taken as it is. -/
def UrlsLocal (css : String) : Prop :=
  ∀ front back stop cs, lex false css = (front ++ back, stop) →
    css.toList = (Token.join front).toList ++ '(' :: cs →
    BehindWord "url" front → ¬ StartsPlain cs → EndsWithUrl front

/-- Without the word `url`, it counts nowhere. -/
theorem urlsLocal_of_ne {css : String}
    (h : ∀ t ∈ (lex false css).1, t.kind = .word → t.text ≠ "url") : UrlsLocal css := by
  rintro _ back stop cs hlex - ⟨fs, t, between, rfl, hplain, htext, -⟩ -
  refine absurd htext (h t ?_ hplain.1)
  rw [hlex]
  simp

/-- Only the last token matters. -/
theorem endsWithUrl_concat {front : List Token} {t : Token} :
    EndsWithUrl (front ++ [t]) ↔ t.kind = .word ∧ t.text = "url" := by
  constructor
  · rintro ⟨fs, u, hfront, hu⟩
    obtain ⟨-, rfl⟩ := List.append_singleton_inj.mp hfront
    exact hu
  · exact fun ht => ⟨front, t, rfl, ht⟩

/-- Directly behind the word, it is on top of the stack. -/
theorem EndsWithUrl.behindWord {front : List Token} (h : EndsWithUrl front) :
    BehindWord "url" front := by
  obtain ⟨fs, t, rfl, hkind, htext⟩ := h
  refine ⟨fs, t, [], rfl, ⟨hkind, ?_⟩, htext, .nil⟩
  rw [htext]
  decide

/-- The word that counts matters at a parenthesis only. -/
theorem cutToken_congr {c : Char} (hc : c ≠ '(') (tolerant : Bool) (word word' : String)
    (cs : List Char) : cutToken tolerant word c cs = cutToken tolerant word' c cs := by
  have hne : (c == '(') = false := beq_eq_false_iff_ne.mpr hc
  simp only [cutToken, hne, Bool.false_eq_true, ↓reduceIte]

/-- What is cut off next, when groups are taken as they are behind the word `url` only. -/
theorem UrlsLocal.cutToken_eq {css : String} (h : UrlsLocal css) {front back : List Token}
    {stop : Option Unclosed} {c : Char} {cs : List Char}
    (hlex : lex false css = (front ++ back, stop))
    (hcss : css.toList = (Token.join front).toList ++ c :: cs) (word : String)
    (hword : word = "url" ↔ EndsWithUrl front) :
    cutToken false ((wordsBehind [] front).head?.getD "") c cs = cutToken false word c cs := by
  by_cases hc : c = '('
  · subst hc
    change cutParen false _ cs = cutParen false word cs
    by_cases hurl : EndsWithUrl front
    · rw [hword.mpr hurl, getD_eq_url_iff.mpr (head?_wordsBehind_iff.mpr hurl.behindWord)]
    · have htop : ¬ ((wordsBehind [] front).head?.getD "" = "url" ∧ ¬ StartsPlain cs) := by
        rintro ⟨htop, hplain⟩
        exact hurl (h front back stop cs hlex hcss
          (head?_wordsBehind_iff.mp (getD_eq_url_iff.mp htop)) hplain)
      rw [cutParen_group htop, cutParen_group fun hboth => hurl (hword.mp hboth.1)]
  · exact cutToken_congr hc false _ _ cs

/-- Two texts that end alike are cut alike there, whatever stands in front, when the word `url`
counts right in front of a parenthesis only. It matters what is in front of a parenthesis. -/
theorem UrlsLocal.back_eq {css css' : String} (h : UrlsLocal css) (h' : UrlsLocal css')
    {front front' back back' : List Token} {stop stop' : Option Unclosed} {cs : List Char}
    (hlex : lex false css = (front ++ back, stop))
    (hlex' : lex false css' = (front' ++ back', stop'))
    (hcss : css.toList = (Token.join front).toList ++ cs)
    (hcss' : css'.toList = (Token.join front').toList ++ cs)
    (hurl : cs.head? = some '(' → (EndsWithUrl front ↔ EndsWithUrl front')) :
    back.map Token.unplaced = back'.map Token.unplaced ∧
      stop.map Unclosed.what = stop'.map Unclosed.what := by
  induction hlength : cs.length using Nat.strongRecOn
    generalizing cs front front' back back' with
  | ind length ih =>
    subst hlength
    obtain ⟨rest, hrest, hback⟩ := lexFrom_eq_append hlex
    obtain rfl := List.append_cancel_left (hrest.symm.trans hcss)
    obtain ⟨rest', hrest', hback'⟩ := lexFrom_eq_append hlex'
    obtain rfl := List.append_cancel_left (hrest'.symm.trans hcss')
    rw [Nat.zero_add] at hback hback'
    cases rest' with
    | nil =>
      rw [lexFrom] at hback hback'
      obtain ⟨rfl, rfl⟩ := Prod.mk.inj hback
      obtain ⟨rfl, rfl⟩ := Prod.mk.inj hback'
      exact ⟨rfl, rfl⟩
    | cons c cs =>
      -- Only whether the word is `url` matters, so one word will do for both texts.
      obtain ⟨word, hword⟩ : ∃ word : String, word = "url" ↔ EndsWithUrl front := by
        by_cases hends : EndsWithUrl front
        · exact ⟨"url", iff_of_true rfl hends⟩
        · exact ⟨"", iff_of_false (by decide) hends⟩
      have hcut := h.cutToken_eq hlex hcss word hword
      have hcut' : cutToken false ((wordsBehind [] front').head?.getD "") c cs =
          cutToken false word c cs := by
        by_cases hc : c = '('
        · exact h'.cutToken_eq hlex' hcss' word (hword.trans (hurl (congrArg some hc)))
        · exact cutToken_congr hc false _ _ cs
      cases hnext : cutToken false word c cs with
      | error what =>
        rw [lexFrom_of_error (hcut.trans hnext)] at hback
        rw [lexFrom_of_error (hcut'.trans hnext)] at hback'
        obtain ⟨rfl, rfl⟩ := Prod.mk.inj hback
        obtain ⟨rfl, rfl⟩ := Prod.mk.inj hback'
        exact ⟨rfl, rfl⟩
      | ok lexeme =>
        rw [lexFrom_of_ok (hcut.trans hnext)] at hback
        rw [lexFrom_of_ok (hcut'.trans hnext)] at hback'
        obtain ⟨rfl, rfl⟩ := Prod.mk.inj hback
        obtain ⟨rfl, rfl⟩ := Prod.mk.inj hback'
        have htiles := cutToken_tiles hnext
        have htext : ∀ (ts : List Token) (offset : Nat), (Token.join ts).toList ++ c :: cs =
            (Token.join (ts ++ [⟨lexeme.kind, String.ofList lexeme.cut.taken, offset⟩])).toList ++
              lexeme.cut.rest := by
          intro ts offset
          rw [Token.join_append, String.toList_append, List.append_assoc, ← htiles.1]
          simp [Token.join]
        rw [List.append_cons] at hlex hlex'
        rw [htext] at hcss hcss'
        obtain ⟨hmap, hstop⟩ := ih _ htiles.length_rest_lt hlex hlex' hcss hcss'
          (fun _ => by rw [endsWithUrl_concat, endsWithUrl_concat]) rfl
        exact ⟨by rw [List.map_cons, List.map_cons, hmap]; rfl, hstop⟩

end Stylesheet
