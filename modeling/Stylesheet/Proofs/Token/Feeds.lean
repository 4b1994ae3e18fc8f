import Stylesheet.Proofs.Token.Ends
import Stylesheet.Proofs.Token.Parens
import Stylesheet.Proofs.Token.Tiles

/-!
# What a lexer still hands out

A reader pulls tokens from a lexer one by one, and hands some of them back. `Lexer.Feeds` says which
tokens the lexer of a text still hands out: those handed back, the last one first, and then those
that are not cut yet. They are tokens at the end of the text (`Lexer.Feeds.suffix`), whatever was
pulled and handed back (`Lexer.Feeds.next_cons`, `Lexer.Feeds.handBack`).

The bytes of these tokens are what is left to be read (`Lexer.left`). They become fewer when a
reader moves on, be it by a few tokens that are taken for good (`Lexer.Feeds.left_lt`), and they are
none at the end only (`Lexer.Feeds.left_pos`).
-/

namespace Stylesheet

open Text

/-! ### Tokens of the text -/

/-- The token is one of the text. -/
def Token.From (css : String) (t : Token) : Prop :=
  t ∈ (lex false css).1

namespace Token.From

variable {css : String} {t : Token}

/-- A token of a text stands somewhere in it. -/
theorem placed (h : t.From css) :
    ∃ front rest, css = front ++ t.text ++ rest ∧ t.start = front.utf8ByteSize := by
  obtain ⟨as, bs, hlist⟩ := List.append_of_mem h
  have hlex : lexFrom false [] 0 css.toList = ((as ++ [t]) ++ bs, (lex false css).2) := by
    rw [List.append_assoc, List.singleton_append, ← hlist]
    rfl
  obtain ⟨rest, hrest, -⟩ := lexFrom_eq_append hlex
  refine ⟨Token.join as, String.ofList rest, ?_, ?_⟩
  · rw [← String.toList_inj, hrest, Token.join_append, Token.join_cons, Token.join_nil,
      String.append_empty, String.toList_append, String.toList_append, String.toList_append,
      String.toList_ofList]
  · have hfollow := lex_follow false css
    rw [hlist] at hfollow
    exact Token.follow_start hfollow

theorem tidy (h : t.From css) : t.Tidy :=
  lex_tidy css t h

theorem standsIn (h : t.From css) : t.StandsIn css := by
  obtain ⟨front, rest, hcss, hstart⟩ := h.placed
  rw [hcss]
  exact Token.standsIn_of_append rest hstart h.tidy.spelled.text_ne

end Token.From

/-! ### What a lexer still hands out -/

/-- Bytes that are still to be read: those that are not cut yet and those handed back. -/
def Lexer.left (l : Lexer) : Nat :=
  bytes l.rest + (Token.join l.returned).utf8ByteSize

/-- The tokens are those that the lexer of a text still hands out. -/
structure Lexer.Feeds (css : String) (l : Lexer) (ts : List Token) : Prop where
  strict : l.tolerant = false
  place : l.offset + bytes l.rest = css.utf8ByteSize
  tokens : ∃ more, l.returned ++ more = ts ∧
    lexFrom false l.words l.offset l.rest = (more, (lex false css).2)
  tiles : ∃ front, front ++ ts = (lex false css).1 ∧
    (Token.join front).utf8ByteSize + l.left = css.utf8ByteSize

namespace Lexer

variable {css : String} {l l' : Lexer} {t : Token} {ts us : List Token}

/-- With each token that is handed out, less is left. -/
theorem length_of_next {tolerant : Bool} (h : l.next tolerant = (.ok (some t), l')) :
    l'.rest.length + l'.returned.length < l.rest.length + l.returned.length := by
  rcases next_cases h with ⟨hreturned, hrest⟩ | ⟨hreturned, taken, hne, hrest⟩
  · rw [hreturned, hrest]
    exact Nat.lt_succ_self _
  · have hpos := List.length_pos_iff.mpr hne
    rw [hreturned, hrest, List.length_append]
    omega

/-- At the end nothing is handed out. -/
theorem next_of_atEnd (h : l.atEnd = true) {tolerant : Bool} :
    l.next tolerant = (.ok none, l) := by
  rw [atEnd, Bool.and_eq_true, List.isEmpty_iff, List.isEmpty_iff] at h
  rw [next, h.1, h.2]

namespace Feeds

theorem ofText (css : String) : (Lexer.ofText css false).Feeds css (lex false css).1 where
  strict := rfl
  place := by
    rw [utf8ByteSize_eq_bytes]
    exact Nat.zero_add _
  tokens := ⟨_, rfl, rfl⟩
  tiles := by
    refine ⟨[], rfl, ?_⟩
    rw [left, utf8ByteSize_eq_bytes css]
    exact Nat.zero_add _

theorem left_ofText (css : String) : (Lexer.ofText css false).left = css.utf8ByteSize := by
  rw [utf8ByteSize_eq_bytes]
  rfl

/-- What is to come is the rest of the tokens. -/
theorem suffix (h : l.Feeds css ts) : ts <:+ (lex false css).1 := by
  obtain ⟨front, hfront, -⟩ := h.tiles
  exact ⟨front, hfront⟩

theorem from_text (h : l.Feeds css ts) : ∀ t ∈ ts, t.From css := fun _ ht => h.suffix.subset ht

/-- The next token, when there is one. -/
theorem next_cons (h : l.Feeds css (t :: ts)) :
    ∃ l', l.next false = (.ok (some t), l') ∧ l'.Feeds css ts := by
  obtain ⟨rest, offset, words, returned, tolerant⟩ := l
  obtain ⟨rfl : tolerant = false, hplace, ⟨more, hmore, hlex⟩, front, hfront, hsize⟩ := h
  have hconcat : front ++ [t] ++ ts = (lex false css).1 := by
    rw [List.append_assoc]
    exact hfront
  dsimp only [left] at hplace hmore hlex hsize
  cases returned with
  | cons u us =>
    -- What was handed back comes first.
    obtain ⟨rfl, rfl⟩ := List.cons.inj hmore
    rw [Token.join_cons, String.utf8ByteSize_append] at hsize
    refine ⟨_, rfl, rfl, hplace, ⟨more, rfl, hlex⟩, front ++ [u], hconcat, ?_⟩
    rw [Token.join_append, Token.join_singleton, String.utf8ByteSize_append, left]
    dsimp only
    omega
  | nil =>
    obtain rfl : more = t :: ts := hmore
    cases rest with
    | nil =>
      rw [lexFrom] at hlex
      cases hlex
    | cons c cs =>
      cases hcut : cutToken false (words.head?.getD "") c cs with
      | error what =>
        rw [lexFrom_of_error hcut] at hlex
        cases hlex
      | ok lexeme =>
        -- The token is cut off what is left, and its bytes go over to the front.
        rw [lexFrom_of_ok hcut] at hlex
        obtain ⟨htokens, hstop⟩ := Prod.mk.inj hlex
        obtain ⟨rfl, rfl⟩ := List.cons.inj htokens
        have hbytes := congrArg bytes (cutToken_tiles hcut).1
        rw [bytes_append] at hbytes
        refine ⟨⟨lexeme.cut.rest, offset + bytes lexeme.cut.taken, wordsAfter words c lexeme, [],
          false⟩, ?_, rfl, ?_, ⟨_, rfl, Prod.ext rfl hstop⟩, _, hconcat, ?_⟩
        · simp only [next, Bool.false_or, hcut]
        · dsimp only
          omega
        · rw [Token.join_append, Token.join_singleton, String.utf8ByteSize_append, left,
            utf8ByteSize_ofList]
          dsimp only
          omega

/-- At the end of the tokens there is no other, or what is left does not end. -/
theorem next_nil (h : l.Feeds css []) :
    match (lex false css).2 with
    | none => l.next false = (.ok none, l) ∧ l.rest = [] ∧ l.returned = []
    | some u => ∃ l', l.next false = (.error u, l') := by
  obtain ⟨rest, offset, words, returned, tolerant⟩ := l
  obtain ⟨rfl : tolerant = false, -, ⟨more, hmore, hlex⟩, -⟩ := h
  -- Nothing is left to hand out, so none was given back and the rest holds none.
  obtain ⟨rfl : returned = [], rfl⟩ := List.append_eq_nil_iff.mp hmore
  dsimp only at hlex
  cases rest with
  | nil =>
    rw [lexFrom] at hlex
    rw [← (Prod.mk.inj hlex).2]
    exact ⟨rfl, rfl, rfl⟩
  | cons c cs =>
    cases hcut : cutToken false (words.head?.getD "") c cs with
    | error what =>
      rw [lexFrom_of_error hcut] at hlex
      rw [← (Prod.mk.inj hlex).2]
      exact ⟨⟨c :: cs, offset, wordsAt words c, [], false⟩,
        by simp only [next, Bool.false_or, hcut]⟩
    | ok lexeme =>
      rw [lexFrom_of_ok hcut] at hlex
      cases hlex

/-- A token that is handed back comes next. -/
theorem back (h : l.Feeds css ts) (hsuffix : t :: ts <:+ (lex false css).1) :
    (l.back t).Feeds css (t :: ts) := by
  obtain ⟨more, hmore, hlex⟩ := h.tokens
  obtain ⟨front, hfront, hsize⟩ := h.tiles
  obtain ⟨front', hfront'⟩ := hsuffix
  -- The token was the last one in front.
  obtain rfl : front = front' ++ [t] := by
    refine (List.append_left_inj ts).mp ?_
    rw [hfront, ← hfront', List.append_assoc]
    rfl
  refine ⟨h.strict, h.place, ⟨more, congrArg (t :: ·) hmore, hlex⟩, front', hfront', ?_⟩
  rw [Token.join_append, Token.join_singleton, String.utf8ByteSize_append] at hsize
  rw [left] at hsize ⊢
  rw [Lexer.back, Token.join_cons, String.utf8ByteSize_append]
  dsimp only
  omega

/-- Several tokens come in the order in which they stood. -/
theorem handBack (h : l.Feeds css ts) (hsuffix : us ++ ts <:+ (lex false css).1) :
    (us.foldr (fun t l => l.back t) l).Feeds css (us ++ ts) := by
  induction us with
  | nil => exact h
  | cons u us ih => exact (ih ((List.suffix_cons u _).trans hsuffix)).back hsuffix

/-- The end is reached when no token is left, and no failure. -/
theorem atEnd_eq (h : l.Feeds css ts) : l.atEnd = (ts.isEmpty && (lex false css).2.isNone) := by
  cases ts with
  | cons t ts =>
    obtain ⟨l', hnext, -⟩ := h.next_cons
    refine Bool.eq_false_iff.mpr fun hend => ?_
    rw [next_of_atEnd hend] at hnext
    cases hnext
  -- Out of tokens; it is still not the end when the text stops inside of one.
  | nil =>
    have hnext := h.next_nil
    cases hstop : (lex false css).2 with
    | none =>
      rw [hstop] at hnext
      obtain ⟨-, hrest, hreturned⟩ := hnext
      rw [atEnd, hrest, hreturned]
      rfl
    | some u =>
      rw [hstop] at hnext
      obtain ⟨l', hnext⟩ := hnext
      refine Bool.eq_false_iff.mpr fun hend => ?_
      rw [next_of_atEnd hend] at hnext
      cases hnext

/-- Something is left in front of the end. -/
theorem left_pos (h : l.Feeds css ts) (hend : l.atEnd = false) : 0 < l.left := by
  refine Nat.pos_of_ne_zero fun hzero => Bool.false_ne_true (hend.symm.trans ?_)
  obtain ⟨hrest, hreturned⟩ := Nat.add_eq_zero_iff.mp hzero
  obtain ⟨more, hmore, -⟩ := h.tokens
  rw [atEnd, eq_nil_of_bytes_eq_zero hrest]
  cases hl : l.returned with
  | nil => rfl
  | cons u us =>
    rw [hl] at hmore hreturned
    have hu : u.From css := h.from_text u (by rw [← hmore]; exact List.mem_cons_self)
    have hjoin := String.utf8ByteSize_eq_zero_iff.mp hreturned
    rw [Token.join_cons, String.append_eq_empty_iff] at hjoin
    exact absurd hjoin.1 hu.tidy.spelled.text_ne

/-- Less is left behind tokens that were handed out. -/
theorem left_lt (h : l.Feeds css (us ++ ts)) (h' : l'.Feeds css ts) (hne : us ≠ []) :
    l'.left < l.left := by
  obtain ⟨front, hfront, hsize⟩ := h.tiles
  obtain ⟨front', hfront', hsize'⟩ := h'.tiles
  obtain rfl : front' = front ++ us := by
    refine (List.append_left_inj ts).mp ?_
    rw [hfront', ← hfront, List.append_assoc]
  obtain ⟨t, more, rfl⟩ := List.exists_cons_of_ne_nil hne
  have hpos : t.text.utf8ByteSize ≠ 0 := fun hzero =>
    (h.from_text t List.mem_cons_self).tidy.spelled.text_ne
      (String.utf8ByteSize_eq_zero_iff.mp hzero)
  rw [Token.join_append, Token.join_cons, String.utf8ByteSize_append,
    String.utf8ByteSize_append] at hsize'
  omega

end Feeds

end Lexer

end Stylesheet
