import Mathlib.Data.List.Basic
import Mathlib.Data.List.TakeWhile
import Mathlib.Tactic.SplitIfs
import Stylesheet.Proofs.Token.Spelling

/-!
# How tokens begin and end

No token but white space ends with a line break, and a token that starts with a dash is a word
(`Token.Tidy`). Both are read off one token at a time, like the spelling of tokens.
-/

namespace Stylesheet

open Text

/-! ### Texts that do not end with a line break -/

/-- The text does not end with a line break. -/
def EndsInLine (s : String) : Prop :=
  s.toList.getLast? ≠ some '\n'

instance (s : String) : Decidable (EndsInLine s) :=
  inferInstanceAs (Decidable (_ ≠ _))

theorem endsInLine_empty : EndsInLine "" := by
  decide

/-- The last line of a text is that of its last part. -/
theorem EndsInLine.append {t : String} (h : EndsInLine t) (hne : t ≠ "") (s : String) :
    EndsInLine (s ++ t) := by
  have hlist : t.toList ≠ [] := fun hnil => hne (String.toList_inj.mp hnil)
  rwa [EndsInLine, String.toList_append, List.getLast?_append_of_ne_nil _ hlist]

theorem EndsInLine.of_append {s t : String} (h : EndsInLine (s ++ t)) : EndsInLine t := by
  by_cases hempty : t = ""
  · rw [hempty]
    exact endsInLine_empty
  · have hlist : t.toList ≠ [] := fun hnil => hempty (String.toList_inj.mp hnil)
    rwa [EndsInLine, String.toList_append, List.getLast?_append_of_ne_nil _ hlist] at h

/-! ### Tokens -/

/-- A group ends with the character that closes it. -/
theorem getLast?_cutClosed {close : Char} {escaped : Bool} {cs : List Char} {cut : Cut}
    (h : cutClosed close escaped cs = some cut) : cut.taken.getLast? = some close := by
  induction cs generalizing escaped cut with
  | nil => cases h
  | cons c cs ih =>
    rw [cutClosed] at h
    split_ifs at h with hclose
    · cases h
      rw [Bool.and_eq_true, beq_iff_eq] at hclose
      rw [List.getLast?_singleton, hclose.1]
    · obtain ⟨d, hd, rfl⟩ := Option.map_eq_some_iff.mp h
      dsimp only
      rw [List.getLast?_cons, ih hd]
      rfl

theorem getLast?_cutGroup {cs : List Char} {cut : Cut} (h : cutGroup cs = some cut) :
    cut.taken.getLast? = some ')' := by
  induction cs generalizing cut with
  | nil => cases h
  | cons c cs ih =>
    rw [cutGroup] at h
    split_ifs at h with hclose
    · cases h
      rw [beq_iff_eq] at hclose
      rw [List.getLast?_singleton, hclose]
    · obtain ⟨d, hd, rfl⟩ := Option.map_eq_some_iff.mp h
      dsimp only
      rw [List.getLast?_cons, ih hd]
      rfl

/-- No word goes over the end of a line. -/
theorem newline_not_mem_cutWord (cs : List Char) : '\n' ∉ (cutWord cs).taken := by
  induction cs with
  | nil => exact List.not_mem_nil
  | cons c cs ih =>
    rw [cutWord]
    split_ifs with hend
    · exact List.not_mem_nil
    · rintro (_ | ⟨_, hmem⟩)
      · exact hend rfl
      · exact ih hmem

theorem newline_not_mem_cutEscaped (cs : List Char) : '\n' ∉ (cutEscaped cs).taken := by
  have hhex : ∀ ds : List Char, '\n' ∉ ds.takeWhile isHex := fun ds hmem =>
    absurd (List.mem_takeWhile_imp hmem) (by decide)
  cases cs with
  | nil => exact List.not_mem_nil
  | cons c cs =>
    rw [cutEscaped]
    by_cases hspace : (isSpace c || c == '/') = true
    · rw [if_pos hspace]
      exact List.not_mem_nil
    -- A line break would be white space, which is not escaped.
    · have hc : '\n' ≠ c := by
        rintro rfl
        exact hspace rfl
      rw [if_neg hspace]
      split_ifs
      · dsimp only
        split
        · simp [hc, hhex]
        · split_ifs with hblank
          · rw [beq_iff_eq] at hblank
            simp [hc, hhex, hblank]
          · simp [hc, hhex]
      · simpa using hc

theorem newline_not_mem_cutBackslashes (odd : Bool) (cs : List Char) :
    '\n' ∉ (cutBackslashes odd cs).taken := by
  induction cs generalizing odd with
  | nil => exact List.not_mem_nil
  | cons c cs ih =>
    rw [cutBackslashes]
    split_ifs with hback hodd
    · rw [beq_iff_eq] at hback
      simpa [hback] using ih _
    · exact newline_not_mem_cutEscaped _
    · exact List.not_mem_nil

theorem getLast?_ne_of_not_mem {cs : List Char} (h : '\n' ∉ cs) : cs.getLast? ≠ some '\n' :=
  fun hlast => h (List.mem_of_getLast? hlast)

/-- No token but white space ends with a line break. -/
theorem getLast?_cutToken {word : String} {c : Char} {cs : List Char} {lexeme : Lexeme}
    (h : cutToken false word c cs = .ok lexeme) (hkind : lexeme.kind ≠ .space) :
    lexeme.cut.taken.getLast? ≠ some '\n' := by
  -- Per kind of token: it ends with its closing character, or it holds no line break at all.
  cases FirstToken.of_cutToken h with
  | punctuation hc =>
    refine getLast?_ne_of_not_mem ?_
    rw [List.mem_singleton]
    rintro rfl
    cases hc
  | space => exact absurd rfl hkind
  | verbatim hcut => simp [List.getLast?_cons, getLast?_cutClosed hcut]
  | group hcut => simp [List.getLast?_cons, getLast?_cutGroup hcut]
  | openParen => simp
  | string hquote hcut => rcases hquote with rfl | rfl <;>
      simp [List.getLast?_cons, getLast?_cutClosed hcut]
  | atWord =>
    refine getLast?_ne_of_not_mem ?_
    rintro (_ | ⟨_, hmem⟩)
    exact absurd (List.mem_takeWhile_imp hmem) (by decide)
  | backslashes =>
    refine getLast?_ne_of_not_mem ?_
    rintro (_ | ⟨_, hmem⟩)
    exact newline_not_mem_cutBackslashes _ _ hmem
  | @comment cs body rest hbody =>
    show ('/' :: '*' :: body ++ ['*', '/']).getLast? ≠ _
    rw [List.getLast?_append_of_ne_nil _ (List.cons_ne_nil _ _)]
    decide
  | word hc =>
    refine getLast?_ne_of_not_mem ?_
    rintro (_ | ⟨_, hmem⟩)
    · cases hc
    · exact newline_not_mem_cutWord _ hmem

/-- A token that starts with a dash is a word. -/
theorem kind_of_dash {word : String} {cs : List Char} {lexeme : Lexeme}
    (h : cutToken false word '-' cs = .ok lexeme) : lexeme.kind = .word := by
  have hcut : cutToken false word '-' cs =
      .ok ⟨.word, ⟨'-' :: (cutWord cs).taken, (cutWord cs).rest⟩⟩ := rfl
  rw [hcut] at h
  cases h
  rfl

/-- White space begins with a white space character. -/
theorem isSpace_of_cutToken {word : String} {c : Char} {cs : List Char} {lexeme : Lexeme}
    (h : cutToken false word c cs = .ok lexeme) (hkind : lexeme.kind = .space) :
    isSpace c = true := by
  cases FirstToken.of_cutToken h with
  | space hc => exact hc
  | punctuation hc =>
    obtain rfl : _ = TokenKind.space := hkind
    unfold punctuation? at hc
    split at hc <;> cases hc
  | _ => cases hkind

/-- White space has no other characters. -/
theorem isSpace_of_mem_taken {word : String} {c : Char} {cs : List Char} {lexeme : Lexeme}
    (h : cutToken false word c cs = .ok lexeme) (hkind : lexeme.kind = .space) :
    ∀ d ∈ lexeme.cut.taken, isSpace d = true := by
  have hc := isSpace_of_cutToken h hkind
  rw [cutToken_of_isSpace hc] at h
  cases h
  exact List.forall_mem_cons.mpr ⟨hc, fun d hd => List.mem_takeWhile_imp hd⟩

/-! ### Whole texts -/

/-- The token is spelled as its kind says, begins with a dash only when it is a word, and ends with
a line break only when it is white space. White space has no other characters. -/
structure Token.Tidy (t : Token) : Prop where
  spelled : t.Spelled
  blank : t.kind = .space → ∀ c ∈ t.text.toList, isSpace c = true
  dash : t.text.toList.head? = some '-' → t.kind = .word
  inLine : t.kind ≠ .space → EndsInLine t.text

/-- All tokens are tidy when the text is. -/
theorem lexFrom_tidy (words : List String) (offset : Nat) (cs : List Char) :
    ∀ t ∈ (lexFrom false words offset cs).1, t.Tidy := by
  intro t ht
  obtain ⟨word, c, ds, lexeme, h, hkind, htext⟩ := exists_cutToken_of_mem_lexFrom ht
  refine ⟨lexFrom_spelled words offset cs t ht, fun hspace => ?_, fun hdash => ?_, fun hne => ?_⟩
  · rw [htext]
    exact isSpace_of_mem_taken h (hkind ▸ hspace)
  · -- The first character of the token is the first of the text.
    obtain ⟨htiles, hne⟩ := cutToken_tiles h
    rw [htext] at hdash
    have hhead : (lexeme.cut.taken ++ lexeme.cut.rest).head? = lexeme.cut.taken.head? :=
      List.head?_append_of_ne_nil _ hne
    rw [htiles, hdash, List.head?_cons, Option.some.injEq] at hhead
    rw [hhead] at h
    exact hkind.trans (kind_of_dash h)
  · rw [EndsInLine, htext]
    exact getLast?_cutToken h (hkind ▸ hne)

/-- The tokens of a text are tidy. -/
theorem lex_tidy (css : String) : ∀ t ∈ (lex false css).1, t.Tidy :=
  lexFrom_tidy [] 0 css.toList

end Stylesheet
