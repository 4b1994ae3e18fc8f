import Mathlib.Data.List.Basic
import Stylesheet.Proofs.Token.Spelling
import Stylesheet.Token.Decoded

/-!
# Quoted texts

A quote ends a string when the backslashes in front of it are even in number. The lexer counts them
forwards, a character at a time; told from the text alone, it stops at the first quote that is not
escaped (`cutClosed_eq_some_iff`), where `isEscaped` counts them backwards from the quote.

A text that is written in quotes is one string, and says the text (`tokenize_quote`): what `quote`
puts between the quotes holds escaped quotes only and ends in no half escape
(`closedBy_escapeQuote`), and reading the escapes undoes writing them (`unescape_escapeQuote`).
-/

namespace Stylesheet

open Text

/-! ### Escaped places -/

/-- Whether what stands behind a text is escaped: the backslashes at its end are odd in number. -/
def isEscaped (front : List Char) : Bool :=
  (front.reverse.takeWhile (· == '\\')).length % 2 == 1

@[simp] theorem isEscaped_nil : isEscaped [] = false := rfl

/-- Only a backslash escapes, and only when it is not escaped itself. -/
theorem isEscaped_concat (front : List Char) (c : Char) :
    isEscaped (front ++ [c]) = (c == '\\' && !isEscaped front) := by
  simp only [isEscaped, List.reverse_append, List.reverse_cons, List.reverse_nil, List.nil_append,
    List.cons_append, List.takeWhile_cons]
  cases hc : c == '\\' with
  | false => rfl
  | true =>
    simp only [↓reduceIte, List.length_cons, Bool.true_and]
    rw [Bool.eq_iff_iff]
    simp only [beq_iff_eq, Bool.not_eq_true', beq_eq_false_iff_ne]
    omega

/-- Behind `read`, the text `body` is what a `close` closes: it is not escaped itself, and each one
in `body` is. -/
structure ClosedBy (close : Char) (read body : List Char) : Prop where
  closes : isEscaped (read ++ body) = false
  escaped : ∀ front back, body = front ++ close :: back → isEscaped (read ++ front) = true

theorem closedBy_nil {close : Char} {read : List Char} :
    ClosedBy close read [] ↔ isEscaped read = false := by
  refine ⟨fun h => ?_, fun h => ⟨?_, fun front back hbody => ?_⟩⟩
  · rw [← List.append_nil read]
    exact h.closes
  · rwa [List.append_nil]
  · cases front <;> cases hbody

/-- The closing character may stand within only when it is escaped. -/
theorem closedBy_cons {close c : Char} {read body : List Char} :
    ClosedBy close read (c :: body) ↔
      (c = close → isEscaped read = true) ∧ ClosedBy close (read ++ [c]) body := by
  refine ⟨fun h => ⟨?_, ?_, fun front back hbody => ?_⟩, fun ⟨hc, h⟩ => ⟨?_, ?_⟩⟩
  · rintro rfl
    have hread := h.escaped [] body rfl
    rwa [List.append_nil] at hread
  · rw [List.append_assoc]
    exact h.closes
  · rw [List.append_assoc]
    exact h.escaped (c :: front) back (by rw [hbody]; rfl)
  · have hcloses := h.closes
    rwa [List.append_assoc] at hcloses
  -- A quote inside is the first character, or it stands in the rest.
  · rintro (_ | ⟨d, front⟩) back hbody
    · rw [List.append_nil]
      exact hc (List.cons.inj hbody).1
    · obtain ⟨rfl, htail⟩ := List.cons.inj hbody
      have hfront := h.escaped front back htail
      rwa [List.append_assoc] at hfront

/-- The lexer reads up to the first `close` that is not escaped. All that it keeps of the text
`read` in front is whether its end escapes. -/
theorem cutClosed_eq_some_iff {close : Char} {read cs : List Char} {cut : Cut} :
    cutClosed close (isEscaped read) cs = some cut ↔
      ∃ body, ClosedBy close read body ∧ cs = body ++ close :: cut.rest ∧
        cut.taken = body ++ [close] := by
  induction cs generalizing read cut with
  | nil => simp [cutClosed]
  | cons c cs ih =>
    rw [cutClosed, ← isEscaped_concat]
    split_ifs with hstop
    · simp only [Bool.and_eq_true, beq_iff_eq, Bool.not_eq_true'] at hstop
      obtain ⟨rfl, hread⟩ := hstop
      constructor
      · rintro ⟨⟩
        exact ⟨[], closedBy_nil.mpr hread, rfl, rfl⟩
      · rintro ⟨_ | ⟨d, body⟩, hclosed, hcs, htaken⟩
        · obtain ⟨-, hcs⟩ := List.cons.inj hcs
          rw [hcs, show [c] = cut.taken from htaken.symm]
        · -- A text that goes on has its first `close` escaped.
          obtain ⟨rfl, -⟩ := List.cons.inj hcs
          exact absurd ((closedBy_cons.mp hclosed).1 rfl) (by rw [hread]; simp)
    · rw [Option.map_eq_some_iff]
      have hescaped : c = close → isEscaped read = true := by
        rintro rfl
        simpa using hstop
      constructor
      · rintro ⟨next, hnext, rfl⟩
        obtain ⟨body, hclosed, hcs, htaken⟩ := ih.mp hnext
        exact ⟨c :: body, closedBy_cons.mpr ⟨hescaped, hclosed⟩, congrArg (c :: ·) hcs,
          congrArg (c :: ·) htaken⟩
      · rintro ⟨_ | ⟨d, body⟩, hclosed, hcs, htaken⟩
        · have hread := hescaped (List.cons.inj hcs).1
          rw [closedBy_nil.mp hclosed] at hread
          cases hread
        · obtain ⟨rfl, htail⟩ := List.cons.inj hcs
          refine ⟨⟨body ++ [close], cut.rest⟩,
            ih.mpr ⟨body, (closedBy_cons.mp hclosed).2, htail, rfl⟩, ?_⟩
          rw [← List.cons_append, ← htaken]

/-! ### Writing and reading escapes -/

/-- All quotes in an escaped text are escaped, and what stands behind it is not. -/
theorem closedBy_escapeQuote {q : Char} (hq : q ≠ '\\') {read : List Char}
    (hread : isEscaped read = false) (cs : List Char) : ClosedBy q read (escapeQuote q cs) := by
  -- What has been read is never left escaped, which is the invariant of the induction.
  induction cs generalizing read with
  | nil => exact closedBy_nil.mpr hread
  | cons c cs ih =>
    rw [escapeQuote]
    split_ifs with hc
    · have hopened : isEscaped (read ++ ['\\']) = true := by
        rw [isEscaped_concat, hread]
        rfl
      refine closedBy_cons.mpr ⟨fun h => absurd h.symm hq,
        closedBy_cons.mpr ⟨fun _ => hopened, ih ?_⟩⟩
      rw [isEscaped_concat, hopened]
      exact Bool.and_false _
    · simp only [Bool.or_eq_true, beq_iff_eq, not_or] at hc
      refine closedBy_cons.mpr ⟨fun h => absurd h hc.1, ih ?_⟩
      rw [isEscaped_concat, beq_eq_false_iff_ne.mpr hc.2]
      rfl

/-- A backslash in front of a character that starts no code and no line is taken off. -/
theorem unescape_backslash {c : Char} (hline : c ≠ '\n') (hcode : isHex c = false)
    (cs : List Char) : unescape ('\\' :: c :: cs) = c :: unescape cs := by
  simp [unescape, unescapeFrom, hline, hcode]

theorem unescape_cons {c : Char} (hc : c ≠ '\\') (cs : List Char) :
    unescape (c :: cs) = c :: unescape cs := by
  simp [unescape, unescapeFrom, hc]

/-- Resolving escapes undoes writing them. -/
theorem unescape_escapeQuote {q : Char} (hline : q ≠ '\n') (hcode : isHex q = false)
    (cs : List Char) : unescape (escapeQuote q cs) = cs := by
  induction cs with
  | nil => rfl
  | cons c cs ih =>
    rw [escapeQuote]
    split_ifs with hc
    · simp only [Bool.or_eq_true, beq_iff_eq] at hc
      rcases hc with rfl | rfl
      · rw [unescape_backslash hline hcode, ih]
      · rw [unescape_backslash (by decide) (by decide), ih]
    · simp only [Bool.or_eq_true, beq_iff_eq, not_or] at hc
      rw [unescape_cons hc.2, ih]

/-- The quotes are taken off and the escapes resolved. -/
theorem unquote_quote {q : Char} (hq : q = '"' ∨ q = '\'') (cs : List Char) :
    unquote (quote q cs) = cs := by
  have hquote : (q == '"' || q == '\'') = true := by
    rcases hq with rfl | rfl <;> rfl
  have hplain : q ≠ '\n' ∧ isHex q = false := by
    rcases hq with rfl | rfl <;> exact ⟨by decide, by decide⟩
  rw [quote, List.cons_append, unquote, if_pos hquote, List.getLast?_concat, beq_self_eq_true,
    if_pos rfl, List.dropLast_concat]
  exact unescape_escapeQuote hplain.1 hplain.2 cs

/-! ### Whole texts -/

/-- A text in quotes is a string up to the quote that was written last. -/
theorem cutToken_quote {q : Char} (hq : q = '"' ∨ q = '\'') (tolerant : Bool) (word : String)
    (cs : List Char) :
    cutToken tolerant word q (escapeQuote q cs ++ [q]) = .ok ⟨.string, ⟨quote q cs, []⟩⟩ := by
  have hne : q ≠ '\\' := by
    rcases hq with rfl | rfl <;> decide
  have hclosed : cutClosed q (isEscaped []) (escapeQuote q cs ++ [q]) =
      some ⟨escapeQuote q cs ++ [q], []⟩ :=
    cutClosed_eq_some_iff.mpr ⟨_, closedBy_escapeQuote hne isEscaped_nil cs, rfl, rfl⟩
  rw [isEscaped_nil] at hclosed
  have hstring : cutString tolerant q (escapeQuote q cs ++ [q]) =
      .ok ⟨.string, ⟨quote q cs, []⟩⟩ := by
    rw [cutString, hclosed]
    rfl
  rcases hq with rfl | rfl <;> exact hstring

/-- **Quoted texts are read back.** A text in quotes, with a backslash in front of each such quote
and each backslash, is one string token, which covers all of it and says the text. -/
theorem tokenize_quote {q : Char} (hq : q = '"' ∨ q = '\'') (tolerant : Bool) (text : String) :
    let css := String.ofList (quote q text.toList)
    tokenize tolerant css = .ok [⟨.string, css, 0⟩] ∧
      Token.decoded ⟨.string, css, 0⟩ = some (.string text) := by
  intro css
  have hcss : css.toList = q :: (escapeQuote q text.toList ++ [q]) := String.toList_ofList
  refine ⟨?_, ?_⟩
  · have hlex : lex tolerant css = ([⟨.string, css, 0⟩], none) := by
      rw [lex, hcss, lexFrom_of_ok (cutToken_quote hq tolerant _ _)]
      simp only [lexFrom]
      rfl
    rw [tokenize, hlex]
  · rw [Token.decoded]
    dsimp only
    rw [String.toList_ofList, unquote_quote hq, String.ofList_toList]

-- Runs of backslashes, digits of a code behind one of them, and a backslash at the end.
/-- A string with backslashes, a quote and a line break in it. -/
theorem tokenize_quote_backslashes :
    let css := r#""a\"\\41 \\\\\"'🙂\\""#
    tokenize false css = .ok [⟨.string, css, 0⟩] ∧
      Token.decoded ⟨.string, css, 0⟩ = some (.string r#"a"\41 \\"'🙂\"#) := by
  have hcss : String.ofList (quote '"' (String.toList r#"a"\41 \\"'🙂\"#)) =
      r#""a\"\\41 \\\\\"'🙂\\""# := by decide +kernel
  have h := tokenize_quote (Or.inl rfl : '"' = '"' ∨ '"' = '\'') false r#"a"\41 \\"'🙂\"#
  rwa [hcss] at h

end Stylesheet
