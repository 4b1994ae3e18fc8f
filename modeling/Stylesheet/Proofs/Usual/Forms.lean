import Mathlib.Data.List.Basic
import Mathlib.Tactic.SplitIfs
import Stylesheet.Print.Style
import Stylesheet.Proofs.Text.Cut
import Stylesheet.Proofs.Token.Spelling
import Stylesheet.Text.Blank

/-!
# Words, and cutting a text into known tokens

The plainest texts that a stylesheet can hold: a word is made of ASCII letters and digits, and a
phrase is words with single blanks between them. Such a text has no character that means anything
to the grammar, so it is read back wherever it is printed.

* `Text.words` takes a phrase apart (`Text.IsPhrase.exists_words`).
* `Text.IsPhrase.blank_append`: with a blank in front, a phrase is its words, each behind a blank.

A form is a token without its place. A list of forms that fit (`Form.Fit`), each in front of the
text of those behind it, is what the lexer makes of their text (`lex_join`): a word has to be
followed by something that ends it, white space by something else.

The forms here are those of a stylesheet in the usual style, with one lemma for each on what may
follow it.
-/

namespace Stylesheet.Text

/-- A text of ASCII letters and digits, and not an empty one. -/
def IsWord (s : String) : Prop :=
  s ≠ "" ∧ ∀ c ∈ s.toList, c.isAlphanum = true

instance (s : String) : Decidable (IsWord s) :=
  decidable_of_iff (s ≠ "" ∧ s.toList.all Char.isAlphanum = true) (by rw [List.all_eq_true]; rfl)

/-- One word or more, with one blank between each two of them. -/
def IsPhrase (s : String) : Prop :=
  ∃ ws : List String, ws ≠ [] ∧ (∀ w ∈ ws, IsWord w) ∧ s = " ".intercalate ws

/-- The words of a phrase; an empty text has none. -/
def words (s : String) : List String :=
  if s = "" then [] else (pieces ' ' s.toList).map String.ofList

/-- Words, each behind a blank. -/
def behindBlanks (ws : List String) : String :=
  String.join (ws.map (" " ++ ·))

@[simp] theorem behindBlanks_nil : behindBlanks [] = "" := rfl

theorem behindBlanks_cons (w : String) (ws : List String) :
    behindBlanks (w :: ws) = " " ++ w ++ behindBlanks ws := by
  simp [behindBlanks]

theorem behindBlanks_append (vs ws : List String) :
    behindBlanks (vs ++ ws) = behindBlanks vs ++ behindBlanks ws := by
  simp [behindBlanks]

/-! ### Characters -/

theorem ne_of_isAlphanum {c d : Char} (hc : c.isAlphanum = true) (hd : d.isAlphanum = false) :
    c ≠ d := by
  rintro rfl
  rw [hc] at hd
  cases hd

theorem beq_of_isAlphanum {c d : Char} (hc : c.isAlphanum = true) (hd : d.isAlphanum = false) :
    (c == d) = false :=
  beq_eq_false_iff_ne.mpr (ne_of_isAlphanum hc hd)

/-- The letters and digits of ASCII are between `0` and `z`. -/
theorem toNat_of_isAlphanum {c : Char} (hc : c.isAlphanum = true) :
    48 ≤ c.toNat ∧ c.toNat ≤ 122 := by
  delta Char.isAlphanum Char.isAlpha Char.isUpper Char.isLower Char.isDigit at hc
  simp only [Bool.or_eq_true, Bool.and_eq_true, decide_eq_true_eq, ge_iff_le,
    UInt32.le_iff_toNat_le] at hc
  change ((65 ≤ c.toNat ∧ c.toNat ≤ 90) ∨ (97 ≤ c.toNat ∧ c.toNat ≤ 122)) ∨
    (48 ≤ c.toNat ∧ c.toNat ≤ 57) at hc
  omega

/-- No letter and no digit is blank. -/
theorem isBlank_of_isAlphanum {c : Char} (hc : c.isAlphanum = true) : isBlank c = false := by
  have hrange := toNat_of_isAlphanum hc
  simp only [isBlank, Bool.or_eq_false_iff, Bool.and_eq_false_iff, decide_eq_false_iff_not,
    beq_eq_false_iff_ne]
  omega

theorem isSpace_of_isAlphanum {c : Char} (hc : c.isAlphanum = true) : isSpace c = false := by
  have hblank := isBlank_of_isAlphanum hc
  cases hspace : isSpace c with
  | false => rfl
  | true =>
    rw [isBlank_of_isSpace hspace] at hblank
    cases hblank

theorem IsWord.exists_cons {s : String} (h : IsWord s) :
    ∃ c cs, s.toList = c :: cs ∧ c.isAlphanum = true ∧ ∀ d ∈ cs, d.isAlphanum = true := by
  obtain ⟨hne, hall⟩ := h
  cases hs : s.toList with
  | nil => exact absurd (String.toList_inj.mp hs) hne
  | cons c cs =>
    rw [hs, List.forall_mem_cons] at hall
    exact ⟨c, cs, rfl, hall⟩

theorem IsWord.ascii {s : String} (h : IsWord s) : ∀ c ∈ s.toList, c.toNat < 0x80 :=
  fun c hc => Nat.lt_of_le_of_lt (toNat_of_isAlphanum (h.2 c hc)).2 (by decide)

theorem IsWord.not_mem {s : String} (h : IsWord s) {d : Char} (hd : d.isAlphanum = false) :
    d ∉ s.toList :=
  fun hmem => ne_of_isAlphanum (h.2 d hmem) hd rfl

/-! ### Taking a phrase apart -/

theorem intercalate_blank (w : String) (ws : List String) :
    " ".intercalate (w :: ws) = w ++ behindBlanks ws := by
  induction ws generalizing w with
  | nil => simp
  | cons v ws ih =>
    rw [behindBlanks_cons, String.append_assoc, ← ih v, ← String.toList_inj]
    simp [String.toList_intercalate]

theorem pieces_phrase (w : String) {ws : List String} (hws : ∀ v ∈ w :: ws, IsWord v) :
    pieces ' ' (w ++ behindBlanks ws).toList = (w :: ws).map String.toList := by
  rw [← intercalate_blank, String.toList_intercalate]
  exact pieces_intercalate (List.cons_ne_nil _ _)
    (List.forall_mem_map.mpr fun v hv => (hws v hv).not_mem (by decide))

/-- A phrase is its words, with single blanks between them. -/
theorem IsPhrase.exists_words {s : String} (h : IsPhrase s) :
    ∃ w ws, words s = w :: ws ∧ (∀ v ∈ w :: ws, IsWord v) ∧ s = w ++ behindBlanks ws := by
  obtain ⟨_ | ⟨w, ws⟩, hne, hws, rfl⟩ := h
  · exact absurd rfl hne
  · refine ⟨w, ws, ?_, hws, intercalate_blank w ws⟩
    have hnonempty : w ++ behindBlanks ws ≠ "" := by
      rw [Ne, String.append_eq_empty_iff]
      exact fun hempty => (hws w List.mem_cons_self).1 hempty.1
    rw [intercalate_blank, words, if_neg hnonempty, pieces_phrase w hws, List.map_map]
    simp [Function.comp_def]

theorem IsPhrase.blank_append {s : String} (h : IsPhrase s) :
    " " ++ s = behindBlanks (words s) := by
  obtain ⟨w, ws, hwords, -, hs⟩ := h.exists_words
  rw [hwords, behindBlanks_cons, hs, String.append_assoc]

theorem IsPhrase.ne_empty {s : String} (h : IsPhrase s) : s ≠ "" := by
  obtain ⟨w, ws, -, hws, rfl⟩ := h.exists_words
  rw [Ne, String.append_eq_empty_iff]
  exact fun hempty => (hws w List.mem_cons_self).1 hempty.1

theorem mem_behindBlanks {ws : List String} (hws : ∀ w ∈ ws, IsWord w) {c : Char}
    (hc : c ∈ (behindBlanks ws).toList) : c = ' ' ∨ c.isAlphanum = true := by
  induction ws with
  | nil => cases hc
  | cons w ws ih =>
    rw [List.forall_mem_cons] at hws
    rw [behindBlanks_cons, String.toList_append, String.toList_append, List.mem_append,
      List.mem_append] at hc
    rcases hc with (hc | hc) | hc
    · exact Or.inl (List.mem_singleton.mp hc)
    · exact Or.inr (hws.1.2 c hc)
    · exact ih hws.2 hc

/-- The characters of a phrase. -/
theorem IsPhrase.mem {s : String} (h : IsPhrase s) {c : Char} (hc : c ∈ s.toList) :
    c = ' ' ∨ c.isAlphanum = true := by
  obtain ⟨w, ws, -, hws, rfl⟩ := h.exists_words
  rw [List.forall_mem_cons] at hws
  rw [String.toList_append, List.mem_append] at hc
  rcases hc with hc | hc
  · exact Or.inr (hws.1.2 c hc)
  · exact mem_behindBlanks hws.2 hc

end Stylesheet.Text

namespace Stylesheet

open Text

/-- A token without its place. -/
structure Form where
  kind : TokenKind
  text : String
deriving Repr, DecidableEq

/-- The token without its place. -/
def Token.form (t : Token) : Form :=
  ⟨t.kind, t.text⟩

namespace Form

/-- The text of several forms. -/
def join (fs : List Form) : String :=
  String.join (fs.map Form.text)

@[simp] theorem join_nil : join [] = "" := rfl

@[simp] theorem join_cons (f : Form) (fs : List Form) : join (f :: fs) = f.text ++ join fs := by
  simp [join]

@[simp] theorem join_append (fs gs : List Form) : join (fs ++ gs) = join fs ++ join gs := by
  simp [join]

theorem join_map_form (ts : List Token) : join (ts.map Token.form) = Token.join ts := by
  induction ts with
  | nil => rfl
  | cons t ts ih => rw [List.map_cons, join_cons, ih, Token.join_cons]; rfl

/-! ### Forms that fit -/

/-- The form is taken off the front of its text with `rest` behind it, whatever words were read. -/
def Fits (f : Form) (rest : List Char) : Prop :=
  ∃ c cs, f.text.toList = c :: cs ∧
    ∀ word, cutToken false word c (cs ++ rest) = .ok ⟨f.kind, ⟨c :: cs, rest⟩⟩

/-- Every form is taken off the front of its text and those behind it. -/
def Fit : List Form → Prop
  | [] => True
  | f :: fs => f.Fits (join fs).toList ∧ Fit fs

/-- Forms that fit when `rest` follows them. -/
def FitBefore (rest : List Char) : List Form → Prop
  | [] => True
  | f :: fs => f.Fits ((join fs).toList ++ rest) ∧ FitBefore rest fs

theorem Fit.fitBefore {fs : List Form} (h : Fit fs) : FitBefore [] fs := by
  induction fs with
  | nil => trivial
  | cons f fs ih => exact ⟨by rw [List.append_nil]; exact h.1, ih h.2⟩

/-- Forms that fit in front of others that fit. -/
theorem fitBefore_append {rest : List Char} {fs gs : List Form}
    (hfs : FitBefore ((join gs).toList ++ rest) fs) (hgs : FitBefore rest gs) :
    FitBefore rest (fs ++ gs) := by
  induction fs with
  | nil => exact hgs
  | cons f fs ih =>
    refine ⟨?_, ih hfs.2⟩
    rw [List.append_eq, join_append, String.toList_append, List.append_assoc]
    exact hfs.1

/-- Forms that fit are cut off, and the text behind them is cut on. -/
theorem lexFrom_join_append {rest : List Char} {fs : List Form} (h : FitBefore rest fs)
    (words : List String) (offset : Nat) :
    ∃ ts words' offset', ts.map Token.form = fs ∧
      lexFrom false words offset ((join fs).toList ++ rest) =
        (ts ++ (lexFrom false words' offset' rest).1, (lexFrom false words' offset' rest).2) := by
  induction fs generalizing words offset with
  | nil => exact ⟨[], words, offset, rfl, rfl⟩
  | cons f fs ih =>
    obtain ⟨⟨c, cs, htext, hcut⟩, hfit⟩ := h
    have hchars : (join (f :: fs)).toList ++ rest = c :: (cs ++ ((join fs).toList ++ rest)) := by
      rw [join_cons, String.toList_append, htext, List.cons_append, List.cons_append,
        List.append_assoc]
    obtain ⟨ts, words', offset', hforms, hlex⟩ :=
      ih hfit (wordsAfter words c ⟨f.kind, ⟨c :: cs, _⟩⟩) (offset + bytes (c :: cs))
    refine ⟨⟨f.kind, String.ofList (c :: cs), offset⟩ :: ts, words', offset', ?_, ?_⟩
    · rw [List.map_cons, hforms, Token.form, ← htext, String.ofList_toList]
    · rw [hchars, lexFrom_of_ok (hcut _), hlex]
      rfl

theorem lexFrom_join {fs : List Form} (h : Fit fs) (words : List String) (offset : Nat) :
    (lexFrom false words offset (join fs).toList).1.map Token.form = fs ∧
      (lexFrom false words offset (join fs).toList).2 = none := by
  obtain ⟨ts, words', offset', hforms, hlex⟩ := lexFrom_join_append h.fitBefore words offset
  rw [lexFrom, List.append_nil, List.append_nil] at hlex
  rw [hlex]
  exact ⟨hforms, rfl⟩

/-- Forms that fit are cut out of their text again. -/
theorem lex_join {fs : List Form} (h : Fit fs) :
    (lex false (join fs)).1.map Token.form = fs ∧ (lex false (join fs)).2 = none :=
  lexFrom_join h [] 0

/-! ### White space and punctuation -/

/-- The text of the forms is empty or starts with a character that passes the test. -/
def StartsWith (p : Char → Bool) (fs : List Form) : Prop :=
  ∀ c ∈ (join fs).toList.head?, p c = true

theorem StartsWith.nil {p : Char → Bool} : StartsWith p [] := by
  intro c hc
  cases hc

theorem StartsWith.cons {p : Char → Bool} {f : Form} (fs : List Form) (c : Char) (cs : List Char)
    (htext : f.text.toList = c :: cs) (hc : p c = true) : StartsWith p (f :: fs) := by
  intro d hd
  rw [join_cons, String.toList_append, htext] at hd
  cases hd
  exact hc

theorem StartsWith.mono {p q : Char → Bool} {fs : List Form} (h : StartsWith p fs)
    (hpq : ∀ c, p c = true → q c = true) : StartsWith q fs :=
  fun c hc => hpq c (h c hc)

theorem takeWhile_of_head {α : Type} {p : α → Bool} {cs rest : List α}
    (hcs : ∀ c ∈ cs, p c = true) (hrest : ∀ c ∈ rest.head?, p c = false) :
    (cs ++ rest).takeWhile p = cs := by
  rw [List.takeWhile_append_of_pos hcs]
  cases rest with
  | nil => simp
  | cons c rest => rw [List.takeWhile_cons_of_neg (by simp [hrest c rfl]), List.append_nil]

theorem dropWhile_of_head {α : Type} {p : α → Bool} {cs rest : List α}
    (hcs : ∀ c ∈ cs, p c = true) (hrest : ∀ c ∈ rest.head?, p c = false) :
    (cs ++ rest).dropWhile p = rest := by
  rw [List.dropWhile_append_of_pos hcs]
  cases rest with
  | nil => rfl
  | cons c rest => rw [List.dropWhile_cons_of_neg (by simp [hrest c rfl])]

theorem cutWhile_of_head {p : Char → Bool} (c : Char) {cs rest : List Char}
    (hcs : ∀ c ∈ cs, p c = true) (hrest : ∀ c ∈ rest.head?, p c = false) :
    cutWhile p c (cs ++ rest) = ⟨c :: cs, rest⟩ := by
  rw [cutWhile, takeWhile_of_head hcs hrest, dropWhile_of_head hcs hrest]

/-- White space ends at another character. -/
theorem fits_space {s : String} (hne : s ≠ "") (hs : ∀ c ∈ s.toList, isSpace c = true)
    {rest : List Char} (hrest : ∀ c ∈ rest.head?, (!isSpace c) = true) :
    Fits ⟨.space, s⟩ rest := by
  cases htext : s.toList with
  | nil => exact absurd (String.toList_inj.mp htext) hne
  | cons c cs =>
    rw [htext, List.forall_mem_cons] at hs
    refine ⟨c, cs, htext, fun word => ?_⟩
    rw [cutToken_of_isSpace hs.1, cutWhile_of_head c hs.2 fun d hd => by simpa using hrest d hd]

/-- One blank. -/
def blank : Form := ⟨.space, " "⟩

/-- A line break with the usual indentation. -/
def lineBreak (depth : Nat) : Form :=
  ⟨.space, "\n" ++ String.join (List.replicate depth Trait.indent.usual)⟩

def colon : Form := ⟨.colon, ":"⟩

def semicolon : Form := ⟨.semicolon, ";"⟩

def openCurly : Form := ⟨.openCurly, "\x7b"⟩

def closeCurly : Form := ⟨.closeCurly, "\x7d"⟩

theorem fits_blank {fs : List Form} (hfs : StartsWith (fun c => !isSpace c) fs) :
    blank.Fits (join fs).toList :=
  fits_space (by decide) (List.all_eq_true.mp rfl) hfs

theorem toList_lineBreak (depth : Nat) : ∃ cs, (lineBreak depth).text.toList = '\n' :: cs ∧
    ∀ c ∈ cs, isSpace c = true := by
  refine ⟨(String.join (List.replicate depth Trait.indent.usual)).toList, by simp [lineBreak], ?_⟩
  induction depth with
  | zero =>
    intro c hc
    cases hc
  | succ depth ih =>
    intro c hc
    rw [List.replicate_succ, String.join_cons, String.toList_append, List.mem_append] at hc
    rcases hc with hc | hc
    · exact List.all_eq_true.mp (rfl : Trait.indent.usual.toList.all isSpace = true) c hc
    · exact ih c hc

theorem fits_lineBreak (depth : Nat) {fs : List Form}
    (hfs : StartsWith (fun c => !isSpace c) fs) : (lineBreak depth).Fits (join fs).toList := by
  obtain ⟨cs, htext, hcs⟩ := toList_lineBreak depth
  refine fits_space ?_ ?_ hfs
  · rw [← String.toList_inj.ne]
    change (lineBreak depth).text.toList ≠ _
    rw [htext]
    exact List.cons_ne_nil _ _
  · change ∀ c ∈ (lineBreak depth).text.toList, isSpace c = true
    rw [htext, List.forall_mem_cons]
    exact ⟨rfl, hcs⟩

theorem fits_colon (rest : List Char) : colon.Fits rest := ⟨':', [], rfl, fun _ => rfl⟩

theorem fits_semicolon (rest : List Char) : semicolon.Fits rest := ⟨';', [], rfl, fun _ => rfl⟩

theorem fits_openCurly (rest : List Char) : openCurly.Fits rest := ⟨'{', [], rfl, fun _ => rfl⟩

theorem fits_closeCurly (rest : List Char) : closeCurly.Fits rest := ⟨'}', [], rfl, fun _ => rfl⟩

/-! ### Words -/

/-- A word. -/
def word (w : String) : Form := ⟨.word, w⟩

/-- The words that a stylesheet in the usual style has: plain ones, and the mark of importance. -/
def IsSpelled (w : String) : Prop :=
  IsWord w ∨ w = "!important"

theorem IsSpelled.exists_cons {w : String} (h : IsSpelled w) :
    ∃ c cs, w.toList = c :: cs ∧ (c.isAlphanum = true ∨ c = '!') ∧
      ∀ d ∈ cs, d.isAlphanum = true := by
  rcases h with h | rfl
  · obtain ⟨c, cs, htext, hc, hcs⟩ := h.exists_cons
    exact ⟨c, cs, htext, Or.inl hc, hcs⟩
  · exact ⟨'!', "important".toList, rfl, Or.inr rfl, List.all_eq_true.mp (by decide)⟩

theorem endsWord_of_isAlphanum {c : Char} (hc : c.isAlphanum = true) : endsWord c = false := by
  simp (disch := decide) only [endsWord, isSpace_of_isAlphanum hc, beq_of_isAlphanum hc,
    Bool.or_false]

theorem cutWord_of_endsWord {rest : List Char} (hrest : ∀ c ∈ rest.head?, endsWord c = true) :
    cutWord rest = ⟨[], rest⟩ := by
  cases rest with
  | nil => rfl
  | cons c rest => rw [cutWord, if_pos (by rw [hrest c rfl]; rfl)]

theorem cutWord_of_head {cs rest : List Char} (hcs : ∀ c ∈ cs, c.isAlphanum = true)
    (hrest : cutWord rest = ⟨[], rest⟩) : cutWord (cs ++ rest) = ⟨cs, rest⟩ := by
  induction cs with
  | nil => exact hrest
  | cons c cs ih =>
    rw [List.forall_mem_cons] at hcs
    have hslash : (c == '/') = false := beq_of_isAlphanum hcs.1 (by decide)
    rw [List.cons_append, cutWord, endsWord_of_isAlphanum hcs.1, hslash, ih hcs.2]
    rfl

/-- The first character of a word is not taken for anything else. -/
theorem cutToken_of_word {c : Char} (hc : c.isAlphanum = true ∨ c = '!') (word : String)
    (cs : List Char) :
    cutToken false word c cs = .ok ⟨.word, ⟨c :: (cutWord cs).taken, (cutWord cs).rest⟩⟩ := by
  rcases hc with hc | rfl
  · have hpunctuation : punctuation? c = none := by
      unfold punctuation?
      split <;> first | rfl | exact absurd hc (by decide)
    simp (disch := decide) only [cutToken, hpunctuation, isSpace_of_isAlphanum hc,
      beq_of_isAlphanum hc, Bool.false_eq_true, ↓reduceIte, Bool.or_false, Bool.false_and]
  · rfl

/-- A word ends where nothing more can be taken for one. -/
theorem fits_of_word {w : String} {c : Char} {cs rest : List Char} (htext : w.toList = c :: cs)
    (hc : c.isAlphanum = true ∨ c = '!') (hcs : ∀ d ∈ cs, d.isAlphanum = true)
    (hrest : cutWord rest = ⟨[], rest⟩) : (word w).Fits rest := by
  refine ⟨c, cs, htext, fun w => ?_⟩
  rw [cutToken_of_word hc, cutWord_of_head hcs hrest]
  rfl

/-- A word ends at a character that ends words. -/
theorem fits_word {w : String} (hw : IsSpelled w) {fs : List Form} (hfs : StartsWith endsWord fs) :
    (word w).Fits (join fs).toList := by
  obtain ⟨c, cs, htext, hc, hcs⟩ := hw.exists_cons
  exact fits_of_word htext hc hcs (cutWord_of_endsWord hfs)

/-- The name of an at-rule. -/
def atWord (name : String) : Form := ⟨.atWord, "@" ++ name⟩

theorem endsAtWord_of_isAlphanum {c : Char} (hc : c.isAlphanum = true) : endsAtWord c = false := by
  simp (disch := decide) only [endsAtWord, isSpace_of_isAlphanum hc, beq_of_isAlphanum hc,
    Bool.or_false]

theorem fits_atWord {name : String} (hname : IsWord name) {fs : List Form}
    (hfs : StartsWith isSpace fs) : (atWord name).Fits (join fs).toList := by
  refine ⟨'@', name.toList, by simp [atWord], fun w => ?_⟩
  have hcut : cutWhile (fun d => !endsAtWord d) '@' (name.toList ++ (join fs).toList) =
      ⟨'@' :: name.toList, (join fs).toList⟩ := by
    refine cutWhile_of_head '@' (fun c hc => ?_) fun c hc => ?_
    · rw [endsAtWord_of_isAlphanum (hname.2 c hc)]
      rfl
    · simp [endsAtWord, hfs c hc]
  rw [← hcut]
  rfl

/-! ### Comments -/

/-- A comment with its usual blanks. -/
def comment (text : String) : Form := ⟨.comment, "/* " ++ text ++ " */"⟩

theorem splitAt?_close (front : List Char) (hfront : '*' ∉ front) (rest : List Char) :
    splitAt? ['*', '/'] (front ++ '*' :: '/' :: rest) = some (front, rest) := by
  induction front with
  | nil => rfl
  | cons c front ih =>
    rw [List.mem_cons, not_or] at hfront
    have hnone : after? ['*', '/'] (c :: (front ++ '*' :: '/' :: rest)) = none := by
      rw [after?, if_neg (by simpa using hfront.1)]
    rw [List.cons_append, splitAt?, hnone, ih hfront.2]
    rfl

theorem fits_comment {text : String} (htext : '*' ∉ text.toList) (rest : List Char) :
    (comment text).Fits rest := by
  have hchars : (comment text).text.toList =
      '/' :: '*' :: ((' ' :: text.toList ++ [' ']) ++ ['*', '/']) := by
    simp [comment]
  have hsplit := splitAt?_close (' ' :: text.toList ++ [' ']) (by simp [htext]) rest
  refine ⟨'/', _, hchars, fun w => ?_⟩
  have hcut : cutToken false w '/' ('*' :: ((' ' :: text.toList ++ [' ']) ++ ['*', '/']) ++ rest) =
      cutComment false ((' ' :: text.toList ++ [' ']) ++ '*' :: '/' :: rest) := by
    simp [cutToken, punctuation?, isSpace]
  rw [hcut, cutComment, hsplit]
  rfl

end Form

end Stylesheet
