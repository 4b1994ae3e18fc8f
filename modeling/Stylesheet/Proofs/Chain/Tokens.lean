import Mathlib.Data.List.TakeWhile
import Stylesheet.Proofs.Usual.Forms

/-!
# Tokens in front of a line break

A text that is cut into tokens can be followed by more text. When that starts with a line break, no
token grows (`cutToken_append`), with the exception of white space at the end of the text: the line
break becomes a part of it. So the tokens in front of that white space stay the same
(`lexFrom_append`).
-/

namespace Stylesheet

open Text

/-- The text starts with a line break. -/
def StartsLine (more : List Char) : Prop :=
  ∃ c rest, more = c :: rest ∧ (c = '\n' ∨ c = '\r')

theorem StartsLine.endsWord {more : List Char} (h : StartsLine more) :
    ∀ c ∈ more.head?, endsWord c = true := by
  obtain ⟨c, rest, rfl, rfl | rfl⟩ := h <;> (intro d hd; cases hd; rfl)

theorem StartsLine.append {more : List Char} (h : StartsLine more) (behind : List Char) :
    StartsLine (more ++ behind) := by
  obtain ⟨c, rest, rfl, hc⟩ := h
  exact ⟨c, rest ++ behind, rfl, hc⟩

/-- The cut of a text that goes on. -/
def Cut.extend (cut : Cut) (more : List Char) : Cut :=
  ⟨cut.taken, cut.rest ++ more⟩

/-- The lexeme of a text that goes on. -/
def Lexeme.extend (lexeme : Lexeme) (more : List Char) : Lexeme :=
  ⟨lexeme.kind, lexeme.cut.extend more⟩

/-- The stack of words knows nothing of what follows. -/
theorem wordsAfter_extend (words : List String) (c : Char) (lexeme : Lexeme) (more : List Char) :
    wordsAfter words c (lexeme.extend more) = wordsAfter words c lexeme :=
  rfl

/-! ### One token -/

section

variable {more : List Char}

theorem takeWhile_append_of_stop {p : Char → Bool} (hmore : ∀ c ∈ more.head?, p c = false)
    (cs : List Char) : (cs ++ more).takeWhile p = cs.takeWhile p := by
  induction cs with
  | nil => simpa using @Form.takeWhile_of_head _ p [] _ (by simp) hmore
  | cons c cs ih => simp only [List.cons_append, List.takeWhile_cons, ih]

theorem dropWhile_append_of_stop {p : Char → Bool} (hmore : ∀ c ∈ more.head?, p c = false)
    (cs : List Char) : (cs ++ more).dropWhile p = cs.dropWhile p ++ more := by
  induction cs with
  | nil => simpa using @Form.dropWhile_of_head _ p [] _ (by simp) hmore
  | cons c cs ih =>
    simp only [List.cons_append, List.dropWhile_cons, ih]
    split <;> rfl

theorem cutWhile_append {p : Char → Bool} (hmore : ∀ c ∈ more.head?, p c = false) (c : Char)
    (cs : List Char) : cutWhile p c (cs ++ more) = (cutWhile p c cs).extend more := by
  rw [cutWhile, takeWhile_append_of_stop hmore, dropWhile_append_of_stop hmore]
  rfl

/-- White space does not grow when something else ends it. -/
theorem cutWhile_append_of_ne_nil {p : Char → Bool} {c : Char} {cs : List Char}
    (hrest : (cutWhile p c cs).rest ≠ []) (more : List Char) :
    cutWhile p c (cs ++ more) = (cutWhile p c cs).extend more := by
  have htake : (cs ++ more).takeWhile p = cs.takeWhile p := by
    rw [List.takeWhile_append, if_neg]
    intro hlen
    have hself := (List.takeWhile_prefix p (l := cs)).eq_of_length hlen
    exact hrest (List.dropWhile_eq_nil_iff.mpr (List.takeWhile_eq_self_iff.mp hself))
  have hdrop : (cs ++ more).dropWhile p = cs.dropWhile p ++ more := by
    rw [List.dropWhile_append, if_neg]
    rwa [List.isEmpty_iff]
  rw [cutWhile, htake, hdrop]
  rfl

theorem cutClosed_behind {close : Char} {escaped : Bool} {cs : List Char} {cut : Cut}
    (h : cutClosed close escaped cs = some cut) (more : List Char) :
    cutClosed close escaped (cs ++ more) = some (cut.extend more) := by
  induction cs generalizing escaped cut with
  | nil => cases h
  | cons c cs ih =>
    rw [cutClosed] at h
    rw [List.cons_append, cutClosed]
    split_ifs at h ⊢ with hclose
    · cases h
      rfl
    · obtain ⟨d, hd, rfl⟩ := Option.map_eq_some_iff.mp h
      rw [ih hd]
      rfl

theorem cutGroup_behind (hmore : StartsLine more) (cs : List Char) :
    cutGroup (cs ++ more) = (cutGroup cs).map (·.extend more) := by
  induction cs with
  | nil =>
    obtain ⟨c, rest, rfl, rfl | rfl⟩ := hmore <;> rfl
  | cons c cs ih =>
    rw [List.cons_append, cutGroup, cutGroup, ih]
    split_ifs
    · rfl
    · rfl
    · rw [Option.map_map, Option.map_map]
      rfl

theorem cutWord_behind (hmore : ∀ c ∈ more.head?, endsWord c = true) (cs : List Char) :
    cutWord (cs ++ more) = (cutWord cs).extend more := by
  induction cs with
  | nil =>
    cases more with
    | nil => rfl
    | cons c rest => simp [cutWord, hmore c rfl, Cut.extend]
  | cons c cs ih =>
    -- A slash is looked at together with the character behind it, which may be the first of what
    -- follows.
    have hhead : ((cs ++ more).head? == some '*') = (cs.head? == some '*') := by
      cases cs with
      | cons d ds => rfl
      | nil =>
        cases more with
        | nil => rfl
        | cons d ds =>
          have hd : d ≠ '*' := by
            rintro rfl
            exact absurd (hmore '*' rfl) (by decide)
          simpa using hd
    rw [List.cons_append, cutWord, cutWord, hhead, ih]
    split_ifs <;> rfl

/-- An escaped character does not depend on what follows, when that cannot belong to a character
code. -/
theorem cutEscaped_cons_append (hmore : ∀ c ∈ more.head?, isHex c = false ∧ c ≠ ' ') (c : Char)
    (cs : List Char) :
    cutEscaped (c :: cs ++ more) = (cutEscaped (c :: cs)).extend more := by
  have hhex : ∀ c ∈ more.head?, isHex c = false := fun c hc => (hmore c hc).1
  rw [List.cons_append, cutEscaped, cutEscaped]
  split_ifs
  · rfl
  · dsimp only
    rw [takeWhile_append_of_stop hhex, dropWhile_append_of_stop hhex]
    -- Behind the digits one blank belongs to the escape; what follows starts with none.
    cases cs.dropWhile isHex with
    | nil =>
      cases more with
      | nil => rfl
      | cons d rest =>
        have hblank := (hmore d rfl).2
        simp [Cut.extend, hblank]
    | cons d ds =>
      rw [List.cons_append]
      dsimp only
      split_ifs <;> rfl
  · rfl

theorem cutEscaped_behind (hmore : StartsLine more) (cs : List Char) :
    cutEscaped (cs ++ more) = (cutEscaped cs).extend more := by
  cases cs with
  | nil => obtain ⟨c, rest, rfl, rfl | rfl⟩ := hmore <;> rfl
  | cons c cs =>
    refine cutEscaped_cons_append ?_ c cs
    obtain ⟨d, rest, rfl, rfl | rfl⟩ := hmore <;> (rintro e ⟨⟩; decide)

theorem cutBackslashes_behind (hmore : StartsLine more) (odd : Bool) (cs : List Char) :
    cutBackslashes odd (cs ++ more) = (cutBackslashes odd cs).extend more := by
  induction cs generalizing odd with
  | nil =>
    obtain ⟨c, rest, rfl, rfl | rfl⟩ := hmore
    · cases odd <;> rfl
    · cases odd <;> rfl
  | cons c cs ih =>
    rw [List.cons_append, cutBackslashes, cutBackslashes]
    split_ifs
    · rw [ih]
      rfl
    · exact cutEscaped_behind hmore (c :: cs)
    · rfl

theorem splitAt?_close_behind {cs front rest : List Char}
    (h : splitAt? ['*', '/'] cs = some (front, rest)) (more : List Char) :
    splitAt? ['*', '/'] (cs ++ more) = some (front, rest ++ more) := by
  induction cs generalizing front with
  | nil => cases h
  | cons c cs ih =>
    cases cs with
    | nil =>
      -- The mark has two characters.
      have hnone : splitAt? ['*', '/'] [c] = none := by
        simp only [splitAt?, after?]
        split_ifs <;> rfl
      rw [hnone] at h
      cases h
    | cons d ds =>
      rw [splitAt?] at h
      rw [List.cons_append, splitAt?]
      have hafter : after? ['*', '/'] (c :: (d :: ds ++ more)) =
          (after? ['*', '/'] (c :: d :: ds)).map (· ++ more) := by
        simp only [List.cons_append, after?]
        split_ifs <;> rfl
      rw [hafter]
      cases hmark : after? ['*', '/'] (c :: d :: ds) with
      | some found =>
        rw [hmark] at h
        cases h
        rfl
      | none =>
        rw [hmark] at h
        obtain ⟨⟨f, r⟩, hr, hfront⟩ := Option.map_eq_some_iff.mp h
        cases hfront
        rw [Option.map_none]
        dsimp only
        rw [ih hr]
        rfl

theorem cutParen_behind (hmore : StartsLine more) {word : String} {cs : List Char}
    {lexeme : Lexeme} (h : cutParen false word cs = .ok lexeme) :
    cutParen false word (cs ++ more) = .ok (lexeme.extend more) := by
  simp only [cutParen, Bool.false_eq_true, ↓reduceIte] at h ⊢
  by_cases hverbatim :
      (word == "url" && !(cs.head?.any fun c => c == '"' || c == '\'' || isSpace c)) = true
  · -- The group is not empty, for it is closed.
    rw [if_pos hverbatim] at h
    cases hcut : cutClosed ')' false cs with
    | none => rw [hcut] at h; cases h
    | some cut =>
      rw [hcut] at h
      cases h
      have hne : cs ≠ [] := by
        rintro rfl
        cases hcut
      rw [List.head?_append_of_ne_nil cs hne, if_pos hverbatim, cutClosed_behind hcut]
      rfl
  · have hverbatim' : ¬(word == "url" &&
        !((cs ++ more).head?.any fun c => c == '"' || c == '\'' || isSpace c)) = true := by
      cases cs with
      | nil => obtain ⟨c, rest, rfl, rfl | rfl⟩ := hmore <;> simp [isSpace]
      | cons d ds => exact hverbatim
    rw [if_neg hverbatim] at h
    rw [if_neg hverbatim', cutGroup_behind hmore]
    cases hcut : cutGroup cs with
    | none =>
      rw [hcut] at h
      cases h
      rfl
    | some cut =>
      rw [hcut] at h
      cases h
      rfl

theorem cutString_behind {quote : Char} {cs : List Char} {lexeme : Lexeme}
    (h : cutString false quote cs = .ok lexeme) (more : List Char) :
    cutString false quote (cs ++ more) = .ok (lexeme.extend more) := by
  rw [cutString] at h ⊢
  cases hcut : cutClosed quote false cs with
  | none => rw [hcut] at h; cases h
  | some cut =>
    rw [hcut] at h
    cases h
    rw [cutClosed_behind hcut]
    rfl

theorem cutComment_behind {cs : List Char} {lexeme : Lexeme}
    (h : cutComment false cs = .ok lexeme) (more : List Char) :
    cutComment false (cs ++ more) = .ok (lexeme.extend more) := by
  rw [cutComment] at h ⊢
  cases hcut : splitAt? ['*', '/'] cs with
  | none => rw [hcut] at h; cases h
  | some parts =>
    rw [hcut] at h
    cases h
    rw [splitAt?_close_behind hcut]
    rfl

/-- A token does not grow when a line break follows the text, unless it is white space that ends
the text. -/
theorem cutToken_append (hmore : StartsLine more) {word : String} {c : Char} {cs : List Char}
    {lexeme : Lexeme} (h : cutToken false word c cs = .ok lexeme)
    (hspace : isSpace c = true → lexeme.cut.rest ≠ []) :
    cutToken false word c (cs ++ more) = .ok (lexeme.extend more) := by
  have hend : ∀ d ∈ more.head?, (!endsAtWord d) = false := by
    obtain ⟨c, rest, rfl, rfl | rfl⟩ := hmore <;> (intro d hd; cases hd; rfl)
  have hhead : ((cs ++ more).head? == some '*') = (cs.head? == some '*') := by
    cases cs with
    | nil => obtain ⟨c, rest, rfl, rfl | rfl⟩ := hmore <;> rfl
    | cons d ds => rfl
  unfold cutToken at h ⊢
  rw [hhead]
  cases hp : punctuation? c with
  | some kind =>
    rw [hp] at h
    cases h
    rfl
  | none =>
    rw [hp] at h
    dsimp only at h ⊢
    split_ifs at h ⊢ with hs hparen hquote hat hback hcomment
    · -- White space that something else ends.
      cases h
      rw [cutWhile_append_of_ne_nil (hspace hs)]
      rfl
    · exact cutParen_behind hmore h
    · exact cutString_behind h more
    · cases h
      rw [cutWhile_append hend]
      rfl
    · cases h
      rw [cutBackslashes_behind hmore]
      rfl
    · -- A comment has a second character.
      cases cs with
      | nil => simp at hcomment
      | cons d ds => exact cutComment_behind h more
    · cases h
      rw [cutWord_behind hmore.endsWord]
      rfl

end

/-! ### Whole texts -/

/-- A line break and a comment behind a text. -/
structure Trailer where
  lineEnd : String
  body : String
  isLine : StartsLine lineEnd.toList
  isSpace : ∀ c ∈ lineEnd.toList, isSpace c = true
  /-- The comment ends behind its body and not before. -/
  isBody : splitAt? ['*', '/'] (body.toList ++ ['*', '/']) = some (body.toList, [])

namespace Trailer

variable (r : Trailer)

/-- The comment. -/
def comment : String := "/*" ++ r.body ++ "*/"

/-- The line break and the comment. -/
def text : String := r.lineEnd ++ r.comment

theorem fits_comment (rest : List Char) : (Form.mk .comment r.comment).Fits rest := by
  have hchars : r.comment.toList = '/' :: '*' :: (r.body.toList ++ ['*', '/']) := by
    simp [comment]
  refine ⟨'/', _, hchars, fun w => ?_⟩
  have hcut : cutToken false w '/' ('*' :: (r.body.toList ++ ['*', '/']) ++ rest) =
      cutComment false (r.body.toList ++ ['*', '/'] ++ rest) := by
    simp [cutToken, punctuation?, Text.isSpace]
  rw [hcut, cutComment, splitAt?_close_behind r.isBody]
  rfl

theorem startsLine_text : StartsLine r.text.toList := by
  rw [text, String.toList_append]
  exact r.isLine.append _

/-- White space in front of the trailer becomes one token with its line break. -/
theorem lexFrom_text {cs : List Char} (hcs : ∀ c ∈ cs, Text.isSpace c = true)
    (words : List String) (offset : Nat) :
    ∃ gap cm, lexFrom false words offset (cs ++ r.text.toList) = ([gap, cm], none) ∧
      gap.kind = .space ∧ cm.kind = .comment ∧ cm.text = r.comment := by
  have hfit : Form.Fit [⟨.space, String.ofList cs ++ r.lineEnd⟩, ⟨.comment, r.comment⟩] := by
    refine ⟨Form.fits_space ?_ ?_ ?_, r.fits_comment _, trivial⟩
    · intro hempty
      obtain ⟨c, rest, hline, -⟩ := r.isLine
      have := congrArg String.toList (String.append_eq_empty_iff.mp hempty).2
      rw [hline] at this
      cases this
    · rw [String.toList_append, String.toList_ofList]
      exact fun c hc => (List.mem_append.mp hc).elim (hcs c) (r.isSpace c)
    · refine Form.StartsWith.cons [] '/' ('*' :: (r.body.toList ++ ['*', '/'])) ?_ rfl
      simp [comment]
  obtain ⟨hforms, hend⟩ := Form.lexFrom_join hfit words offset
  have hjoin : (Form.join [⟨.space, String.ofList cs ++ r.lineEnd⟩,
      ⟨.comment, r.comment⟩]).toList = cs ++ r.text.toList := by
    simp [text]
  rw [hjoin] at hforms hend
  rcases hlex : lexFrom false words offset (cs ++ r.text.toList) with ⟨tokens, unclosed⟩
  rw [hlex] at hforms hend
  -- Two forms are two tokens.
  obtain ⟨gap, rest, rfl, hgap, hrest⟩ := List.map_eq_cons_iff.mp hforms
  obtain ⟨cm, rest, rfl, hcm, hnil⟩ := List.map_eq_cons_iff.mp hrest
  cases List.map_eq_nil_iff.mp hnil
  refine ⟨gap, cm, ?_, congrArg Form.kind hgap, congrArg Form.kind hcm, congrArg Form.text hcm⟩
  dsimp only at hend
  rw [hend]

end Trailer

/-- The tokens of a text that a trailer follows are those of the text, up to white space at its end,
and two more. -/
theorem lexFrom_append (r : Trailer) (words : List String) (offset : Nat) (cs : List Char)
    (hend : (lexFrom false words offset cs).2 = none) :
    ∃ kept trail gap cm, (lexFrom false words offset cs).1 = kept ++ trail ∧
      (∀ t ∈ trail, t.kind = .space) ∧
      lexFrom false words offset (cs ++ r.text.toList) = (kept ++ [gap, cm], none) ∧
      gap.kind = .space ∧ cm.kind = .comment ∧ cm.text = r.comment := by
  fun_induction lexFrom false words offset cs with
  | case1 words offset =>
    obtain ⟨gap, cm, hlex, htokens⟩ := @Trailer.lexFrom_text r [] (by simp) words offset
    exact ⟨[], [], gap, cm, rfl, by simp, hlex, htokens⟩
  | case2 words offset c cs what h => cases hend
  | case3 words offset c cs lexeme h hlt token tokens stopped hrest ih =>
    rw [hrest] at ih
    dsimp only at ih hend ⊢
    by_cases hspace : isSpace c = true ∧ lexeme.cut.rest = []
    · -- White space that ends the text.
      obtain ⟨hc, hnil⟩ := hspace
      rw [hnil, lexFrom] at hrest
      cases hrest
      rw [cutToken_of_isSpace hc] at h
      cases h
      have hall : ∀ d ∈ c :: cs, isSpace d = true :=
        List.forall_mem_cons.mpr ⟨hc, List.dropWhile_eq_nil_iff.mp hnil⟩
      obtain ⟨gap, cm, hlex, htokens⟩ := r.lexFrom_text hall words offset
      refine ⟨[], [token], gap, cm, rfl, fun t ht => ?_, hlex, htokens⟩
      rw [List.mem_singleton.mp ht]
    · have hcut := cutToken_append r.startsLine_text h fun hc hnil => hspace ⟨hc, hnil⟩
      obtain ⟨kept, trail, gap, cm, rfl, htrail, hlex, hlast⟩ := ih hend
      refine ⟨token :: kept, trail, gap, cm, rfl, htrail, ?_, hlast⟩
      rw [List.cons_append, lexFrom_of_ok hcut, wordsAfter_extend]
      dsimp only [Lexeme.extend, Cut.extend]
      rw [hlex]
      rfl

end Stylesheet
