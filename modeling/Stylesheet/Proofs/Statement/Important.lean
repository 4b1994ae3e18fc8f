import Mathlib.Data.List.Chain
import Stylesheet.Proofs.Outline.Effect
import Stylesheet.Proofs.Text.Cut
import Stylesheet.Proofs.Text.Parts
import Stylesheet.Proofs.Token.Ends
import Stylesheet.Proofs.Usual.Statements

/-!
# The mark of importance

The mark at the end of a value may have white space and comments inside of it and behind it. It is
looked for from the end: tokens are taken off until the text that they make starts with an
exclamation mark. But the number of tokens that may be taken is counted from the word `important`,
not from the end. So behind a mark in two parts there must be less white space and fewer comments
than there are tokens in the value (`cutImportant_of_parts`), or the mark is not found.
-/

namespace Stylesheet

open Text Form

variable {t : Token} {ts value gaps trail : List Token} {bang word : Token}

/-! ### Collecting the mark -/

theorem startsWithBang_append {s : String} {c : Char} {cs : List Char} (hs : s.toList = c :: cs)
    (hc : isBlank c = false) (mark : String) : startsWithBang (s ++ mark) = (c == '!') := by
  rw [startsWithBang, String.toList_append, hs, List.cons_append, trimStart_eq_self]
  · rfl
  · rintro d ⟨⟩
    exact hc

theorem startsWithBang_blank {s : String} (hs : ∀ c ∈ s.toList, isBlank c = true) (mark : String) :
    startsWithBang (s ++ mark) = startsWithBang mark := by
  rw [startsWithBang, String.toList_append, trimStart_behindBlanks hs, startsWithBang]

/-- In front of a text without a mark, the token makes none. -/
def Token.Unmarked (t : Token) : Prop :=
  ∀ mark, startsWithBang mark = false → startsWithBang (t.text ++ mark) = false

theorem Token.unmarked_of_cons {c : Char} {cs : List Char} (ht : t.text.toList = c :: cs)
    (hc : isBlank c = false) (hbang : c ≠ '!') : t.Unmarked := by
  intro mark _
  rw [startsWithBang_append ht hc]
  exact beq_false_of_ne hbang

theorem Token.Tidy.unmarked_of_isGap (h : t.Tidy) (ht : t.isGap = true) : t.Unmarked := by
  rcases Token.isGap_iff.mp ht with hspace | hcomment
  · intro mark hmark
    rwa [startsWithBang_blank fun c hc => isBlank_of_isSpace (h.blank hspace c hc)]
  · have hspelled := h.spelled
    rw [Token.Spelled, hcomment] at hspelled
    obtain ⟨body, hbody⟩ := hspelled
    exact Token.unmarked_of_cons hbody (by decide) (by decide)

/-- Tokens without an exclamation mark are taken off, as long as there are kinds. -/
theorem collectMark_of_unmarked {as : List Token} (has : ∀ t ∈ as, t.Unmarked) {mark : String}
    (hmark : startsWithBang mark = false) (kinds : List TokenKind) (left : List Token) :
    ∃ mark', startsWithBang mark' = false ∧
      (kinds.length ≤ as.length → (collectMark mark kinds (as ++ left)).1 = mark') ∧
      (as.length ≤ kinds.length →
        collectMark mark kinds (as ++ left) = collectMark mark' (kinds.drop as.length) left) := by
  induction as generalizing mark kinds with
  | nil =>
    refine ⟨mark, hmark, fun hkinds => ?_, fun _ => rfl⟩
    rw [List.length_eq_zero_iff.mp (Nat.le_zero.mp hkinds), collectMark]
  | cons t as ih =>
    obtain ⟨ht, has⟩ := List.forall_mem_cons.mp has
    cases kinds with
    | nil => exact ⟨mark, hmark, fun _ => by rw [collectMark], fun hlength => by cases hlength⟩
    | cons kind kinds =>
      obtain ⟨mark', hmark', hfew, hmany⟩ := ih has (ht mark hmark) kinds
      -- As long as no exclamation mark has come, a token is taken for each kind that is left.
      have hstep : collectMark mark (kind :: kinds) (t :: as ++ left) =
          collectMark (t.text ++ mark) kinds (as ++ left) := by
        rw [List.cons_append, collectMark.eq_def]
        dsimp only
        rw [hmark, Bool.false_and, if_neg Bool.false_ne_true]
      rw [hstep]
      exact ⟨mark', hmark', fun hlength => hfew (Nat.le_of_succ_le_succ hlength),
        fun hlength => hmany (Nat.le_of_succ_le_succ hlength)⟩

/-- No kind of white space stands next to another one. -/
def Sparse (kinds : List TokenKind) : Prop :=
  kinds.IsChain fun a b => ¬ (a = .space ∧ b = .space)

theorem Sparse.reverse {kinds : List TokenKind} (h : Sparse kinds) : Sparse kinds.reverse := by
  rw [Sparse, List.isChain_reverse]
  exact h.imp fun a b hab hba => hab hba.symm

/-- Behind the exclamation mark no more than one token is taken off, and that is white space. -/
theorem collectMark_of_marked {mark : String} (hmark : startsWithBang mark = true)
    {kinds : List TokenKind} (hkinds : Sparse kinds) {b : Token}
    (hb : ∀ c ∈ b.text.toList, isBlank c = true) (left : List Token) :
    ∃ mark', startsWithBang mark' = true ∧
      (collectMark mark kinds (b :: left) = (mark', b :: left) ∨
        collectMark mark kinds (b :: left) = (mark', left)) := by
  have hstop : ∀ (kind : TokenKind) (kinds : List TokenKind) (mark : String) (left : List Token),
      startsWithBang mark = true → kind ≠ .space →
      collectMark mark (kind :: kinds) left = (mark, left) := by
    intro kind kinds mark left hmark hkind
    rw [collectMark.eq_def]
    dsimp only
    rw [hmark, bne_iff_ne.mpr hkind]
    rfl
  cases kinds with
  | nil => exact ⟨mark, hmark, .inl rfl⟩
  | cons kind kinds =>
    -- Once it has come, one space is still taken, and nothing behind it.
    by_cases hspace : kind = .space
    · subst hspace
      have hbmark : startsWithBang (b.text ++ mark) = true := by rwa [startsWithBang_blank hb]
      have hstep : collectMark mark (.space :: kinds) (b :: left) =
          collectMark (b.text ++ mark) kinds left := by
        rw [collectMark, hmark, if_neg (by decide)]
      refine ⟨_, hbmark, .inr ?_⟩
      rw [hstep]
      cases kinds with
      | nil => rw [collectMark]
      | cons next more =>
        exact hstop next more _ left hbmark fun hnext =>
          (List.isChain_cons_cons.mp hkinds).1 ⟨rfl, hnext⟩
    · exact ⟨mark, hmark, .inl (hstop kind kinds mark _ hmark hspace)⟩

/-! ### The mark at the end of a value -/

/-- Words, each with white space behind it. -/
structure SpacedWords (ts : List Token) : Prop where
  quiet : ∀ t ∈ ts, t.kind = .word ∨ t.kind = .space ∧ t.Tidy
  sparse : Sparse (ts.map Token.kind)
  ends : ∃ front b, ts = front ++ [b] ∧ b.kind = .space ∧ EndsWithWord front
  starts : ∃ first body, ts = first :: body ∧ first.kind = .word

theorem cutGaps_eq_of_word {front : List Token} (hword : word.kind = .word)
    (htrail : ∀ t ∈ trail, t.isGap = true) :
    cutGaps (front ++ word :: trail) = (front ++ [word], trail) := by
  have hcut := EndsWithWord.cutGaps_append ⟨front, word, rfl, hword⟩ trail htrail
  rwa [List.append_assoc, List.singleton_append] at hcut

theorem cutImportant_eq_of_word {front : List Token} (hword : word.kind = .word)
    (htrail : ∀ t ∈ trail, t.isGap = true) :
    cutImportant (front ++ word :: trail) =
      if lower word.text == "!important" then
        ((cutSpaces front).1, true,
          if (cutSpaces front).2 ++ word.text ++ Token.join trail == " !important" then none
          else some ((cutSpaces front).2 ++ word.text ++ Token.join trail))
      else if lower word.text == "important" then
        let collected := collectMark "" (((front ++ [word]).drop 1).reverse.map Token.kind)
          (front ++ word :: trail).reverse
        if startsWithBang collected.1 then (collected.2.reverse, true, some collected.1)
        else (front ++ word :: trail, false, none)
      else (front ++ word :: trail, false, none) :=
  cutImportant_eq_of_cutGaps (cutGaps_eq_of_word hword htrail)

/-- A mark in one token is always found. -/
theorem cutImportant_of_token (hvalue : SpacedWords value) (hword : word.kind = .word)
    (hmark : lower word.text = "!important") (htrail : ∀ t ∈ trail, t.isGap = true) :
    ∃ raw, cutImportant (value ++ word :: trail) = (value.dropLast, true, raw) := by
  obtain ⟨front, b, rfl, hb, hfront⟩ := hvalue.ends
  have hcut := @cutImportant_eq_of_word _ _ (front ++ [b]) hword htrail
  rw [hmark, if_pos (by decide), hfront.cutSpaces_concat hb] at hcut
  rw [List.dropLast_concat]
  exact ⟨_, hcut⟩

/-- What is left to collect when all tokens behind the exclamation mark are taken off. -/
theorem cutImportant_of_bang (hne : value ≠ []) (hbang : bang.text = "!")
    (hgaps : ∀ t ∈ gaps, t.isGap = true ∧ t.Tidy) (hword : word.kind = .word)
    (hmark : lower word.text = "important") (hunmarked : word.Unmarked)
    (htrail : ∀ t ∈ trail, t.isGap = true ∧ t.Tidy) :
    let ts := value ++ bang :: (gaps ++ word :: trail)
    (value.length ≤ trail.length → cutImportant ts = (ts, false, none)) ∧
    (trail.length < value.length → ∃ mark, startsWithBang mark = true ∧
      let collected := collectMark mark
        ((value.tail.reverse.map Token.kind).drop trail.length) value.reverse
      cutImportant ts = if startsWithBang collected.1 then
        (collected.2.reverse, true, some collected.1) else (ts, false, none)) := by
  have hsplit : value ++ bang :: (gaps ++ word :: trail) =
      value ++ bang :: gaps ++ word :: trail := by simp
  obtain ⟨first, body, rfl⟩ := List.exists_cons_of_ne_nil hne
  set as := trail.reverse ++ word :: gaps.reverse with has
  have hleft : (first :: body ++ bang :: gaps ++ word :: trail).reverse =
      as ++ bang :: (first :: body).reverse := by simp [has]
  have hkinds : ((first :: body ++ bang :: gaps ++ [word]).drop 1).reverse.map Token.kind =
      (word :: gaps.reverse ++ [bang]).map Token.kind ++ body.reverse.map Token.kind := by simp
  have hplain : ∀ t ∈ as, t.Unmarked := by
    intro t ht
    rcases List.mem_append.mp ht with ht | ht
    · obtain ⟨hgap, htidy⟩ := htrail t (List.mem_reverse.mp ht)
      exact htidy.unmarked_of_isGap hgap
    · rcases List.mem_cons.mp ht with rfl | ht
      · exact hunmarked
      · obtain ⟨hgap, htidy⟩ := hgaps t (List.mem_reverse.mp ht)
        exact htidy.unmarked_of_isGap hgap
  obtain ⟨mark, hmarkless, hfew, hmany⟩ :=
    collectMark_of_unmarked hplain (by decide : startsWithBang "" = false)
      ((word :: gaps.reverse ++ [bang]).map Token.kind ++ body.reverse.map Token.kind)
      (bang :: (first :: body).reverse)
  have hcut := @cutImportant_eq_of_word _ _ (first :: body ++ bang :: gaps) hword
    fun t ht => (htrail t ht).1
  rw [hmark, if_neg (by decide), if_pos (by decide), hleft, hkinds] at hcut
  dsimp only at hcut
  rw [hsplit]
  have hlengths : as.length = trail.length + gaps.length + 1 ∧
      ((word :: gaps.reverse ++ [bang]).map Token.kind ++ body.reverse.map Token.kind).length =
        gaps.length + 2 + body.length := by
    constructor
    · rw [has]
      simp
      omega
    · simp
      omega
  generalize hall : (word :: gaps.reverse ++ [bang]).map Token.kind ++
    body.reverse.map Token.kind = kinds at *
  constructor
  · intro hlength
    rw [List.length_cons] at hlength
    rw [hcut, hfew (by omega), hmarkless, if_neg Bool.false_ne_true]
  · intro hlength
    rw [List.length_cons] at hlength
    -- One kind more is there, for the exclamation mark.
    have hdrop := List.drop_eq_getElem_cons (l := kinds) (i := as.length) (by omega)
    have hrest : kinds.drop (as.length + 1) = (body.reverse.map Token.kind).drop trail.length := by
      have hcount : as.length + 1 =
          ((word :: gaps.reverse ++ [bang]).map Token.kind).length + trail.length := by
        simp
        omega
      rw [← hall, hcount, List.drop_length_add_append]
    refine ⟨"!" ++ mark, @startsWithBang_append _ '!' [] rfl (by decide) mark, ?_⟩
    have hstep : collectMark mark (kinds[as.length] :: kinds.drop (as.length + 1))
        (bang :: (first :: body).reverse) =
          collectMark ("!" ++ mark) (kinds.drop (as.length + 1)) (first :: body).reverse := by
      rw [collectMark, hmarkless, Bool.false_and, if_neg Bool.false_ne_true, hbang]
    rw [hcut, hmany (by omega), hdrop, hstep, hrest]
    rfl

/-- A mark in two parts is found when there are fewer tokens behind it than in the value. -/
theorem cutImportant_of_parts (hvalue : SpacedWords value) (hbang : bang.text = "!")
    (hgaps : ∀ t ∈ gaps, t.isGap = true ∧ t.Tidy) (hword : word.kind = .word)
    (hmark : lower word.text = "important") (hunmarked : word.Unmarked)
    (htrail : ∀ t ∈ trail, t.isGap = true ∧ t.Tidy) (hlength : trail.length < value.length) :
    ∃ kept raw, (kept = value ∨ kept = value.dropLast) ∧
      cutImportant (value ++ bang :: (gaps ++ word :: trail)) = (kept, true, raw) := by
  obtain ⟨front, b, hends, hb, hfront⟩ := hvalue.ends
  have hne : value ≠ [] := by
    rw [hends]
    exact List.append_ne_nil_of_right_ne_nil front (List.cons_ne_nil b [])
  obtain ⟨mark, hmarked, hcut⟩ :=
    (cutImportant_of_bang hne hbang hgaps hword hmark hunmarked htrail).2 hlength
  -- The kinds that are compared are those of other tokens, further to the front by the length of
  -- the trail.
  have hsparse : Sparse ((value.tail.reverse.map Token.kind).drop trail.length) := by
    rw [List.map_reverse, List.map_tail]
    exact (Sparse.reverse hvalue.sparse.tail).drop _
  have hblank : ∀ c ∈ b.text.toList, isBlank c = true := by
    intro c hc
    rcases hvalue.quiet b (by rw [hends]; simp) with h | h
    · rw [hb] at h
      cases h
    · exact isBlank_of_isSpace (h.2.blank hb c hc)
  obtain ⟨mark', hmark', hkept⟩ := collectMark_of_marked hmarked hsparse hblank front.reverse
  have hreverse : value.reverse = b :: front.reverse := by rw [hends, List.reverse_concat]
  dsimp only at hcut
  rw [hcut, hreverse]
  rcases hkept with hkept | hkept
  · rw [hkept, if_pos hmark', ← hreverse, List.reverse_reverse]
    exact ⟨value, _, .inl rfl, rfl⟩
  · rw [hkept, if_pos hmark', List.reverse_reverse]
    exact ⟨front, _, .inr (by rw [hends, List.dropLast_concat]), rfl⟩

/-- A mark of importance: one token, or two with white space and comments between them. -/
inductive IsMark : List Token → Prop
  | whole {word : Token} (kind : word.kind = .word) (text : lower word.text = "!important") :
    IsMark [word]
  | parted {bang word : Token} {gaps : List Token} (bang_kind : bang.kind = .word)
    (bang_text : bang.text = "!") (gap : ∀ t ∈ gaps, t.isGap = true ∧ t.Tidy)
    (kind : word.kind = .word) (text : lower word.text = "important")
    (unmarked : word.Unmarked) : IsMark (bang :: (gaps ++ [word]))

namespace IsMark

variable {m : List Token}

theorem quiet (h : IsMark m) : Quiet m := by
  cases h with
  | whole kind text =>
    intro t ht
    rw [List.mem_singleton.mp ht]
    exact .inl kind
  | parted bang_kind bang_text gap kind text unmarked =>
    intro t ht
    rcases List.mem_cons.mp ht with rfl | ht
    · exact .inl bang_kind
    rcases List.mem_append.mp ht with ht | ht
    · exact .inr (gap t ht).1
    · rw [List.mem_singleton.mp ht]
      exact .inl kind

theorem endsWithWord (h : IsMark m) : EndsWithWord m := by
  cases h with
  | whole kind text => exact ⟨[], _, rfl, kind⟩
  | @parted bang word gaps bang_kind bang_text gap kind text unmarked =>
    exact ⟨bang :: gaps, word, rfl, kind⟩

/-- Which marks are found, and what is left of the tokens. -/
theorem cutImportant_eq (h : IsMark m) (hvalue : SpacedWords value)
    (htrail : ∀ t ∈ trail, t.isGap = true ∧ t.Tidy) :
    ∃ kept found raw, cutImportant (value ++ (m ++ trail)) = (kept, found, raw) ∧
      (found = true ↔ m.length = 1 ∨ trail.length < value.length) ∧
      (found = true → kept = value ∨ kept = value.dropLast) ∧
      (found = false → kept = value ++ (m ++ trail)) := by
  have hne : value ≠ [] := by
    obtain ⟨first, body, rfl, -⟩ := hvalue.starts
    exact List.cons_ne_nil first body
  cases h with
  | whole kind text =>
    obtain ⟨raw, hcut⟩ := cutImportant_of_token hvalue kind text fun t ht => (htrail t ht).1
    exact ⟨_, true, raw, hcut, iff_of_true rfl (.inl rfl), fun _ => .inr rfl,
      fun hfound => absurd hfound (by decide)⟩
  | @parted bang word gaps bang_kind bang_text gap kind text unmarked =>
    have hparted : (bang :: (gaps ++ [word])).length ≠ 1 := by simp
    rw [List.cons_append, List.append_assoc, List.singleton_append]
    -- Too long a trail uses up the kinds before the exclamation mark is reached.
    by_cases hlength : trail.length < value.length
    · obtain ⟨kept, raw, hkept, hcut⟩ :=
        cutImportant_of_parts hvalue bang_text gap kind text unmarked htrail hlength
      exact ⟨kept, true, raw, hcut, iff_of_true rfl (.inr hlength), fun _ => hkept,
        fun hfound => absurd hfound (by decide)⟩
    · have hcut := (cutImportant_of_bang hne bang_text gap kind text unmarked htrail).1
        (Nat.le_of_not_lt hlength)
      exact ⟨_, false, none, hcut,
        iff_of_false Bool.false_ne_true (not_or.mpr ⟨hparted, hlength⟩),
        fun hfound => absurd hfound Bool.false_ne_true, fun _ => rfl⟩

end IsMark

/-! ### The value in front of the mark -/

theorem cleanFrom_concat_space {prev : Option TokenKind} {text : String} {clean : Bool}
    (hts : ∀ t ∈ ts, t.kind = .word ∨ t.kind = .space) {b : Token} (hb : b.kind = .space) :
    cleanFrom false prev text clean (ts ++ [b]) = (text ++ Token.join ts, false) := by
  induction ts generalizing prev text with
  | nil =>
    rw [List.nil_append, cleanFrom, hb]
    exact congrArg (·, false) String.append_empty.symm
  | cons t ts ih =>
    rw [List.forall_mem_cons] at hts
    have hcomment : (t.kind == .comment) = false := by
      rcases hts.1 with hk | hk <;> rw [hk] <;> rfl
    have hmore : (ts ++ [b]).isEmpty = false := by simp
    rw [List.cons_append, cleanFrom, hmore, hcomment, Bool.and_false, Bool.false_and,
      if_neg Bool.false_ne_true, Bool.false_and, if_neg Bool.false_ne_true, ih hts.2,
      Token.join_cons, String.append_assoc]

/-- The field of a value in front of its mark has no white space at its end. -/
theorem SpacedWords.cleanField_eq (h : SpacedWords value) {kept : List Token}
    (hkept : kept = value ∨ kept = value.dropLast) :
    (cleanField false kept).1 = Token.join value.dropLast := by
  obtain ⟨front, b, rfl, hb, hfront⟩ := h.ends
  have hquiet : ∀ t ∈ front, t.kind = .word ∨ t.kind = .space := fun t ht =>
    (h.quiet t (List.mem_append_left _ ht)).imp id And.left
  rw [List.dropLast_concat] at hkept ⊢
  rw [cleanField]
  rcases hkept with rfl | rfl
  · rw [cleanFrom_concat_space hquiet hb]
    exact String.empty_append
  · rw [cleanFrom_of_words hquiet hfront.getLast?]
    exact String.empty_append

/-- A declaration with a mark behind its value is taken apart. -/
theorem readDeclaration_of_isMark {p c b : Token} {m : List Token} {prop : String}
    (hp : p.form = Form.word prop) (hprop : IsWord prop) (hc : c.kind = .colon)
    (hb : b.kind = .space) (hvalue : SpacedWords value) (hm : IsMark m)
    (htrail : ∀ t ∈ trail, t.isGap = true ∧ t.Tidy) :
    ∃ parts, readDeclaration false (p :: c :: b :: (value ++ (m ++ trail))) = .ok parts ∧
      parts.prop = prop ∧
      (parts.important = true ↔ m.length = 1 ∨ trail.length < value.length) ∧
      (parts.important = true → parts.value = Token.join value.dropLast) := by
  obtain ⟨kept, found, raw, hcut, hfound, hkept, hall⟩ := hm.cutImportant_eq hvalue htrail
  obtain ⟨first, body, hstarts, hfirst⟩ := hvalue.starts
  obtain ⟨front, last, hends, -, hfront⟩ := hvalue.ends
  -- Whatever is cut off, the value's words are kept; these rule out a missing value and a double
  -- colon.
  have hsub : value.dropLast ⊆ kept ∧ kept ⊆ value ++ (m ++ trail) := by
    have hdrop := List.dropLast_subset value
    cases found with
    | true =>
      rcases hkept rfl with rfl | rfl
      · exact ⟨hdrop, List.subset_append_left _ _⟩
      · exact ⟨List.Subset.refl _, List.Subset.trans hdrop (List.subset_append_left _ _)⟩
    | false =>
      rw [hall rfl]
      exact ⟨List.Subset.trans hdrop (List.subset_append_left _ _), List.Subset.refl _⟩
  have hword : ∃ u ∈ kept, u.kind = .word := by
    obtain ⟨us, u, rfl, hu⟩ := hfront
    exact ⟨u, hsub.1 (by rw [hends]; simp), hu⟩
  have hcolon : ∀ u ∈ kept, u.kind ≠ .colon := by
    intro u hu
    have hquiet : u.kind = .word ∨ u.isGap = true := by
      rcases List.mem_append.mp (hsub.2 hu) with hu | hu
      · exact (hvalue.quiet u hu).imp id fun h => isGap_of_space h.1
      rcases List.mem_append.mp hu with hu | hu
      · exact hm.quiet u hu
      · exact .inr (htrail u hu).1
    rcases hquiet with h | h
    · rw [h]
      decide
    · rcases Token.isGap_iff.mp h with h | h <;> rw [h] <;> decide
  obtain ⟨parts, hread, hpartsprop, hpartsvalue, himportant⟩ :=
    @readDeclaration_of_body (value ++ (m ++ trail)) _ _ [] [b] _ _ _ _ hp hprop
      (List.forall_mem_nil _) hc (by simpa using hb)
      ⟨first, _, by rw [hstarts]; rfl, hfirst⟩ hcut hword hcolon
  refine ⟨parts, hread, hpartsprop, by rw [himportant, hfound], fun h => ?_⟩
  rw [hpartsvalue, hvalue.cleanField_eq (hkept (by rw [← himportant, h]))]

end Stylesheet
