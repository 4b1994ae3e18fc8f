import Stylesheet.Proofs.Chain.Tokens
import Stylesheet.Proofs.Statement.Important

/-!
# Spelling a mark of importance

A declaration with a mark behind its value, as it is spelled (`MarkedDeclaration`): the words of the
value stand in front of white space, and white space and comments (`GapText`) may stand inside of
the mark and behind it. The tokens of such a text are known (`MarkedDeclaration.forms`), and they
are cut from it wherever it stands in front of a semicolon or a brace
(`MarkedDeclaration.fitBefore_forms`).
-/

namespace Stylesheet

open Text Form

/-! ### White space and comments -/

/-- White space and comments, in any order. -/
inductive GapText : List Char → Prop
  | nil : GapText []
  | space {c : Char} {cs : List Char} (isSpace : isSpace c = true) (more : GapText cs) :
    GapText (c :: cs)
  | comment {body cs : List Char} (open_body : contains ['*', '/'] body = false)
    (more : GapText cs) : GapText ('/' :: '*' :: (body ++ '*' :: '/' :: cs))

namespace GapText

variable {cs : List Char}

theorem dropWhile (h : GapText cs) : GapText (cs.dropWhile isSpace) := by
  induction h with
  | nil => exact .nil
  | space hc _ ih => rwa [List.dropWhile_cons_of_pos hc]
  | comment hbody hmore => exact .comment hbody hmore

/-- A word ends in front of a gap. -/
theorem cutWord_append (h : GapText cs) {rest : List Char}
    (hrest : cs = [] → cutWord rest = ⟨[], rest⟩) : cutWord (cs ++ rest) = ⟨[], cs ++ rest⟩ := by
  cases h with
  | nil => exact hrest rfl
  | space hc _ =>
    refine cutWord_of_endsWord ?_
    rintro d ⟨⟩
    rw [endsWord, hc]
    rfl
  | comment _ _ => rfl

end GapText

namespace Form

theorem fits_of_comment {body : List Char} (hbody : contains ['*', '/'] body = false)
    (rest : List Char) :
    Fits ⟨.comment, String.ofList ('/' :: '*' :: (body ++ ['*', '/']))⟩ rest := by
  refine ⟨'/', '*' :: (body ++ ['*', '/']), String.toList_ofList, fun word => ?_⟩
  have hsplit := splitAt?_close_behind (splitAt?_append_self hbody (by decide)) rest
  have hcut : cutToken false word '/' ('*' :: (body ++ ['*', '/']) ++ rest) =
      cutComment false (body ++ ['*', '/'] ++ rest) := rfl
  rw [hcut, cutComment, hsplit]
  rfl

end Form

/-- A gap is cut into white space and comments. -/
theorem GapText.exists_forms {cs : List Char} (h : GapText cs) :
    ∃ fs, (join fs).toList = cs ∧ (∀ f ∈ fs, f.kind = .space ∨ f.kind = .comment) ∧
      ∀ rest : List Char, (∀ c ∈ rest.head?, (!isSpace c) = true) → FitBefore rest fs := by
  induction hlength : cs.length using Nat.strong_induction_on generalizing cs with
  | _ n ih =>
    cases h with
    | nil => exact ⟨[], rfl, List.forall_mem_nil _, fun _ _ => trivial⟩
    | @space c cs hc hmore =>
      -- All white space up to another character is one token.
      have hlt : (cs.dropWhile isSpace).length < n := by
        have hle := (List.dropWhile_suffix isSpace (l := cs)).length_le
        rw [← hlength, List.length_cons]
        omega
      obtain ⟨fs, hjoin, hkinds, hfit⟩ := ih _ hlt hmore.dropWhile rfl
      have hall : ∀ d ∈ (String.ofList (c :: cs.takeWhile isSpace)).toList, isSpace d = true := by
        rw [String.toList_ofList]
        exact List.forall_mem_cons.mpr ⟨hc, fun d hd => List.mem_takeWhile_imp hd⟩
      have hne : String.ofList (c :: cs.takeWhile isSpace) ≠ "" := by
        rw [← String.toList_inj.ne, String.toList_ofList]
        exact List.cons_ne_nil _ _
      refine ⟨⟨.space, String.ofList (c :: cs.takeWhile isSpace)⟩ :: fs, ?_,
        List.forall_mem_cons.mpr ⟨.inl rfl, hkinds⟩, fun rest hrest => ⟨?_, hfit rest hrest⟩⟩
      · rw [join_cons, String.toList_append, String.toList_ofList, hjoin, List.cons_append,
          List.takeWhile_append_dropWhile]
      · refine fits_space hne hall ?_
        rw [hjoin]
        intro d hd
        rw [List.head?_append] at hd
        cases hhead : (cs.dropWhile isSpace).head? with
        | none =>
          rw [hhead] at hd
          exact hrest d hd
        | some e =>
          rw [hhead] at hd
          cases hd
          have hstop := List.head?_dropWhile_not isSpace cs
          rw [hhead] at hstop
          simpa using hstop
    | @comment body cs hbody hmore =>
      have hlt : cs.length < n := by
        rw [← hlength]
        simp
        omega
      obtain ⟨fs, hjoin, hkinds, hfit⟩ := ih _ hlt hmore rfl
      refine ⟨⟨.comment, String.ofList ('/' :: '*' :: (body ++ ['*', '/']))⟩ :: fs, ?_,
        List.forall_mem_cons.mpr ⟨.inr rfl, hkinds⟩,
        fun rest hrest => ⟨fits_of_comment hbody _, hfit rest hrest⟩⟩
      rw [join_cons, String.toList_append, String.toList_ofList, hjoin]
      simp

/-! ### Words with white space behind them -/

namespace Text

/-- A word and the white space behind it. -/
def IsSpacedWord (v : String × String) : Prop :=
  IsWord v.1 ∧ v.2 ≠ "" ∧ ∀ c ∈ v.2.toList, isSpace c = true

instance (v : String × String) : Decidable (IsSpacedWord v) :=
  decidable_of_iff (IsWord v.1 ∧ v.2 ≠ "" ∧ v.2.toList.all isSpace = true)
    (by rw [List.all_eq_true]; rfl)

/-- The text of words, each with the white space behind it. -/
def spacedText (vs : List (String × String)) : String :=
  String.join (vs.map fun v => v.1 ++ v.2)

theorem trimEnd_behindBlanks {cs bs : List Char} {c : Char} (hc : isBlank c = false)
    (hbs : ∀ b ∈ bs, isBlank b = true) : trimEnd (cs ++ [c] ++ bs) = cs ++ [c] := by
  rw [trimEnd, List.reverse_append, List.dropWhile_append_of_pos fun b hb =>
    hbs b (List.mem_reverse.mp hb), List.reverse_concat, List.dropWhile_cons_of_neg (by simp [hc]),
    ← List.reverse_concat, List.reverse_reverse]

end Text

namespace Form

/-- The tokens of words with white space behind them, without their places. -/
def spaced (vs : List (String × String)) : List Form :=
  vs.flatMap fun v => [word v.1, ⟨.space, v.2⟩]

theorem spaced_cons (v : String × String) (vs : List (String × String)) :
    spaced (v :: vs) = word v.1 :: ⟨.space, v.2⟩ :: spaced vs :=
  rfl

theorem join_spaced (vs : List (String × String)) : join (spaced vs) = spacedText vs := by
  induction vs with
  | nil => rfl
  | cons v vs ih =>
    rw [spaced_cons, join_cons, join_cons, ih, spacedText, spacedText, List.map_cons,
      String.join_cons, String.append_assoc]
    rfl

theorem length_spaced (vs : List (String × String)) : (spaced vs).length = 2 * vs.length := by
  induction vs with
  | nil => rfl
  | cons v vs ih =>
    rw [spaced_cons, List.length_cons, List.length_cons, List.length_cons, ih]
    omega

variable {vs : List (String × String)}

theorem fitBefore_spaced (hvs : ∀ v ∈ vs, IsSpacedWord v) {rest : List Char}
    (hrest : ∀ c ∈ rest.head?, (!isSpace c) = true) : FitBefore rest (spaced vs) := by
  induction vs with
  | nil => trivial
  | cons v vs ih =>
    obtain ⟨⟨hword, hne, hspaces⟩, hvs⟩ := List.forall_mem_cons.mp hvs
    -- A space fits when no other one follows: next comes a word, or what comes behind all words.
    have hnext : ∀ c ∈ ((join (spaced vs)).toList ++ rest).head?, (!isSpace c) = true := by
      cases vs with
      | nil => exact hrest
      | cons u us =>
        obtain ⟨c, cs, hu, hc, -⟩ := (hvs u List.mem_cons_self).1.exists_cons
        rw [spaced_cons, join_cons, show (word u.1).text = u.1 from rfl, String.toList_append, hu]
        rintro d ⟨⟩
        rw [isSpace_of_isAlphanum hc]
        rfl
    obtain ⟨c, cs, htext, hc, hcs⟩ := hword.exists_cons
    refine ⟨fits_of_word htext (.inl hc) hcs (cutWord_of_endsWord ?_),
      fits_space hne hspaces hnext, ih hvs⟩
    show ∀ c ∈ ((join (⟨.space, v.2⟩ :: spaced vs)).toList ++ rest).head?, endsWord c = true
    rw [join_cons, String.toList_append]
    cases hv : v.2.toList with
    | nil => exact absurd (String.toList_inj.mp hv) hne
    | cons d ds =>
      rintro d' ⟨⟩
      rw [endsWord, hspaces d (by rw [hv]; exact List.mem_cons_self)]
      rfl

end Form

variable {ts : List Token} {vs : List (String × String)}

theorem sparse_spaced (vs : List (String × String)) : Sparse ((spaced vs).map Form.kind) := by
  have hfront : ¬ (TokenKind.word = .space ∧ TokenKind.space = .space) := by decide
  have hback : ¬ (TokenKind.space = .space ∧ TokenKind.word = .space) := by decide
  induction vs with
  | nil => exact .nil
  | cons v vs ih =>
    cases vs with
    | nil => exact .cons_cons hfront (.singleton _)
    | cons u us => exact .cons_cons hfront (.cons_cons hback ih)

theorem spaced_of_forms (hne : vs ≠ []) (htidy : ∀ t ∈ ts, t.Tidy)
    (h : ts.map Token.form = spaced vs) : SpacedWords ts := by
  have hkinds : ts.map Token.kind = (spaced vs).map Form.kind := by
    rw [← h, List.map_map]
    rfl
  refine ⟨fun t ht => ?_, hkinds ▸ sparse_spaced vs, ?_, ?_⟩
  · obtain ⟨f, hf, hkind, -⟩ := kind_of_mem h ht
    obtain ⟨v, -, hv⟩ := List.mem_flatMap.mp hf
    rcases List.mem_cons.mp hv with rfl | hv
    · exact .inl hkind
    · rw [List.mem_singleton.mp hv] at hkind
      exact .inr ⟨hkind, htidy t ht⟩
  -- The last two tokens are the last word and its space.
  · obtain ⟨us, u, rfl⟩ := (List.eq_nil_or_concat' vs).resolve_left hne
    rw [spaced, List.flatMap_append] at h
    obtain ⟨front, back, rfl, -, hback⟩ := List.map_eq_append_iff.mp h
    obtain ⟨w, back, rfl, hw, hback⟩ := List.map_eq_cons_iff.mp hback
    obtain ⟨b, rfl, hb⟩ := List.map_eq_singleton_iff.mp hback
    exact ⟨front ++ [w], b, by simp, congrArg Form.kind hb, front, w, rfl, congrArg Form.kind hw⟩
  · obtain ⟨v, vs, rfl⟩ := List.exists_cons_of_ne_nil hne
    obtain ⟨w, body, rfl, hw, -⟩ := List.map_eq_cons_iff.mp h
    exact ⟨w, body, rfl, congrArg Form.kind hw⟩

/-- Without the white space at the end, the words are the trimmed text. -/
theorem toList_join_dropLast (hne : vs ≠ []) (hvs : ∀ v ∈ vs, IsSpacedWord v)
    (h : ts.map Token.form = spaced vs) :
    (Token.join ts.dropLast).toList = trimEnd (spacedText vs).toList := by
  rw [← join_spaced, ← h]
  obtain ⟨us, u, rfl⟩ := (List.eq_nil_or_concat' vs).resolve_left hne
  obtain ⟨hword, -, hspaces⟩ := hvs u (by simp)
  rw [spaced, List.flatMap_append] at h
  obtain ⟨front, back, rfl, -, hback⟩ := List.map_eq_append_iff.mp h
  obtain ⟨w, back, rfl, hw, hback⟩ := List.map_eq_cons_iff.mp hback
  obtain ⟨b, rfl, hb⟩ := List.map_eq_singleton_iff.mp hback
  have hwtext : w.text = u.1 := congrArg Form.text hw
  have hbtext : b.text = u.2 := congrArg Form.text hb
  obtain ⟨cs, c, hcs⟩ := (List.eq_nil_or_concat' u.1.toList).resolve_left
    fun hnil => hword.1 (String.toList_inj.mp hnil)
  have hc : isBlank c = false := isBlank_of_isAlphanum (hword.2 c (by rw [hcs]; simp))
  have hblanks : ∀ d ∈ u.2.toList, isBlank d = true := fun d hd => isBlank_of_isSpace (hspaces d hd)
  -- Dropping the last space is trimming, since a word ends in no blank.
  have htrim := @trimEnd_behindBlanks ((Token.join front).toList ++ cs) _ _ hc hblanks
  have hdrop : (front ++ w :: [b]).dropLast = front ++ [w] := by simp
  rw [hdrop, join_map_form, Token.join_append, Token.join_append, Token.join_cons, Token.join_cons,
    Token.join_cons, Token.join_nil, String.append_empty, String.append_empty]
  simp only [String.toList_append, hwtext, hbtext, hcs]
  simpa using htrim.symm

/-! ### The text of a declaration -/

/-- A declaration with a mark of importance, as it is spelled. The words of the value stand with the
white space behind them. -/
structure MarkedDeclaration where
  prop : String
  value : List (String × String)
  inside : String
  mark : String
  behind : String
  prop_word : IsWord prop
  value_ne : value ≠ []
  value_words : ∀ v ∈ value, IsSpacedWord v
  inside_gap : GapText inside.toList
  mark_important : lower mark = "important"
  behind_gap : GapText behind.toList

namespace MarkedDeclaration

/-- The text of the declaration. -/
def text (m : MarkedDeclaration) : String :=
  m.prop ++ ": " ++ spacedText m.value ++ "!" ++ m.inside ++ m.mark ++ m.behind

variable (m : MarkedDeclaration)

/-- The tokens of the mark, when `gaps` are those inside of it. -/
def markForms (gaps : List Form) : List Form :=
  if m.inside = "" then [word ("!" ++ m.mark)] else word "!" :: (gaps ++ [word m.mark])

/-- No letter beyond ASCII has one of the word in its lower-case form. -/
theorem ascii_mark : ∀ c ∈ m.mark.toList, c.toNat < 0x80 := by
  have hword : "important".toList.all (fun c => c.toNat < 0x80 && c != 'k') = true := by decide
  refine ascii_of_lower ?_
  rw [m.mark_important]
  simpa only [List.all_eq_true, Bool.and_eq_true, decide_eq_true_eq, bne_iff_ne] using hword

theorem isWord_mark : IsWord m.mark := by
  have hchars : m.mark.toList.map Char.toLower = "important".toList := by
    rw [← m.mark_important, toList_lower_of_ascii m.ascii_mark]
  refine ⟨?_, fun c hc => ?_⟩
  · rintro hempty
    rw [hempty] at hchars
    cases hchars
  · have hlower : c.toLower.isAlphanum = true := by
      have hmem : c.toLower ∈ "important".toList := hchars ▸ List.mem_map_of_mem hc
      exact List.all_eq_true.mp (by decide : "important".toList.all Char.isAlphanum = true) _ hmem
    by_cases hupper : c.isUpper = true
    · delta Char.isAlphanum Char.isAlpha
      rw [hupper, Bool.true_or, Bool.true_or]
    · delta Char.toLower at hlower
      rw [dif_neg fun hrange => hupper (decide_eq_true hrange)] at hlower
      exact hlower

variable {gaps trail : List Form} {rest : List Char}

/-- The tokens of the declaration, when `gaps` and `trail` are those inside of the mark and behind
it. -/
def forms (gaps trail : List Form) : List Form :=
  word m.prop :: colon :: blank :: (spaced m.value ++ (m.markForms gaps ++ trail))

theorem join_markForms (hgaps : (join gaps).toList = m.inside.toList) :
    join (m.markForms gaps) = "!" ++ (m.inside ++ m.mark) := by
  rw [markForms]
  split_ifs with hinside
  · rw [hinside, join_cons, join_nil]
    simp [word]
  · rw [join_cons, join_append, join_cons, join_nil, String.toList_inj.mp hgaps]
    simp [word]

theorem join_forms (hgaps : (join gaps).toList = m.inside.toList)
    (htrail : (join trail).toList = m.behind.toList) : join (m.forms gaps trail) = m.text := by
  rw [forms, join_cons, join_cons, join_cons, join_append, join_append, join_spaced,
    m.join_markForms hgaps, String.toList_inj.mp htrail, text]
  simp only [String.append_assoc]
  rfl

theorem fitBefore_markForms (hgaps : (join gaps).toList = m.inside.toList)
    (hfit : ∀ rest : List Char, (∀ c ∈ rest.head?, (!isSpace c) = true) → FitBefore rest gaps)
    (hrest : cutWord rest = ⟨[], rest⟩) : FitBefore rest (m.markForms gaps) := by
  obtain ⟨c, cs, hmark, hc, hcs⟩ := m.isWord_mark.exists_cons
  have hchars : ∀ d ∈ m.mark.toList, d.isAlphanum = true := m.isWord_mark.2
  rw [markForms]
  -- With nothing inside, mark and exclamation mark are one word; else they are two, with a gap.
  split_ifs with hinside
  · refine ⟨@fits_of_word _ '!' m.mark.toList _ ?_ (.inr rfl) hchars hrest, trivial⟩
    rw [String.toList_append]
    rfl
  · have hne : m.inside.toList ≠ [] := fun hnil => hinside (String.toList_inj.mp hnil)
    refine ⟨@fits_of_word _ '!' [] _ rfl (.inr rfl) (List.forall_mem_nil _) ?_,
      fitBefore_append (hfit _ ?_) ⟨fits_of_word hmark (.inl hc) hcs hrest, trivial⟩⟩
    · show cutWord ((join (gaps ++ [word m.mark])).toList ++ rest) = _
      rw [join_append, String.toList_append, hgaps, List.append_assoc]
      exact m.inside_gap.cutWord_append fun hnil => absurd hnil hne
    · rw [join_cons, String.toList_append, show (word m.mark).text = m.mark from rfl, hmark]
      rintro d ⟨⟩
      rw [isSpace_of_isAlphanum hc]
      rfl

theorem fitBefore_forms (hgaps : (join gaps).toList = m.inside.toList)
    (hgapsfit : ∀ rest : List Char, (∀ c ∈ rest.head?, (!isSpace c) = true) → FitBefore rest gaps)
    (htrail : (join trail).toList = m.behind.toList)
    (htrailfit : ∀ rest : List Char, (∀ c ∈ rest.head?, (!isSpace c) = true) → FitBefore rest trail)
    (hrest : ∀ c ∈ rest.head?, endsWord c = true ∧ isSpace c = false) :
    FitBefore rest (m.forms gaps trail) := by
  have hspace : ∀ c ∈ rest.head?, (!isSpace c) = true := fun c hc => by rw [(hrest c hc).2]; rfl
  have hmark : FitBefore ((join trail).toList ++ rest) (m.markForms gaps) := by
    refine m.fitBefore_markForms hgaps hgapsfit ?_
    rw [htrail]
    exact m.behind_gap.cutWord_append fun _ => cutWord_of_endsWord fun c hc => (hrest c hc).1
  -- From the back to the front, as what fits depends on what follows.
  have hmarked : FitBefore rest (m.markForms gaps ++ trail) :=
    fitBefore_append hmark (htrailfit rest hspace)
  obtain ⟨p, ps, hprop, hp, hps⟩ := m.prop_word.exists_cons
  refine ⟨fits_of_word hprop (.inl hp) hps (cutWord_of_endsWord ?_), fits_colon _,
    fits_space (by decide) (List.all_eq_true.mp rfl) ?_, fitBefore_append ?_ hmarked⟩
  · rw [join_cons, String.toList_append]
    rintro d ⟨⟩
    rfl
  · obtain ⟨v, vs, hvalue⟩ := List.exists_cons_of_ne_nil m.value_ne
    obtain ⟨c, cs, hv, hc, -⟩ := (m.value_words v (by rw [hvalue]; simp)).1.exists_cons
    show ∀ c ∈ ((join (spaced m.value ++ (m.markForms gaps ++ trail))).toList ++ rest).head?, _
    rw [hvalue, spaced_cons, List.cons_append, join_cons, show (word v.1).text = v.1 from rfl,
      String.toList_append, hv]
    rintro d ⟨⟩
    rw [isSpace_of_isAlphanum hc]
    rfl
  · refine fitBefore_spaced m.value_words ?_
    rw [join_append, m.join_markForms hgaps, String.toList_append, String.toList_append]
    rintro d ⟨⟩
    rfl

end MarkedDeclaration

end Stylesheet
