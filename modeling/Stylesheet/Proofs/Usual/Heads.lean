import Stylesheet.Proofs.Token.Ahead
import Stylesheet.Proofs.Usual.Marks

/-!
# Spelling the head of an at-rule

White space, comments and the names of at-rules are cut from a text by what they are made of
(`TokenKind.MadeOf`), so they are cut again wherever they stand in front of something that ends
them. White space and comments that were tokens once are a gap (`GapText.of_tokens`).

The head of an at-rule whose parameters are one word (`headForms`) is the name, a gap and the word,
each a token of its own, when there is a gap. Without one, the word becomes part of the name. Both
are cut from a text in front of what may stand behind a head (`Form.exists_headForms`).
-/

namespace Stylesheet

open Text Form

/-! ### What tokens are made of -/

/-- All that has to be known of white space, a comment or the name of an at-rule to cut it again. -/
def TokenKind.MadeOf : TokenKind → List Char → Prop
  | .space, cs => cs ≠ [] ∧ ∀ c ∈ cs, isSpace c = true
  | .comment, cs => ∃ body, cs = '/' :: '*' :: (body ++ ['*', '/']) ∧
      contains ['*', '/'] body = false
  | .atWord, cs => ∃ name, cs = '@' :: name ∧ ∀ c ∈ name, endsAtWord c = false
  | _, _ => True

namespace Text

/-- In front of the first place of a mark, the mark does not stand. -/
theorem contains_of_splitAt? {a b : Char} {cs front rest : List Char}
    (h : splitAt? [a, b] cs = some (front, rest)) : contains [a, b] front = false := by
  -- The pair is looked for at every place, so it stands at none in front of the first hit.
  induction cs generalizing front with
  | nil => cases h
  | cons c cs ih =>
    rw [splitAt?] at h
    cases hafter : after? [a, b] (c :: cs) with
    | some found =>
      rw [hafter] at h
      cases h
      rfl
    | none =>
      rw [hafter] at h
      obtain ⟨⟨f, r⟩, hsplit, hfront⟩ := Option.map_eq_some_iff.mp h
      cases hfront
      have hnot := congrArg Option.isSome hafter
      rw [after?_pair, splitAt?_eq_some hsplit, List.append_assoc] at hnot
      rw [contains_pair_cons, ih hsplit, Bool.or_false]
      cases f with
      | nil => exact Bool.and_false _
      | cons d f => exact hnot

end Text

theorem cutToken_madeOf {word : String} {c : Char} {cs : List Char} {lexeme : Lexeme}
    (h : cutToken false word c cs = .ok lexeme) : lexeme.kind.MadeOf lexeme.cut.taken := by
  cases FirstToken.of_cutToken h with
  | punctuation hc =>
    unfold punctuation? at hc
    split at hc <;> cases hc <;> trivial
  | space hc =>
    exact ⟨List.cons_ne_nil _ _,
      List.forall_mem_cons.mpr ⟨hc, fun d hd => List.mem_takeWhile_imp hd⟩⟩
  | atWord =>
    refine ⟨_, rfl, fun d hd => ?_⟩
    simpa using List.mem_takeWhile_imp hd
  | comment hbody => exact ⟨_, rfl, contains_of_splitAt? hbody⟩
  | _ => trivial

theorem lexFrom_madeOf (words : List String) (offset : Nat) (cs : List Char) :
    ∀ t ∈ (lexFrom false words offset cs).1, t.kind.MadeOf t.text.toList := by
  intro t ht
  obtain ⟨word, c, ds, lexeme, h, hkind, htext⟩ := exists_cutToken_of_mem_lexFrom ht
  rw [hkind, htext]
  exact cutToken_madeOf h

theorem lex_madeOf (css : String) : ∀ t ∈ (lex false css).1, t.kind.MadeOf t.text.toList :=
  lexFrom_madeOf [] 0 css.toList

/-! ### Gaps -/

namespace GapText

variable {cs ds : List Char}

theorem of_isSpace (hcs : ∀ c ∈ cs, isSpace c = true) (hds : GapText ds) : GapText (cs ++ ds) := by
  induction cs with
  | nil => exact hds
  | cons c cs ih =>
    rw [List.forall_mem_cons] at hcs
    exact .space hcs.1 (ih hcs.2)

/-- White space and comments that are tokens are a gap. -/
theorem of_tokens {ts : List Token} (hgaps : Gaps ts)
    (hts : ∀ t ∈ ts, t.kind.MadeOf t.text.toList) : GapText (Token.join ts).toList := by
  induction ts with
  | nil => exact .nil
  | cons t ts ih =>
    obtain ⟨hgap, hgaps⟩ := List.forall_mem_cons.mp hgaps
    obtain ⟨ht, hts⟩ := List.forall_mem_cons.mp hts
    rw [Token.join_cons, String.toList_append]
    rcases Token.isGap_iff.mp hgap with hkind | hkind <;> rw [hkind] at ht
    · exact of_isSpace ht.2 (ih hgaps hts)
    · obtain ⟨body, hbody, hopen⟩ := ht
      rw [hbody, List.cons_append, List.cons_append, List.append_assoc]
      exact .comment hopen (ih hgaps hts)

/-- What a gap begins with. -/
theorem head?_append (h : GapText cs) {c : Char} (hc : c ∈ (cs ++ ds).head?) :
    isSpace c = true ∨ c = '/' ∨ cs = [] ∧ c ∈ ds.head? := by
  cases h with
  | nil => exact .inr (.inr ⟨rfl, hc⟩)
  | space hspace _ =>
    cases hc
    exact .inl hspace
  | comment _ _ =>
    cases hc
    exact .inr (.inl rfl)

end GapText

/-! ### Behind a head -/

/-- What may stand behind the head of an at-rule: a gap, and then the end of the text, a semicolon
or a brace. -/
def EndsHead (cs : List Char) : Prop :=
  ∃ gap rest, cs = gap ++ rest ∧ GapText gap ∧ ∀ c ∈ rest.head?, c = ';' ∨ c = '{' ∨ c = '}'

namespace EndsHead

variable {cs : List Char}

theorem head? (h : EndsHead cs) {c : Char} (hc : c ∈ cs.head?) :
    isSpace c = true ∨ c = '/' ∨ c = ';' ∨ c = '{' ∨ c = '}' := by
  obtain ⟨gap, rest, rfl, hgap, hrest⟩ := h
  rcases hgap.head?_append hc with hspace | hslash | ⟨-, hc⟩
  · exact .inl hspace
  · exact .inr (.inl hslash)
  · exact .inr (.inr (hrest c hc))

theorem endsAtWord (h : EndsHead cs) : ∀ c ∈ cs.head?, endsAtWord c = true := by
  intro c hc
  rcases h.head? hc with hspace | rfl | rfl | rfl | rfl
  · rw [Stylesheet.endsAtWord, hspace]
    rfl
  all_goals decide

/-- No group begins right behind a head. -/
theorem head?_ne (h : EndsHead cs) : cs.head? ≠ some '(' := by
  intro hparen
  rcases h.head? hparen with hspace | h | h | h | h
  · revert hspace
    decide
  all_goals cases h

theorem cutWord_eq (h : EndsHead cs) : cutWord cs = ⟨[], cs⟩ := by
  obtain ⟨gap, rest, rfl, hgap, hrest⟩ := h
  refine hgap.cutWord_append fun _ => cutWord_of_endsWord fun c hc => ?_
  rcases hrest c hc with rfl | rfl | rfl <;> decide

end EndsHead

/-! ### Heads -/

namespace Form

/-- A name ends at a character that ends names. -/
theorem fits_of_atWord {name rest : List Char} (hname : ∀ c ∈ name, endsAtWord c = false)
    (hrest : ∀ c ∈ rest.head?, endsAtWord c = true) :
    Fits ⟨.atWord, String.ofList ('@' :: name)⟩ rest := by
  refine ⟨'@', name, String.toList_ofList, fun word => ?_⟩
  have hcut : cutWhile (fun d => !endsAtWord d) '@' (name ++ rest) = ⟨'@' :: name, rest⟩ :=
    cutWhile_of_head '@' (fun c hc => by rw [hname c hc]; rfl) fun c hc => by rw [hrest c hc]; rfl
  rw [← hcut]
  rfl

/-- The head of an at-rule with a word for its parameters. -/
def headForms (name : List Char) (gap : List Form) (w : String) : List Form :=
  if gap = [] then [⟨.atWord, String.ofList ('@' :: (name ++ w.toList))⟩]
  else ⟨.atWord, String.ofList ('@' :: name)⟩ :: (gap ++ [word w])

theorem join_headForms (name : List Char) (gap : List Form) (w : String) :
    (join (headForms name gap w)).toList = '@' :: (name ++ ((join gap).toList ++ w.toList)) := by
  rw [headForms]
  split_ifs with hgap
  · rw [hgap]
    simp
  · simp [word]

/-- Behind a gap the word is a token, otherwise it becomes part of the name. -/
theorem exists_headForms {name lead rest : List Char} {w : String}
    (hname : ∀ c ∈ name, endsAtWord c = false) (hlead : GapText lead) (hw : IsWord w)
    (hrest : EndsHead rest) :
    ∃ gap, (join gap).toList = lead ∧ (gap = [] ↔ lead = []) ∧
      (∀ f ∈ gap, f.kind = .space ∨ f.kind = .comment) ∧ FitBefore rest (headForms name gap w) := by
  obtain ⟨gap, hjoin, hkinds, hfit⟩ := hlead.exists_forms
  obtain ⟨c, cs, hchars, hc, hcs⟩ := hw.exists_cons
  have hempty : gap = [] ↔ lead = [] := by
    refine ⟨fun hgap => by rw [← hjoin, hgap]; rfl, fun hnil => ?_⟩
    by_contra hgap
    obtain ⟨f, fs, rfl⟩ := List.exists_cons_of_ne_nil hgap
    obtain ⟨⟨e, es, htext, -⟩, -⟩ := hfit [] nofun
    rw [join_cons, String.toList_append, htext, hnil] at hjoin
    cases hjoin
  refine ⟨gap, hjoin, hempty, hkinds, ?_⟩
  rw [headForms]
  -- Without a gap the word runs on from the name; with one it is a token of its own.
  split_ifs with hgap
  · refine ⟨fits_of_atWord (List.forall_mem_append.mpr ⟨hname, fun d hd => ?_⟩) hrest.endsAtWord,
      trivial⟩
    exact endsAtWord_of_isAlphanum (hw.2 d hd)
  · have hword : FitBefore rest [word w] :=
      ⟨fits_of_word hchars (.inl hc) hcs hrest.cutWord_eq, trivial⟩
    have hgapfit : FitBefore ((join [word w]).toList ++ rest) gap := by
      refine hfit _ ?_
      rw [join_cons, join_nil, String.append_empty, show (word w).text = w from rfl, hchars]
      rintro d ⟨⟩
      rw [isSpace_of_isAlphanum hc]
      rfl
    refine ⟨fits_of_atWord hname fun d hd => ?_, fitBefore_append hgapfit hword⟩
    rw [join_append, String.toList_append, hjoin, List.append_assoc] at hd
    rcases hlead.head?_append hd with hspace | rfl | ⟨hnil, -⟩
    · rw [endsAtWord, hspace]
      rfl
    · rfl
    · exact absurd (hempty.mpr hnil) hgap

end Form

end Stylesheet
