import Stylesheet.Proofs.Token.Parens
import Stylesheet.Proofs.Tree.Reload
import Stylesheet.Proofs.Usual.Marks

/-!
# Marks of importance in a stylesheet

Where a declaration with a mark stands in a stylesheet, the sheet is read, and the mark is found
when nothing stands inside of it, when the block ends behind it, or when there are fewer tokens
behind it than in the value (`MarkedDeclaration.important_iff`). So a comment behind the mark can
hide it (`MarkedDeclaration.mark_hidden_by_comment`).
-/

namespace Stylesheet

open Text Form

variable {ts : List Token}

/-! ### The tokens of a declaration -/

/-- The tokens of a declaration with a mark. -/
structure MarkedDeclaration.Spells (m : MarkedDeclaration) (p c b : Token)
    (value mark behind : List Token) : Prop where
  prop : p.form = word m.prop
  colon : c.kind = .colon
  space : b.kind = .space
  spaced : SpacedWords value
  value_length : value.length = 2 * m.value.length
  value_text : (Token.join value.dropLast).toList = trimEnd (spacedText m.value).toList
  isMark : IsMark mark
  mark_length : mark.length = 1 ↔ m.inside = ""
  gaps : ∀ t ∈ behind, t.isGap = true ∧ t.Tidy
  behind_length : behind.length = (lex false m.behind).1.length

namespace MarkedDeclaration

variable {m : MarkedDeclaration} {gaps trail : List Form}

theorem isMark_of_forms (hgaps : ∀ f ∈ gaps, f.kind = .space ∨ f.kind = .comment)
    (htidy : ∀ t ∈ ts, t.Tidy) (h : ts.map Token.form = m.markForms gaps) :
    IsMark ts ∧ (ts.length = 1 ↔ m.inside = "") := by
  rw [markForms] at h
  -- In one token, or in two with a gap between.
  split_ifs at h with hinside
  · obtain ⟨w, rfl, hw⟩ := List.map_eq_singleton_iff.mp h
    refine ⟨.whole (congrArg Form.kind hw) ?_, iff_of_true rfl hinside⟩
    have hascii : ∀ c ∈ ("!" ++ m.mark).toList, c.toNat < 0x80 := by
      rw [String.toList_append]
      exact List.forall_mem_cons.mpr ⟨by decide, m.ascii_mark⟩
    rw [show w.text = "!" ++ m.mark from congrArg Form.text hw, ← String.toList_inj,
      toList_lower_of_ascii hascii, String.toList_append, List.map_append,
      ← toList_lower_of_ascii m.ascii_mark, m.mark_important]
    rfl
  · obtain ⟨bang, back, rfl, hbang, hback⟩ := List.map_eq_cons_iff.mp h
    obtain ⟨gs, back, rfl, hgs, hback⟩ := List.map_eq_append_iff.mp hback
    obtain ⟨w, rfl, hw⟩ := List.map_eq_singleton_iff.mp hback
    have htext : w.text = m.mark := congrArg Form.text hw
    obtain ⟨c, cs, hmark, hc, -⟩ := m.isWord_mark.exists_cons
    refine ⟨.parted (congrArg Form.kind hbang) (congrArg Form.text hbang) (fun t ht => ⟨?_, ?_⟩)
      (congrArg Form.kind hw) (by rw [htext, m.mark_important])
      (Token.unmarked_of_cons (by rw [htext, hmark]) (isBlank_of_isAlphanum hc)
        (ne_of_isAlphanum hc (by decide))), iff_of_false (by simp) hinside⟩
    · obtain ⟨f, hf, hkind, -⟩ := kind_of_mem hgs ht
      rw [Token.isGap_iff, hkind]
      exact hgaps f hf
    · exact htidy t (by simp [ht])

theorem spells_of_forms (hgaps : ∀ f ∈ gaps, f.kind = .space ∨ f.kind = .comment)
    (htrail : ∀ f ∈ trail, f.kind = .space ∨ f.kind = .comment)
    (hlex : (lex false m.behind).1.map Token.form = trail) (htidy : ∀ t ∈ ts, t.Tidy)
    (h : ts.map Token.form = m.forms gaps trail) :
    ∃ p c b value mark behind, ts = p :: c :: b :: (value ++ (mark ++ behind)) ∧
      m.Spells p c b value mark behind := by
  obtain ⟨p, back, rfl, hp, hback⟩ := List.map_eq_cons_iff.mp h
  obtain ⟨c, back, rfl, hc, hback⟩ := List.map_eq_cons_iff.mp hback
  obtain ⟨b, back, rfl, hb, hback⟩ := List.map_eq_cons_iff.mp hback
  obtain ⟨value, back, rfl, hvalue, hback⟩ := List.map_eq_append_iff.mp hback
  obtain ⟨mark, behind, rfl, hmark, hbehind⟩ := List.map_eq_append_iff.mp hback
  obtain ⟨hismark, hlength⟩ := isMark_of_forms hgaps (fun t ht => htidy t (by simp [ht])) hmark
  refine ⟨p, c, b, value, mark, behind, rfl, hp, congrArg Form.kind hc, congrArg Form.kind hb,
    spaced_of_forms m.value_ne (fun t ht => htidy t (by simp [ht])) hvalue, ?_,
    toList_join_dropLast m.value_ne m.value_words hvalue, hismark, hlength,
    fun t ht => ⟨?_, htidy t (by simp [ht])⟩, ?_⟩
  · rw [← List.length_map (f := Token.form), hvalue, length_spaced]
  · obtain ⟨f, hf, hkind, -⟩ := kind_of_mem hbehind ht
    rw [Token.isGap_iff, hkind]
    exact htrail f hf
  · rw [← List.length_map (f := Token.form), hbehind, ← hlex, List.length_map]

/-- The tokens of the text are found where it stands in front of a semicolon or a brace. -/
theorem exists_spells (htext : Token.join ts = m.text) {words : List String} {offset : Nat}
    {rest : List Char} {us : List Token}
    (hlex : lexFrom false words offset (m.text.toList ++ rest) = (ts ++ us, none))
    (hrest : ∀ c ∈ rest.head?, endsWord c = true ∧ isSpace c = false) :
    ∃ p c b value mark behind, ts = p :: c :: b :: (value ++ (mark ++ behind)) ∧
      m.Spells p c b value mark behind := by
  obtain ⟨gaps, hgaps, hgapkinds, hgapsfit⟩ := m.inside_gap.exists_forms
  obtain ⟨trail, htrail, htrailkinds, htrailfit⟩ := m.behind_gap.exists_forms
  obtain ⟨ts', words', offset', hforms, hlex'⟩ := lexFrom_join_append
    (m.fitBefore_forms hgaps hgapsfit htrail htrailfit hrest) words offset
  have htidy : ∀ t ∈ ts ++ us, t.Tidy := by
    have htidy := lexFrom_tidy words offset (m.text.toList ++ rest)
    rwa [hlex] at htidy
  rw [m.join_forms hgaps htrail, hlex] at hlex'
  have hspelled : ∀ t ∈ ts ++ us, t.Spelled := fun t ht => (htidy t ht).spelled
  -- Both lists spell the same text and begin one and the same reading, so they are equal.
  have hts : ts' = ts := by
    refine Token.eq_of_join_eq (Prod.mk.inj hlex').1 ?_ hspelled
    rw [htext, ← join_map_form, hforms, m.join_forms hgaps htrail]
  have hbehind : (lex false m.behind).1.map Token.form = trail := by
    rw [← String.toList_inj.mp htrail]
    obtain ⟨as, _, _, has, hall⟩ := lexFrom_join_append (htrailfit [] nofun) [] 0
    rw [lexFrom, List.append_nil, List.append_nil] at hall
    rw [lex, hall, has]
  exact spells_of_forms hgapkinds htrailkinds hbehind (fun t ht => htidy t (by simp [ht]))
    (hts ▸ hforms)

end MarkedDeclaration

/-! ### The statement -/

namespace MarkedDeclaration

/-- The statement makes a declaration with the property. If the mark is found, the value is without
the white space at its end. -/
def ReadAs (m : MarkedDeclaration) (found : Prop) (s : Statement) : Prop :=
  ∃ parts, s.effect = some (.leaf (Statement.declarationCore parts)) ∧ parts.prop = m.prop ∧
    (parts.important = true ↔ found) ∧
    (parts.important = true → parts.value.toList = trimEnd (spacedText m.value).toList)

namespace Spells

variable {m : MarkedDeclaration} {p c b e : Token} {value mark behind rest : List Token}

theorem isWord (h : m.Spells p c b value mark behind) : p.kind = .word ∧ IsWord p.text := by
  refine ⟨congrArg Form.kind h.prop, ?_⟩
  rw [show p.text = m.prop from congrArg Form.text h.prop]
  exact m.prop_word

theorem quiet (h : m.Spells p c b value mark behind) : Quiet (b :: (value ++ mark)) := by
  refine List.forall_mem_cons.mpr ⟨.inr (isGap_of_space h.space), fun t ht => ?_⟩
  rcases List.mem_append.mp ht with ht | ht
  · exact (h.spaced.quiet t ht).imp id fun hspace => isGap_of_space hspace.1
  · exact h.isMark.quiet t ht

theorem readDeclaration_eq (h : m.Spells p c b value mark behind) {trail : List Token}
    (htrail : ∀ t ∈ trail, t.isGap = true ∧ t.Tidy) :
    ∃ parts, readDeclaration false (p :: c :: b :: (value ++ (mark ++ trail))) = .ok parts ∧
      parts.prop = m.prop ∧
      (parts.important = true ↔ m.inside = "" ∨ trail.length < 2 * m.value.length) ∧
      (parts.important = true → parts.value.toList = trimEnd (spacedText m.value).toList) := by
  obtain ⟨parts, hread, hprop, himportant, hvalue⟩ :=
    readDeclaration_of_isMark h.prop m.prop_word h.colon h.space h.spaced h.isMark htrail
  refine ⟨parts, hread, hprop, ?_, fun hfound => ?_⟩
  · rw [himportant, h.mark_length, h.value_length]
  · rw [hvalue hfound, h.value_text]

/-- In front of a semicolon, what is behind the mark belongs to the declaration. -/
theorem nextStatement_semicolon (h : m.Spells p c b value mark behind) (he : e.kind = .semicolon) :
    ∃ s, nextStatement none p (c :: b :: (value ++ (mark ++ behind)) ++ e :: rest) =
        .ok (s, rest) ∧
      m.ReadAs (m.inside = "" ∨ (lex false m.behind).1.length < 2 * m.value.length) s := by
  obtain ⟨parts, hread, hprop, himportant, hvalue⟩ := h.readDeclaration_eq h.gaps
  have hquiet : Quiet (b :: (value ++ (mark ++ behind))) := by
    intro t ht
    rw [← List.append_assoc, ← List.cons_append, List.mem_append] at ht
    exact ht.elim (h.quiet t) fun ht => .inr (h.gaps t ht).1
  have hnext := @nextStatement_declaration _ _ rest [] _ _ h.isWord.1 h.isWord.2
    (List.forall_mem_nil _) h.colon hquiet he
  rw [h.behind_length] at himportant
  refine ⟨_, hnext, parts, ?_, hprop, himportant, hvalue⟩
  have hfree : Statement.withoutSemicolon (p :: c :: b :: (value ++ (mark ++ behind)) ++ [e]) =
      p :: c :: b :: (value ++ (mark ++ behind)) := by
    rw [Statement.withoutSemicolon, List.getLast?_concat, List.dropLast_concat]
    simp [he]
  show Statement.effect (.declaration false (p :: c :: b :: (value ++ (mark ++ behind)) ++ [e])) = _
  rw [Statement.effect, hfree, hread]

/-- At the end of a block, what is behind the mark is left. -/
theorem nextStatement_closeCurly (h : m.Spells p c b value mark behind)
    (he : e.kind = .closeCurly) :
    ∃ s, nextStatement none p (c :: b :: (value ++ (mark ++ behind)) ++ e :: rest) =
        .ok (s, behind ++ e :: rest) ∧ m.ReadAs True s := by
  obtain ⟨parts, hread, hprop, himportant, hvalue⟩ := h.readDeclaration_eq (List.forall_mem_nil _)
  have hlength : ([] : List Token).length < 2 * m.value.length := by
    have hpos := List.length_pos_iff.mpr m.value_ne
    rw [List.length_nil]
    omega
  rw [iff_true_intro hlength, or_true] at himportant
  -- Gaps in front of the brace are given back, so nothing stands behind the mark.
  have hends : EndsBlock (behind ++ e :: rest) := by
    have hstop : ¬e.isGap = true := by
      rw [Token.isGap_iff, he]
      decide
    rw [EndsBlock, List.dropWhile_append_of_pos fun t ht => (h.gaps t ht).1,
      List.dropWhile_cons_of_neg hstop]
    rintro d ⟨⟩
    exact he
  have hlast : EndsWithWord (b :: (value ++ mark)) := by
    rw [← List.cons_append]
    exact h.isMark.endsWithWord.append _
  have hnext := @nextStatement_openDeclaration _ _ _ [] _ h.isWord.1 h.isWord.2
    (List.forall_mem_nil _) h.colon h.quiet hlast hends
  have hsplit : c :: b :: (value ++ (mark ++ behind)) ++ e :: rest =
      [] ++ c :: (b :: (value ++ mark) ++ (behind ++ e :: rest)) := by simp
  rw [hsplit]
  refine ⟨_, hnext, parts, ?_, hprop, himportant, hvalue⟩
  have hfree : Statement.withoutSemicolon (p :: ([] ++ c :: b :: (value ++ mark))) =
      p :: c :: b :: (value ++ (mark ++ [])) := by
    obtain ⟨front, last, hfront, hword⟩ := hlast.append [p, c]
    rw [List.nil_append, List.append_nil]
    rw [List.cons_append, List.singleton_append] at hfront
    rw [Statement.withoutSemicolon, hfront, List.getLast?_concat]
    simp [hword]
  rw [Statement.effect, hfree, hread]

end Spells

end MarkedDeclaration

/-! ### Declarations in a stylesheet -/

/-- The tokens `ds` stand in a text where a statement starts: behind the statements `before`, and in
front of a semicolon or a closing brace. The text around them can be read, and its other statements
are `after`. -/
structure DeclarationAt (css : String) (before : List Statement) (ds : List Token) (e : Token)
    (rest : List Token) (after : List Statement) : Prop where
  complete : (lex false css).2 = none
  reads : ReadTo (lex false css).1 before (ds ++ e :: rest)
  ends : e.kind = .semicolon ∨ e.kind = .closeCurly
  readable : statementsFrom none (e :: rest) = (after, none)
  balanced : (before ++ after).foldlM Statement.level? 0 = some 0

namespace MarkedDeclaration

variable {m : MarkedDeclaration} {css : String} {before after : List Statement}
  {ds rest : List Token} {e : Token}

theorem exists_spells_of_declarationAt (h : DeclarationAt css before ds e rest after)
    (htext : Token.join ds = m.text) :
    ∃ p c b value mark behind, ds = p :: c :: b :: (value ++ (mark ++ behind)) ∧
      m.Spells p c b value mark behind := by
  have hlex : lex false css =
      (before.flatMap Statement.tokens ++ (ds ++ e :: rest), none) :=
    Prod.ext h.reads.tokens_append.symm h.complete
  have hspelled : e.Spelled := lex_spelled css e (by rw [hlex]; simp)
  obtain ⟨cs, -, hback⟩ := lexFrom_eq_append hlex
  have hchars : m.text.toList ++ (Token.join (e :: rest)).toList = cs := by
    have hjoin := join_lexFrom false _ _ cs (by rw [hback])
    rw [hback, Token.join_append, htext] at hjoin
    rw [← String.toList_append, hjoin, String.toList_ofList]
  refine exists_spells htext (hchars ▸ hback) ?_
  rw [Token.join_cons, String.toList_append]
  -- What follows is a semicolon or a brace, and neither continues a word.
  rcases h.ends with hkind | hkind
  · rw [hspelled.text_of_semicolon hkind]
    rintro d ⟨⟩
    decide
  · rw [hspelled.text_of_closeCurly hkind]
    rintro d ⟨⟩
    decide

/-- White space and comments close no block and open none. -/
theorem foldlM_level?_gaps {gs : List Token} (hgs : Gaps gs) (ss : List Statement) (n : Nat) :
    (gs.map gapStatement ++ ss).foldlM Statement.level? n = ss.foldlM Statement.level? n := by
  induction gs with
  | nil => rfl
  | cons g gs ih =>
    obtain ⟨-, hgs⟩ := List.forall_mem_cons.mp hgs
    have hlevel : (gapStatement g).level? n = some n := by
      rw [gapStatement]
      split_ifs <;> rfl
    rw [List.map_cons, List.cons_append, List.foldlM_cons, hlevel]
    exact ih hgs

/-- The statement that the tokens are, and those behind it. -/
theorem exists_statement (h : DeclarationAt css before ds e rest after)
    (htext : Token.join ds = m.text) :
    ∃ s behind, statementsFrom none (lex false css).1 = (before ++ s :: behind, none) ∧
      (∀ n, behind.foldlM Statement.level? n = after.foldlM Statement.level? n) ∧
      m.ReadAs (m.inside = "" ∨ e.kind = .closeCurly ∨
        (lex false m.behind).1.length < 2 * m.value.length) s := by
  obtain ⟨p, c, b, value, mark, trail, rfl, hspells⟩ := exists_spells_of_declarationAt h htext
  have htrail : Gaps trail := fun t ht => (hspells.gaps t ht).1
  rcases h.ends with he | he
  · -- Without the declaration, the semicolon is a statement of its own.
    have hfree : nextStatement none e rest = .ok (.semicolon e, rest) := by
      rw [nextStatement, he]
    have hafter := h.readable
    rw [statementsFrom_of_ok hfree] at hafter
    obtain ⟨rfl, hnone⟩ := Prod.mk.inj hafter
    obtain ⟨s, hnext, hs⟩ := @Spells.nextStatement_semicolon _ _ _ _ _ _ _ _ rest hspells he
    refine ⟨s, (statementsFrom none rest).1, ?_, fun n => rfl, ?_⟩
    · have hread := (h.reads.trans (.cons hnext (.refl rest))).statementsFrom_eq
      rw [hread, hnone, List.append_assoc, List.singleton_append]
    · simpa [he] using hs
  · obtain ⟨s, hnext, hs⟩ := @Spells.nextStatement_closeCurly _ _ _ _ _ _ _ _ rest hspells he
    refine ⟨s, trail.map gapStatement ++ after, ?_, foldlM_level?_gaps htrail after, ?_⟩
    · have hread := (h.reads.trans (.cons hnext (.of_gaps htrail (e :: rest)))).statementsFrom_eq
      rw [hread, h.readable, List.append_assoc, List.cons_append]
    · simpa [he] using hs

/-- **Marks of importance with white space and comments.** A stylesheet with such a declaration is
read, and the node for the declaration comes behind those for what is in front of it. The mark is
found exactly when nothing stands inside of it, or the block ends behind it, or there is less white
space and fewer comments behind it than there are tokens in the value. Then the value has no white
space at its end. -/
theorem important_iff {w w' : Workspace} {raw : String} {options : ParseOptions} {input : Input}
    (hinput : Input.create w raw options = (.ok input, w'))
    (h : DeclarationAt input.css before ds e rest after) (htext : Token.join ds = m.text) :
    ∃ t n value important, (parse w raw options).1 = .ok t ∧
      t.get? ⟨(before.filterMap Statement.made?).length + 1⟩ = some n ∧
      n.content = .declaration m.prop value important ∧
      (important = true ↔ m.inside = "" ∨ e.kind = .closeCurly ∨
        (lex false m.behind).1.length < 2 * m.value.length) ∧
      (important = true → value.toList = trimEnd (spacedText m.value).toList) := by
  obtain ⟨s, behind, hss, hlevels, parts, heffect, hprop, himportant, hvalue⟩ :=
    exists_statement h htext
  have hlex : lex false input.css = ((lex false input.css).1, none) := Prod.ext rfl h.complete
  -- A declaration neither opens nor closes a block.
  have hbalanced : (before ++ s :: behind).foldlM Statement.level? 0 = some 0 := by
    have hleaf : ∀ n, s.level? n = some n := fun n => by rw [Statement.level?, heffect]; rfl
    rw [← h.balanced, List.foldlM_append, List.foldlM_append]
    refine congrArg _ (funext fun n => ?_)
    rw [List.foldlM_cons, hleaf]
    exact hlevels n
  obtain ⟨b, hb⟩ := (@isOk_outlineText_iff input.position _ _ _ hlex hss).mpr hbalanced
  have hparse : (parse w raw options).1 = .ok (Tree.ofDraft input b) := by
    rw [parse, hinput]
    dsimp only
    rw [Input.tree, hb]
  obtain ⟨_, _, _, -, hcss⟩ := create_eq_ok hinput
  obtain ⟨tokens, ss, hlex', hss', hcore⟩ := core_of_parse hparse
  rw [show (Input.stripBom raw).1 = input.css by rw [hcss]; rfl, hlex] at hlex'
  obtain ⟨rfl, -⟩ := Prod.mk.inj hlex'
  obtain ⟨rfl, -⟩ := Prod.mk.inj (hss.symm.trans hss')
  have hmade : s.made? = some (Statement.declarationCore parts) := by
    rw [Statement.made?, heffect]
    rfl
  have hnode := hcore ⟨(before.filterMap Statement.made?).length + 1⟩
  rw [List.filterMap_append, List.filterMap_cons_some hmade, List.getElem?_cons_succ,
    List.getElem?_append_right (Nat.le_refl _), Nat.sub_self, List.getElem?_cons_zero] at hnode
  obtain ⟨n, hn, hdetail⟩ := Option.map_eq_some_iff.mp hnode
  refine ⟨_, n, parts.value, parts.important, hparse, hn, ?_, himportant, hvalue⟩
  rw [← hprop]
  exact congrArg Detail.content hdetail

/-- The only declaration of a stylesheet with one rule. -/
theorem declarationAt_of_rule {head brace e close : Token}
    (hlex : lex false css = (head :: brace :: (ds ++ [e, close]), none)) (hhead : head.kind = .word)
    (hword : IsWord head.text) (hbrace : brace.kind = .openCurly) (he : e.kind = .semicolon)
    (hclose : close.kind = .closeCurly) :
    DeclarationAt css [.rule [head] brace] ds e [close] [.semicolon e, .close close] where
  complete := by rw [hlex]
  reads := by
    rw [hlex]
    exact .cons (@nextStatement_rule _ [] _ _ hhead hword (List.forall_mem_nil _) hbrace) (.refl _)
  ends := .inl he
  readable := by
    have hfree : nextStatement none e [close] = .ok (.semicolon e, [close]) := by
      rw [nextStatement, he]
    have hlast : nextStatement none close [] = .ok (.close close, []) := by
      rw [nextStatement, hclose]
    rw [statementsFrom_of_ok hfree, statementsFrom_of_ok hlast, statementsFrom]
    rfl
  balanced := rfl

/-- The mark with a blank inside of it and a comment behind it, when the value has two words. -/
theorem important_of_two_words :
    ∃ t n, (parse {} "a\x7bp: b c ! Important /**/;\x7d" {}).1 = .ok t ∧ t.get? ⟨2⟩ = some n ∧
      n.content = .declaration "p" "b c" true := by
  let m : MarkedDeclaration :=
    { prop := "p", value := [("b", " "), ("c", " ")], inside := " ", mark := "Important"
      behind := " /**/", prop_word := by decide, value_ne := by decide
      value_words := by decide +kernel
      inside_gap := .space rfl .nil, mark_important := by decide
      behind_gap := .space rfl (@GapText.comment [] [] rfl .nil) }
  have hlex : lex false "a\x7bp: b c ! Important /**/;\x7d" = (⟨.word, "a", 0⟩ ::
      ⟨.openCurly, "\x7b", 1⟩ :: ([⟨.word, "p", 2⟩, ⟨.colon, ":", 3⟩, ⟨.space, " ", 4⟩,
        ⟨.word, "b", 5⟩, ⟨.space, " ", 6⟩, ⟨.word, "c", 7⟩, ⟨.space, " ", 8⟩, ⟨.word, "!", 9⟩,
        ⟨.space, " ", 10⟩, ⟨.word, "Important", 11⟩, ⟨.space, " ", 20⟩, ⟨.comment, "/**/", 21⟩] ++
        [⟨.semicolon, ";", 25⟩, ⟨.closeCurly, "\x7d", 26⟩]), none) := by
    decide +kernel
  have hsite := declarationAt_of_rule hlex rfl (by decide) rfl rfl rfl
  obtain ⟨input, w', hinput, hcss⟩ : ∃ input w',
      Input.create {} "a\x7bp: b c ! Important /**/;\x7d" {} = (.ok input, w') ∧
        input.css = "a\x7bp: b c ! Important /**/;\x7d" := ⟨_, _, rfl, by decide +kernel⟩
  obtain ⟨t, n, value, important, hparse, hn, hcontent, himportant, hvalue⟩ :=
    important_iff (m := m) hinput (hcss ▸ hsite) (by decide +kernel)
  -- Two words in the value are enough for a trail of two tokens.
  have hfound : important = true := himportant.mpr (.inr (.inr (by decide +kernel)))
  have htrim : value = "b c" := by
    rw [← String.toList_inj, hvalue hfound]
    decide +kernel
  exact ⟨t, n, hparse, hn, by rw [hcontent, hfound, htrim]⟩

/-- With one word in the value, the comment hides the mark. -/
theorem mark_hidden_by_comment :
    ¬ ∀ (m : MarkedDeclaration) (w w' : Workspace) (raw : String) (options : ParseOptions)
      (input : Input) (before after : List Statement) (ds rest : List Token) (e : Token),
      Input.create w raw options = (.ok input, w') →
      DeclarationAt input.css before ds e rest after → Token.join ds = m.text →
      ∃ t n value, (parse w raw options).1 = .ok t ∧
        t.get? ⟨(before.filterMap Statement.made?).length + 1⟩ = some n ∧
        n.content = .declaration m.prop value true ∧
        value.toList = trimEnd (spacedText m.value).toList := by
  intro h
  have hlex : lex false "a\x7bp: b ! important /**/;\x7d" = (⟨.word, "a", 0⟩ ::
      ⟨.openCurly, "\x7b", 1⟩ :: ([⟨.word, "p", 2⟩, ⟨.colon, ":", 3⟩, ⟨.space, " ", 4⟩,
        ⟨.word, "b", 5⟩, ⟨.space, " ", 6⟩, ⟨.word, "!", 7⟩, ⟨.space, " ", 8⟩,
        ⟨.word, "important", 9⟩, ⟨.space, " ", 18⟩, ⟨.comment, "/**/", 19⟩] ++
        [⟨.semicolon, ";", 23⟩, ⟨.closeCurly, "\x7d", 24⟩]), none) := by
    decide +kernel
  have hsite := declarationAt_of_rule hlex rfl (by decide) rfl rfl rfl
  obtain ⟨input, w', hinput, hcss⟩ : ∃ input w',
      Input.create {} "a\x7bp: b ! important /**/;\x7d" {} = (.ok input, w') ∧
        input.css = "a\x7bp: b ! important /**/;\x7d" := ⟨_, _, rfl, by decide +kernel⟩
  obtain ⟨t, n, value, hparse, hn, hcontent, -⟩ := h
    { prop := "p", value := [("b", " ")], inside := " ", mark := "important", behind := " /**/"
      prop_word := by decide, value_ne := by decide, value_words := by decide +kernel
      inside_gap := .space rfl .nil, mark_important := by decide
      behind_gap := .space rfl (@GapText.comment [] [] rfl .nil) }
    _ _ _ _ _ _ _ _ _ _ hinput (hcss ▸ hsite) (by decide +kernel)
  rw [Tree.parse_sheet (by decide +kernel)] at hparse
  cases hparse
  -- With one word the same trail hides the mark.
  have hread : ∀ n ∈ (Tree.sheet "a\x7bp: b ! important /**/;\x7d").get? ⟨2⟩,
      n.content = .declaration "p" "b ! important " false := by
    decide +kernel
  rw [hread n hn] at hcontent
  cases hcontent

end MarkedDeclaration

end Stylesheet
