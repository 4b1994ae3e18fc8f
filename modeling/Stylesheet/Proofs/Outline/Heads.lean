import Stylesheet.Proofs.Chain.Ending
import Stylesheet.Proofs.Statement.Ahead
import Stylesheet.Proofs.Statement.Unplaced
import Stylesheet.Proofs.Usual.Heads
import Stylesheet.Proofs.Usual.Statements

/-!
# Another head for an at-rule

An at-rule of a stylesheet stands behind other statements, and something ends its head (`AtRuleAt`).
When its parameters give way to a word, all around it is read as before: the statements in front of
it do not know what follows them, and the text behind the head is cut into the same tokens
(`AtRuleAt.exists_lex`), which fall into statements that do the same (`AtRuleAt.exists_statements`).

So the stylesheet can be read again, and only the node of the at-rule says something else
(`AtRuleAt.parse_head`). It has its name and the word when white space or a comment stands between
them. When nothing does, the word is part of the name.
-/

namespace Stylesheet

open Text Form

/-! ### The place of an at-rule -/

/-- The tokens behind the head of an at-rule, from the white space and the comments on that stand
behind its parameters. -/
def behindHead (params : List Token) (ending : AtRuleEnd) (rest : List Token) : List Token :=
  (cutGaps params).2 ++ (ending.tokens ++ rest)

/-- An at-rule stands in a text, behind the statements `before`. What is left behind it are the
tokens `rest`, and they are the statements `after`. -/
structure AtRuleAt (css : String) (before : List Statement) (name : Token) (params : List Token)
    (ending : AtRuleEnd) (rest : List Token) (after : List Statement) : Prop where
  complete : (lex false css).2 = none
  reads : ReadTo (lex false css).1 before (name :: (params ++ ending.tokens ++ rest))
  next : nextStatement none name (params ++ ending.tokens ++ rest) =
    .ok (.atRule name params ending, rest)
  readable : statementsFrom none rest = (after, none)

/-- What a map gives for a member of a list, and those in front of it. -/
theorem exists_of_getElem?_filterMap {α β : Type} {f : α → Option β} {l : List α} {i : Nat} {b : β}
    (h : (l.filterMap f)[i]? = some b) :
    ∃ as a bs, l = as ++ a :: bs ∧ f a = some b ∧ (as.filterMap f).length = i := by
  obtain ⟨hlt, hb⟩ := List.getElem?_eq_some_iff.mp h
  have hsplit : l.filterMap f = (l.filterMap f).take i ++ b :: (l.filterMap f).drop (i + 1) := by
    rw [← hb, List.cons_getElem_drop_succ, List.take_append_drop]
  obtain ⟨front, back, rfl, hfront, hback⟩ := List.filterMap_eq_append_iff.mp hsplit
  obtain ⟨nones, a, bs, rfl, hnones, ha, -⟩ := List.filterMap_eq_cons_iff.mp hback
  refine ⟨front ++ nones, a, bs, by simp, ha, ?_⟩
  rw [List.filterMap_append, List.filterMap_eq_nil_iff.mpr hnones, List.append_nil, hfront,
    List.length_take, Nat.min_eq_left hlt.le]

namespace AtRuleAt

variable {css : String} {before after : List Statement} {name : Token} {params rest : List Token}
  {ending : AtRuleEnd}

/-- An at-rule that is a node stands in the text. -/
theorem of_made {tokens : List Token} {ss : List Statement} {i : Nat} {d : Detail}
    (hlex : lex false css = (tokens, none)) (hss : statementsFrom none tokens = (ss, none))
    (hd : (ss.filterMap Statement.made?)[i]? = some d) (hkind : d.kind = .atRule) :
    ∃ before name params ending rest after, AtRuleAt css before name params ending rest after ∧
      ss = before ++ .atRule name params ending :: after ∧
      (Statement.atRule name params ending).made? = some d ∧
      (before.filterMap Statement.made?).length = i := by
  obtain ⟨before, s, after, rfl, hmade, hlength⟩ := exists_of_getElem?_filterMap hd
  obtain ⟨left, hread, hleft⟩ := ReadTo.of_statementsFrom hss
  cases left with
  | nil =>
    rw [statementsFrom] at hleft
    cases hleft
  | cons t ts =>
    obtain ⟨s', rest, more, hnext, hrest, hcons⟩ := statementsFrom_cons_eq hleft
    obtain ⟨rfl, rfl⟩ := List.cons.inj hcons
    have htokens := nextStatement_append hnext
    -- Of all statements that make a node, only this kind makes one that is an at-rule.
    cases s with
    | space _ | semicolon _ | close _ => cases hmade
    | comment _ | block _ | rule _ _ =>
      cases hmade
      cases hkind
    | declaration custom ds =>
      rw [Statement.made?, Statement.effect] at hmade
      cases hparts : readDeclaration custom (Statement.withoutSemicolon ds) <;>
        rw [hparts] at hmade <;> cases hmade
      cases hkind
    | atRule name params ending =>
      obtain ⟨rfl, rfl⟩ := List.cons.inj htokens
      exact ⟨before, name, params, ending, rest, after,
        ⟨by rw [hlex], by rw [hlex]; exact hread, hnext, hrest⟩, rfl, hmade, hlength⟩

theorem lex_eq (h : AtRuleAt css before name params ending rest after) :
    lex false css = (before.flatMap Statement.tokens ++
      name :: (params ++ ending.tokens ++ rest), none) :=
  Prod.ext h.reads.tokens_append.symm h.complete

theorem lex_eq_behindHead (h : AtRuleAt css before name params ending rest after) :
    lex false css = (before.flatMap Statement.tokens ++ name :: (cutGaps params).1 ++
      behindHead params ending rest, none) := by
  have hparams : params ++ ending.tokens ++ rest =
      (cutGaps params).1 ++ behindHead params ending rest := by
    rw [behindHead, ← List.append_assoc, ← List.append_assoc, cutGaps_append]
  rw [h.lex_eq, hparams, ← List.cons_append, List.append_assoc]

theorem statementsFrom_eq (h : AtRuleAt css before name params ending rest after) :
    statementsFrom none (lex false css).1 =
      (before ++ .atRule name params ending :: after, none) := by
  rw [h.reads.statementsFrom_eq, statementsFrom_of_ok h.next, h.readable]

theorem fits (h : AtRuleAt css before name params ending rest after) :
    (Statement.atRule name params ending).Fits := by
  refine nextStatement_fits (fun u hu => lex_spelled css u ?_) h.next
  rw [h.lex_eq]
  exact List.mem_append_right _ hu

theorem cutParams_eq (h : AtRuleAt css before name params ending rest after) :
    name.text ≠ "@" ∧ cutParams [] (params ++ ending.tokens ++ rest) = (params, ending, rest) := by
  have hnext := h.next
  rw [nextStatement_of_atWord h.fits.2.1] at hnext
  split_ifs at hnext with hname
  obtain ⟨hs, hrest⟩ := Prod.mk.inj (Except.ok.inj hnext)
  obtain ⟨-, hparams, hending⟩ := Statement.atRule.inj hs
  exact ⟨fun heq => hname (by rw [heq]; rfl), Prod.ext hparams (Prod.ext hending hrest)⟩

/-! ### What stands around it -/

theorem text_name (h : AtRuleAt css before name params ending rest after) :
    ∃ chars, name.text.toList = '@' :: chars ∧ ∀ c ∈ chars, endsAtWord c = false := by
  have hmade := lex_madeOf css name (by rw [h.lex_eq]; simp)
  rwa [h.fits.2.1] at hmade

theorem gapText {ts : List Token} (h : AtRuleAt css before name params ending rest after)
    (hts : ts ⊆ params) (hgaps : Gaps ts) : GapText (Token.join ts).toList := by
  refine .of_tokens hgaps fun t ht => lex_madeOf css t ?_
  rw [h.lex_eq]
  simp [hts ht]

/-- The text behind the head may stand behind a head. -/
theorem endsHead (h : AtRuleAt css before name params ending rest after) :
    EndsHead (Token.join (behindHead params ending rest)).toList := by
  rw [behindHead, Token.join_append, String.toList_append]
  refine ⟨_, _, rfl, h.gapText ?_ fun t ht => ?_, ?_⟩
  · conv_rhs => rw [← cutGaps_append params]
    exact List.subset_append_right _ _
  · exact List.mem_takeWhile_imp (List.mem_reverse.mp ht)
  · have hfits := h.fits.2.2.2
    -- Behind the gap comes the end of the text, or one of three marks.
    cases ending with
    | textEnd =>
      have hrest := cutParams_of_textEnd (show (cutParams [] _).2.1 = .textEnd by
        rw [h.cutParams_eq.2])
      rw [h.cutParams_eq.2] at hrest
      obtain rfl : rest = [] := hrest
      rintro c ⟨⟩
    | semicolon t =>
      rw [AtRuleEnd.tokens, List.singleton_append, Token.join_cons, String.toList_append,
        show t.text = ";" from hfits]
      rintro c ⟨⟩
      exact .inl rfl
    | block t =>
      rw [AtRuleEnd.tokens, List.singleton_append, Token.join_cons, String.toList_append,
        show t.text = "\x7b" from hfits]
      rintro c ⟨⟩
      exact .inr (.inl rfl)
    | close t =>
      rw [AtRuleEnd.tokens, List.singleton_append, Token.join_cons, String.toList_append,
        show t.text = "\x7d" from hfits]
      rintro c ⟨⟩
      exact .inr (.inr rfl)

end AtRuleAt

/-- What ends the head of an at-rule ends it where no bracket is open. -/
theorem cutParams_end {expected : List TokenKind} {ts params rest : List Token}
    {ending : AtRuleEnd} (h : cutParams expected ts = (params, ending, rest)) :
    cutParams [] (ending.tokens ++ rest) = ([], ending, rest) := by
  -- The end was found with nothing awaited, so it is found again from there.
  induction ts generalizing expected params with
  | nil =>
    cases h
    rfl
  | cons t ts ih =>
    rw [cutParams] at h
    dsimp only at h
    cases hend : (if (expectedAfter expected t.kind).isEmpty then atRuleEnd? t else none) with
    | none =>
      rw [hend] at h
      obtain ⟨-, hrest⟩ := Prod.mk.inj h
      exact ih (Prod.ext rfl hrest)
    | some e =>
      rw [hend] at h
      cases h
      split_ifs at hend
      have hkind := hend
      rw [atRuleEnd?] at hkind
      split at hkind <;> cases hkind
      all_goals
        rename_i ht
        rw [AtRuleEnd.tokens, List.singleton_append, cutParams, ht]
        simp [expectedAfter, closingKind?, hend]

namespace AtRuleAt

variable {css : String} {before after : List Statement} {name : Token} {params rest : List Token}
  {ending : AtRuleEnd}

theorem cutParams_behindHead (h : AtRuleAt css before name params ending rest after) :
    cutParams [] (behindHead params ending rest) = ((cutGaps params).2, ending, rest) := by
  have hgaps : Quiet (cutGaps params).2 := fun t ht =>
    .inr (List.mem_takeWhile_imp (List.mem_reverse.mp ht))
  rw [behindHead, cutParams_quiet_append hgaps, cutParams_end h.cutParams_eq.2, List.append_nil]

/-! ### Reading another head -/

/-- With another head, the tokens around it are the same, up to their places. -/
theorem exists_lex (h : AtRuleAt css before name params ending rest after) (hurls : UrlsLocal css)
    {chars : List Char} {head : List Form}
    (hhead : (join head).toList = '@' :: chars)
    (hfit : FitBefore (Token.join (behindHead params ending rest)).toList head) {css' : String}
    (hcss : css' = Token.join (before.flatMap Statement.tokens) ++ (join head ++
      Token.join (behindHead params ending rest))) (hurls' : UrlsLocal css') :
    ∃ ts back, ts.map Token.form = head ∧
      back.map Token.unplaced = (behindHead params ending rest).map Token.unplaced ∧
      lex false css' = (before.flatMap Statement.tokens ++ (ts ++ back), none) := by
  obtain ⟨nameChars, hname, -⟩ := h.text_name
  have hlex := h.lex_eq
  have hclose := h.reads.parensClose (List.cons_ne_nil _ _)
  -- Both texts go on with an at-sign behind the statements in front.
  have htext : css.toList = (Token.join (before.flatMap Statement.tokens)).toList ++
      '@' :: (nameChars ++ (Token.join (params ++ ending.tokens ++ rest)).toList) := by
    have hjoin := join_lex h.complete
    rw [hlex, Token.join_append, Token.join_cons] at hjoin
    rw [← hjoin, String.toList_append, String.toList_append, hname, List.cons_append]
  have htext' : css'.toList = (Token.join (before.flatMap Statement.tokens)).toList ++
      '@' :: (chars ++ (Token.join (behindHead params ending rest)).toList) := by
    rw [hcss, String.toList_append, String.toList_append, hhead, List.cons_append]
  obtain ⟨ts, words, offset, hforms, hlexhead⟩ := lexFrom_join_append hfit
    (wordsBehind [] (before.flatMap Statement.tokens))
    (0 + (Token.join (before.flatMap Statement.tokens)).utf8ByteSize)
  rw [hhead, List.cons_append] at hlexhead
  rw [lex, htext] at hlex
  have hlex' := lexFrom_ahead hclose hlex
    (chars ++ (Token.join (behindHead params ending rest)).toList)
  rw [hlexhead, ← htext', ← lex] at hlex'
  -- Behind the head, both texts are the same.
  have hsplit := h.lex_eq_behindHead
  have hall := join_lex h.complete
  rw [hsplit, Token.join_append] at hall
  obtain ⟨hback, hstop⟩ := hurls.back_eq hurls' hsplit (by rw [hlex', List.append_assoc])
    (by rw [← hall, String.toList_append]) (by
      rw [htext', ← List.cons_append, ← hhead, Token.join_append, ← join_map_form ts, hforms,
        String.toList_append, List.append_assoc])
    fun hparen => absurd hparen h.endsHead.head?_ne
  refine ⟨ts, _, hforms, hback.symm, ?_⟩
  rw [hlex']
  cases hnone : (lexFrom false words offset
      (Token.join (behindHead params ending rest)).toList).2 with
  | none => rfl
  | some u =>
    rw [hnone] at hstop
    cases hstop

/-- With another head, the statements around the at-rule do the same. -/
theorem exists_statements (h : AtRuleAt css before name params ending rest after) {name' : Token}
    (hname : name'.kind = .atWord) (hne : name'.text ≠ "@") {ts back : List Token} (hts : Quiet ts)
    (hback : back.map Token.unplaced = (behindHead params ending rest).map Token.unplaced) :
    ∃ gaps ending' after', statementsFrom none
        (before.flatMap Statement.tokens ++ name' :: (ts ++ back)) =
          (before ++ .atRule name' (ts ++ gaps) ending' :: after', none) ∧
      Gaps gaps ∧ ending'.unplaced = ending.unplaced ∧
      after'.map Statement.effect = after.map Statement.effect := by
  have hread := h.reads
  rw [show (lex false css).1 = _ from congrArg Prod.fst h.lex_eq] at hread
  have hcut := cutParams_unplaced [] back
  rw [hback, cutParams_unplaced, h.cutParams_behindHead] at hcut
  obtain ⟨hgaps, hcut⟩ := Prod.mk.inj hcut
  obtain ⟨hending, hrest⟩ := Prod.mk.inj hcut
  -- What follows the head is read as before, though its tokens stand elsewhere now.
  obtain ⟨after', hafter, heffects⟩ := exists_statements_alike h.readable hrest.symm
  have hnext : nextStatement none name' (ts ++ back) =
      .ok (.atRule name' (ts ++ (cutParams [] back).1) (cutParams [] back).2.1,
        (cutParams [] back).2.2) := by
    rw [nextStatement_of_atWord hname, if_neg (by simpa using hne), cutParams_quiet_append hts]
  refine ⟨(cutParams [] back).1, (cutParams [] back).2.1, after', ?_, ?_, hending.symm, heffects⟩
  · rw [(ReadTo.ahead h.fits.2.1 hread _).statementsFrom_eq, statementsFrom_of_ok hnext, hafter]
  · intro t ht
    have hmem := List.mem_map_of_mem (f := Token.unplaced) ht
    rw [← hgaps, List.mem_map] at hmem
    obtain ⟨u, hu, hunplaced⟩ := hmem
    rw [← Token.isGap_unplaced, ← hunplaced, Token.isGap_unplaced]
    exact List.mem_takeWhile_imp (List.mem_reverse.mp hu)

end AtRuleAt

/-! ### The node of the at-rule -/

/-- What an at-rule says is known by its name and its parameters. -/
theorem Statement.content_of_made {name : Token} {params : List Token} {ending : AtRuleEnd}
    {d : Detail} (h : (Statement.atRule name params ending).made? = some d) :
    d.content = (atRuleCore name params ending).content := by
  cases ending <;> cases h <;> rfl

theorem Statement.exists_made (name : Token) (params : List Token) (ending : AtRuleEnd) :
    ∃ d, (Statement.atRule name params ending).made? = some d := by
  cases ending <;> exact ⟨_, rfl⟩

/-- What ends an at-rule decides whether a block opens or closes. -/
theorem Statement.level?_atRule {name name' : Token} {params params' : List Token}
    {ending ending' : AtRuleEnd} (h : ending'.unplaced = ending.unplaced) (n : Nat) :
    (Statement.atRule name' params' ending').level? n =
      (Statement.atRule name params ending).level? n := by
  cases ending <;> cases ending' <;> first | rfl | cases h

/-- A head is a name with words, white space and comments behind it. -/
theorem exists_tokens_of_headForms {chars : List Char} {gap : List Form} {w : String}
    {ts : List Token} (h : ts.map Token.form = headForms chars gap w)
    (hgap : ∀ f ∈ gap, f.kind = .space ∨ f.kind = .comment) (hchars : chars ≠ []) :
    ∃ name qs, ts = name :: qs ∧ name.kind = .atWord ∧ name.text ≠ "@" ∧ Quiet qs := by
  -- The name is not empty, whatever follows it.
  have hne : ∀ more : List Char, String.ofList ('@' :: (chars ++ more)) ≠ "@" := by
    intro more heq
    have hlist := congrArg String.toList heq
    rw [String.toList_ofList] at hlist
    exact hchars (List.append_eq_nil_iff.mp (List.cons.inj hlist).2).1
  rw [headForms] at h
  split_ifs at h with hnil
  · obtain ⟨name, rfl, hname⟩ := List.map_eq_singleton_iff.mp h
    refine ⟨name, [], rfl, congrArg Form.kind hname, ?_, List.forall_mem_nil _⟩
    rw [show name.text = _ from congrArg Form.text hname]
    exact hne w.toList
  · obtain ⟨name, qs, rfl, hname, hqs⟩ := List.map_eq_cons_iff.mp h
    refine ⟨name, qs, rfl, congrArg Form.kind hname, ?_, fun t ht => ?_⟩
    · rw [show name.text = _ from congrArg Form.text hname]
      simpa using hne []
    · obtain ⟨f, hf, hkind, -⟩ := kind_of_mem hqs ht
      rw [Token.isGap_iff, hkind]
      rcases List.mem_append.mp hf with hf | hf
      · exact .inr (hgap f hf)
      · exact .inl (by rw [List.mem_singleton.mp hf]; rfl)

/-- The name and the word are found again when something stands between them. -/
theorem content_of_headForms {chars : List Char} {gap : List Form} {w : String} {name : Token}
    {ts gaps : List Token} (h : (name :: ts).map Token.form = headForms chars gap w)
    (hgap : ∀ f ∈ gap, f.kind = .space ∨ f.kind = .comment) (hgaps : Gaps gaps)
    (ending : AtRuleEnd) : (Statement.atRuleCore name (ts ++ gaps) ending).content =
      if gap = [] then .atRule (String.ofList chars ++ w) ""
      else .atRule (String.ofList chars) w := by
  rw [headForms] at h
  split_ifs at h ⊢ with hnil
  · obtain ⟨hname, hts⟩ := List.cons.inj h
    obtain rfl : ts = [] := List.map_eq_nil_iff.mp hts
    have htext : name.text = String.ofList ('@' :: (chars ++ w.toList)) := congrArg Form.text hname
    have hcut := cutGaps_append_gaps hgaps []
    rw [Statement.atRuleCore, hcut, htext, String.toList_ofList]
    simp [cutGaps, cleanField, cleanFrom]
  · obtain ⟨hname, hts⟩ := List.cons.inj h
    obtain ⟨gs, back, rfl, hgs, hback⟩ := List.map_eq_append_iff.mp hts
    obtain ⟨last, rfl, hlast⟩ := List.map_eq_singleton_iff.mp hback
    have htext : name.text = String.ofList ('@' :: chars) := congrArg Form.text hname
    have hkind : last.kind = .word := congrArg Form.kind hlast
    -- The tokens between the name and the word are dropped as a gap.
    have hlead : ∀ t ∈ gs, t.isGap = true := by
      intro t ht
      obtain ⟨f, hf, hfkind, -⟩ := kind_of_mem hgs ht
      rw [Token.isGap_iff, hfkind]
      exact hgap f hf
    have hcut := EndsWithWord.cutGaps_append ⟨gs, last, rfl, hkind⟩ gaps hgaps
    rw [Statement.atRuleCore, hcut, htext, String.toList_ofList]
    dsimp only
    rw [List.dropWhile_append_of_pos hlead,
      List.dropWhile_cons_of_neg (by rw [isGap_of_word hkind]; exact Bool.false_ne_true)]
    have hclean : cleanField false [last] = (w, none) := by
      rw [← show last.text = w from congrArg Form.text hlast]
      simp [cleanField, cleanFrom, hkind]
    rw [hclean]
    rfl

/-! ### Reading the stylesheet again -/

namespace AtRuleAt

variable {css : String} {before after : List Statement} {name : Token} {params rest : List Token}
  {ending : AtRuleEnd}

/-- The text of a stylesheet with another head for one of its at-rules is read. Only the node of the
at-rule says something else than before: it has its name and the word `p` when something stands
between them, and otherwise both are its name. -/
theorem parse_head (h : AtRuleAt css before name params ending rest after)
    (hlevels : (before ++ .atRule name params ending :: after).foldlM Statement.level? 0 = some 0)
    (hurls : UrlsLocal css) {lead : List Char} {p : String} (hlead : GapText lead) (hp : IsWord p)
    {w w' : Workspace} {raw : String} {options : ParseOptions} {input : Input}
    (hinput : Input.create w raw options = (.ok input, w'))
    (htext : input.css.toList = (Token.join (before.flatMap Statement.tokens)).toList ++
      (name.text.toList ++ (lead ++ p.toList) ++
        (Token.join (behindHead params ending rest)).toList))
    (hurls' : UrlsLocal input.css) :
    ∃ v d, (parse w raw options).1 = .ok v ∧
      d.content = (if lead = [] then .atRule (String.ofList (name.text.toList.drop 1) ++ p) ""
        else .atRule (String.ofList (name.text.toList.drop 1)) p) ∧
      ∀ x : NodeId, (v.get? x).map (·.detail.core) = ({ content := .root } ::
        (before.filterMap Statement.made? ++ d :: after.filterMap Statement.made?))[x.index]? := by
  obtain ⟨chars, hname, hchars⟩ := h.text_name
  obtain ⟨gap, hjoin, hempty, hkinds, hfit⟩ := exists_headForms hchars hlead hp h.endsHead
  have hhead := join_headForms chars gap p
  rw [hjoin] at hhead
  obtain ⟨ts, back, hforms, hback, hlex⟩ := h.exists_lex hurls hhead hfit (String.toList_inj.mp (by
    rw [htext, String.toList_append, String.toList_append, hhead, hname, List.cons_append,
      List.cons_append])) hurls'
  have hne : chars ≠ [] := by
    rintro rfl
    exact h.cutParams_eq.1 (String.toList_inj.mp hname)
  obtain ⟨name', qs, rfl, hkind, htext', hquiet⟩ := exists_tokens_of_headForms hforms hkinds hne
  obtain ⟨gaps, ending', after', hss, hgaps, hending, heffects⟩ :=
    h.exists_statements hkind htext' hquiet hback
  obtain ⟨d, hd⟩ := Statement.exists_made name' (qs ++ gaps) ending'
  -- The new head opens a block if the old one did, so the text stays balanced.
  have hlevels' : (before ++ .atRule name' (qs ++ gaps) ending' :: after').foldlM Statement.level? 0
      = some 0 := by
    rw [← hlevels, List.foldlM_append, List.foldlM_append]
    refine congrArg _ (funext fun n => ?_)
    rw [List.foldlM_cons, List.foldlM_cons, Statement.level?_atRule hending]
    exact congrArg _ (funext fun n => Statement.foldlM_level?_congr heffects n)
  obtain ⟨v, hv, hcore⟩ := exists_parse_of_statements hinput hlex hss hlevels'
  refine ⟨v, d, hv, ?_, fun x => ?_⟩
  · rw [Statement.content_of_made hd, content_of_headForms hforms hkinds hgaps, hname]
    simp only [hempty, List.drop_one, List.tail_cons]
  · rw [hcore, List.filterMap_append, List.filterMap_cons_some hd,
      Statement.filterMap_made?_congr heffects]

end AtRuleAt

end Stylesheet
