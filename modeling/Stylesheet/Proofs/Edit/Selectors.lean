import Stylesheet.Proofs.Edit.Ends
import Stylesheet.Proofs.Outline.Effect
import Stylesheet.Proofs.Text.Parts
import Stylesheet.Proofs.Token.Ends
import Stylesheet.Proofs.Tree.Reload

/-!
# The parts of a selector

The parts that a selector is set to are joined by what divided the old parts: the first comma with
the spaces behind it or, when there was none, a comma and what stands in front of the block. The
latter is blank unless it has a comment (`Statement.between_of_made`), and a comment becomes part of
the selector then. So the parts that were set are read back exactly when there is only one of them,
the selector had a comma already, or no comment stands in front of the block
(`Edit.selectors_of_setSelectors`).
-/

namespace Stylesheet

open Text

/-! ### What stands in front of a block -/

/-- White space and comments are blank, or have a slash. -/
theorem Token.blank_or_slash {ts : List Token} (hts : ∀ t ∈ ts, t.Tidy)
    (hgaps : ∀ t ∈ ts, t.isGap = true) :
    (∀ c ∈ (join ts).toList, isBlank c = true) ∨ '/' ∈ (join ts).toList := by
  induction ts with
  | nil => exact .inl fun c hc => absurd hc List.not_mem_nil
  | cons t ts ih =>
    obtain ⟨ht, hts⟩ := List.forall_mem_cons.mp hts
    obtain ⟨hgap, hgaps⟩ := List.forall_mem_cons.mp hgaps
    rw [join_cons, String.toList_append]
    -- A comment brings its slash along; without one all tokens are white space.
    rcases Token.isGap_iff.mp hgap with hspace | hcomment
    · refine (ih hts hgaps).imp (fun hblank => List.forall_mem_append.mpr ⟨?_, hblank⟩)
        (List.mem_append_right _)
      exact fun c hc => isBlank_of_isSpace (ht.blank hspace c hc)
    · have hspelled := ht.spelled
      rw [Token.Spelled, hcomment] at hspelled
      obtain ⟨body, hbody⟩ := hspelled
      exact .inr (List.mem_append_left _ (hbody ▸ List.mem_cons_self))

/-- What is captured in front of the block of a rule is blank, or has a slash. -/
theorem Statement.between_of_made {css : String} {pending : Option Unclosed} {s : Statement}
    (hs : s ∈ (statementsFrom pending (lex false css).1).1) {d : Detail} (hmade : s.made? = some d)
    {selector : String} (hrule : d.content = .rule selector) :
    ∃ between, d.raws.between = some between ∧
      ((∀ c ∈ between.toList, isBlank c = true) ∨ '/' ∈ between.toList) := by
  cases s with
  | space t | semicolon t | close t => cases hmade
  | comment t => cases hmade; cases hrule
  | block t =>
    cases hmade
    exact ⟨"", rfl, .inl fun c hc => absurd hc List.not_mem_nil⟩
  | rule head brace =>
    cases hmade
    obtain ⟨t, us, rest, hnext, hsuffix⟩ := exists_nextStatement hs
    -- The gap behind the selector is made of tokens of the text.
    have hhead : ∀ u ∈ (cutGaps head).2, u ∈ (lex false css).1 := by
      intro u hu
      refine hsuffix.subset ?_
      rw [← nextStatement_append hnext]
      refine List.mem_append_left _ (List.mem_append_left _ ?_)
      rw [← cutGaps_append head]
      exact List.mem_append_right _ hu
    refine ⟨_, rfl, Token.blank_or_slash (fun u hu => lex_tidy css u (hhead u hu)) fun u hu => ?_⟩
    exact List.mem_takeWhile_imp (List.mem_reverse.mp hu)
  | declaration custom ts =>
    rw [made?, effect] at hmade
    cases hread : readDeclaration custom (withoutSemicolon ts) <;> rw [hread] at hmade <;>
      cases hmade
    cases hrule
  | atRule name params ending => cases ending <;> cases hmade <;> cases hrule

/-! ### What divides the parts -/

namespace Tree

variable {t : Tree} {id : NodeId} {n : Node}

/-- The node says what it was set to say. -/
theorem get?_setContent (hn : t.get? id = some n) (new : Content) :
    ((t.setContent id n.content new).get? id).map Node.content = some new := by
  have hdetail := map_detail_setContent hn new id
  rw [if_pos rfl] at hdetail
  obtain ⟨m, hm, hdetail⟩ := Option.map_eq_some_iff.mp hdetail
  rw [hm, Option.map_some, Node.content, hdetail]

/-- With a comma in the selector, what divides its parts is a comma with blanks behind it. -/
theorem selectorSeparator_of_mem {selector : String} (hcomma : ',' ∈ selector.toList) (t : Tree)
    (id : NodeId) (n : Node) :
    ∃ blanks, (t.selectorSeparator id n selector).toList = ',' :: blanks ∧
      ∀ c ∈ blanks, isBlank c = true := by
  obtain ⟨front, back, hsplit, hfront⟩ := List.eq_append_cons_of_mem hcomma
  have hdrop : selector.toList.dropWhile (· != ',') = ',' :: back := by
    rw [hsplit, List.dropWhile_append_of_pos, List.dropWhile_cons_of_neg (by decide)]
    intro c hc
    rw [bne_iff_ne]
    rintro rfl
    exact hfront hc
  rw [selectorSeparator, hdrop]
  refine ⟨back.takeWhile isSpace, String.toList_ofList, fun c hc => ?_⟩
  exact isBlank_of_isSpace (List.mem_takeWhile_imp hc)

/-- Without a comma, it is a comma with what is captured in front of the block. -/
theorem selectorSeparator_of_not_mem {selector : String} (hcomma : ',' ∉ selector.toList)
    {between : String} (hbetween : n.raws.between = some between) (t : Tree) (id : NodeId) :
    (t.selectorSeparator id n selector).toList = ',' :: between.toList := by
  have hdrop : selector.toList.dropWhile (· != ',') = [] := by
    rw [List.dropWhile_eq_nil_iff]
    intro c hc
    rw [bne_iff_ne]
    rintro rfl
    exact hcomma hc
  rw [selectorSeparator, hdrop, hbetween]
  exact String.toList_append

end Tree

namespace Edit

open Editing Stylesheet.Tree

variable {t : Tree} {id : NodeId} {n : Node} {selector : String}

/-- The rule gets the parts, joined with the separator that it has. -/
theorem run_setSelectors (hn : t.get? id = some n) (hrule : n.content = .rule selector)
    (parts : List String) (w : Workspace) :
    (Edit.setSelectors id parts).run ⟨t, w⟩ = (.ok [], ⟨t.setContent id n.content
      (.rule ((t.selectorSeparator id n selector).intercalate parts)), w⟩) := by
  have hkind : n.kind = .rule := by rw [Node.kind, hrule]; rfl
  have hset : ∀ new, (Editing.setSelector id new).runOn ⟨t, w⟩ =
      (.ok (), ⟨t.setContent id n.content (.rule new), w⟩) := by
    intro new
    rw [Editing.setSelector, runOn_update hn hkind, hrule]
    rfl
  have hsets : (Editing.setSelectors id parts).runOn ⟨t, w⟩ =
      (.ok (), ⟨t.setContent id n.content
        (.rule ((t.selectorSeparator id n selector).intercalate parts)), w⟩) := by
    rw [Editing.setSelectors, runOn_bind, runOn_node, hn]
    dsimp only
    rw [show n.content.selector? = some selector by rw [hrule]; rfl]
    dsimp only
    rw [runOn_bind, runOn_tree]
    exact hset _
  rw [run, perform, silently, runOn_bind, hsets]
  rfl

/-- **The parts of a selector are what they were set to.** In every stylesheet, setting the parts of
the selector of a rule succeeds. What is read then are these parts exactly when there is only one of
them, or the selector had a comma, or what stands in front of the block is blank. -/
theorem selectors_of_setSelectors {w w' : Workspace} {css : String} {options : ParseOptions}
    (h : (parse w css options).1 = .ok t) (hn : t.get? id = some n)
    (hrule : n.content = .rule selector) {parts : List String} (hne : parts ≠ [])
    (hparts : ∀ part ∈ parts, IsPart [','] part.toList) :
    ∃ u between, (Edit.setSelectors id parts).run ⟨t, w'⟩ = (.ok [], ⟨u, w'⟩) ∧
      n.raws.between = some between ∧
      (u.selectors id = parts ↔
        parts.length = 1 ∨ ',' ∈ selector.toList ∨ ∀ c ∈ between.toList, isBlank c = true) := by
  obtain ⟨between, hbetween, hspacing⟩ : ∃ between, n.raws.between = some between ∧
      ((∀ c ∈ between.toList, isBlank c = true) ∨ '/' ∈ between.toList) := by
    obtain ⟨tokens, ss, hlex, hss, hcore⟩ := core_of_parse h
    have hmem := List.mem_of_getElem? ((hcore id).symm.trans (by rw [hn]; rfl))
    rcases List.mem_cons.mp hmem with hroot | hmade
    · have hcontent := congrArg Detail.content hroot
      rw [show n.detail.core.content = n.content from rfl, hrule] at hcontent
      cases hcontent
    · obtain ⟨s, hs, hmade⟩ := List.mem_filterMap.mp hmade
      have hread : s ∈ (statementsFrom none (lex false (Input.stripBom css).1).1).1 := by
        rw [hlex]
        dsimp only
        rwa [hss]
      exact Statement.between_of_made hread (d := n.detail.core) hmade hrule
  refine ⟨_, between, run_setSelectors hn hrule parts w', hbetween, ?_⟩
  have hread : (t.setContent id n.content
      (.rule ((t.selectorSeparator id n selector).intercalate parts))).selectors id =
        commaParts ((t.selectorSeparator id n selector).intercalate parts) := by
    have hcontent := get?_setContent hn (.rule ((t.selectorSeparator id n selector).intercalate
      parts))
    obtain ⟨m, hm, hcontent⟩ := Option.map_eq_some_iff.mp hcontent
    rw [selectors, hm, Option.bind_some, hcontent]
    rfl
  rw [hread, commaParts_eq_iff, String.toList_intercalate]
  have hne' : parts.map String.toList ≠ [] := fun hnil => hne (List.map_eq_nil_iff.mp hnil)
  have hparts' : ∀ part ∈ parts.map String.toList, IsPart [','] part := by
    rw [List.forall_mem_map]
    exact hparts
  -- A comma with blanks behind it divides the parts again.
  have hback : ∀ blanks, (t.selectorSeparator id n selector).toList = ',' :: blanks →
      (∀ c ∈ blanks, isBlank c = true) →
      splitFrom [','] true {} [] ((t.selectorSeparator id n selector).toList.intercalate
        (parts.map String.toList)) = parts.map String.toList := by
    intro blanks hseparator hblanks
    rw [hseparator]
    exact splitFrom_intercalate (by decide) (by decide) hblanks (List.forall_mem_nil _) hne' hparts'
  constructor
  · intro hsplit
    by_contra hnone
    simp only [not_or] at hnone
    obtain ⟨hlength, hcomma, hblank⟩ := hnone
    have htwo : 2 ≤ (parts.map String.toList).length := by
      have hpos := List.length_pos_iff.mpr hne
      rw [List.length_map]
      omega
    refine splitFrom_intercalate_ne (c := '/') (by decide) (by decide) ?_ htwo true hsplit
    rw [selectorSeparator_of_not_mem hcomma hbetween]
    exact List.mem_cons_of_mem _ (hspacing.resolve_left hblank)
  · rintro (hone | hcomma | hblank)
    · -- A single part is joined by nothing.
      obtain ⟨part, rfl⟩ := List.length_eq_one_iff.mp hone
      have hsingle := splitFrom_intercalate (c := ',') (by decide) (by decide)
        (List.forall_mem_nil _) (List.forall_mem_nil _) hne' hparts'
      rwa [List.map_singleton, List.intercalate_singleton] at hsingle ⊢
    · obtain ⟨blanks, hseparator, hblanks⟩ := selectorSeparator_of_mem hcomma t id n
      exact hback blanks hseparator hblanks
    · by_cases hcomma : ',' ∈ selector.toList
      · obtain ⟨blanks, hseparator, hblanks⟩ := selectorSeparator_of_mem hcomma t id n
        exact hback blanks hseparator hblanks
      · exact hback _ (selectorSeparator_of_not_mem hcomma hbetween t id) hblank

/-- The comma of a selector stays, and commas in quotes, in parentheses and behind a backslash
divide nothing. -/
theorem selectors_of_setSelectors_nested :
    let parts := ["x[y=',']", ":is(a, b)", "\\,c"]
    ∃ u, (Edit.setSelectors ⟨1⟩ parts).run ⟨sheet "a , b/**/\x7bc:d\x7d", {}⟩ =
        (.ok [], ⟨u, {}⟩) ∧ u.selectors ⟨1⟩ = parts := by
  intro parts
  obtain ⟨n, hn⟩ : ∃ n, (sheet "a , b/**/\x7bc:d\x7d").get? ⟨1⟩ = some n :=
    Option.isSome_iff_exists.mp (by decide +kernel)
  have hcontent : ∀ n ∈ (sheet "a , b/**/\x7bc:d\x7d").get? ⟨1⟩, n.content = .rule "a , b" := by
    decide +kernel
  have hparts : ∀ part ∈ parts, IsPart [','] part.toList := by
    simp only [isPart_iff (show ')' ∉ [','] by decide)]
    decide +kernel
  obtain ⟨u, between, hrun, -, hread⟩ := @selectors_of_setSelectors _ _ _ _ _ {}
    _ _ (parse_sheet (by decide +kernel)) hn (hcontent n hn) _ (List.cons_ne_nil _ _) hparts
  exact ⟨u, hrun, hread.mpr (.inr (.inl (by decide)))⟩

/-- A comment in front of the block gets between the parts. -/
theorem comment_between_selectors :
    ¬ ∀ (w w' : Workspace) (css : String) (options : ParseOptions) (t : Tree) (id : NodeId)
      (n : Node) (selector : String) (parts : List String),
      (Stylesheet.parse w css options).1 = .ok t → t.get? id = some n →
      n.content = .rule selector → parts ≠ [] → (∀ part ∈ parts, IsPart [','] part.toList) →
      let done := (Edit.setSelectors id parts).run ⟨t, w'⟩
      done.1 = .ok [] → done.2.tree.selectors id = parts := by
  intro h
  obtain ⟨n, hn⟩ : ∃ n, (sheet "a/**/\x7b\x7d").get? ⟨1⟩ = some n :=
    Option.isSome_iff_exists.mp (by decide +kernel)
  have hcontent : ∀ n ∈ (sheet "a/**/\x7b\x7d").get? ⟨1⟩, n.content = .rule "a" := by
    decide +kernel
  have hparts : ∀ part ∈ ["x", "y"], IsPart [','] part.toList := by
    simp only [isPart_iff (show ')' ∉ [','] by decide)]
    decide
  -- The comment behind the selector is taken for the separator, and it holds no comma.
  exact absurd (h {} {} "a/**/\x7b\x7d" {} _ ⟨1⟩ n "a" ["x", "y"]
    (parse_sheet (by decide +kernel)) hn (hcontent n hn) (List.cons_ne_nil _ _) hparts
    (by decide +kernel)) (by decide +kernel)

end Edit

end Stylesheet
