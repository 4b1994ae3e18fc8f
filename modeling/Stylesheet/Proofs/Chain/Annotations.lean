import Stylesheet.Proofs.Chain.Again
import Stylesheet.Proofs.Chain.Base
import Stylesheet.Proofs.Chain.Comment

/-!
# Annotations over many runs

A stylesheet is processed without plugins, with a map of its own that a comment names, and what
comes out is processed in the same way, again and again (`repeatedly`). Each run puts its comment
behind the text and takes out the comment of the run before. So there is one comment at the end
(`Settles.repeatedly`).

That fails for a stylesheet whose last statement has no end of its own, an at-rule without a
semicolon or a custom property without one. It takes the comment in, and the comments pile up
(`Flows.repeatedly`). `countLinks_repeatedly` puts both together.
-/

namespace Stylesheet

open Text

open ProcessOptions

/-! ### Runs that follow each other -/

/-- Processes a text without plugins, and what comes out of that, so many times. -/
def repeatedly {σ : Type} (steps : Nat) (awaits : Bool) (options : ProcessOptions) :
    Nat → String → Backstage σ (Except Error String)
  | 0, css => pure (.ok css)
  | n + 1, css => do
    match ← (Deferred.ofInput ([] : List (Plugin σ)) (.text css) options).finish steps awaits with
    | .ok r => repeatedly steps awaits options n r.css
    | .error e => pure (.error e)

theorem run_repeatedly_succ {σ : Type} {steps : Nat} {awaits : Bool} {options : ProcessOptions}
    {s s' : Workspace × σ} {css : String} {r : Result}
    (h : ((Deferred.ofInput ([] : List (Plugin σ)) (.text css) options).finish steps awaits).run s =
      (.ok r, s')) (n : Nat) :
    (repeatedly steps awaits options (n + 1) css).run s =
      (repeatedly steps awaits options n r.css).run s' := by
  rw [repeatedly, StateT.run_bind, h]
  rfl

/-- The first of several runs, on a text that brings no map along. -/
theorem exists_run {σ : Type} {steps : Nat} (hsteps : 0 < steps) (awaits : Bool) {e : Environment}
    {s : Workspace × σ} (he : s.1.toEnvironment = e) {source target : Option String}
    {m : MapOptions} (h : FileFits e (external source target m)) {css text printed : String}
    {b : Draft} (htext : (Input.stripBom css).1 = text)
    (hload : PreviousMap.load e text (external source target m).forParsing = .ok none)
    (hb : outlineText (positions text) text = .ok b)
    (hprint : ∀ i, Chunk.textOf ((Tree.ofDraft i b).withoutLinks.chunks Tree.rootId) = printed) :
    ∃ crlf s', s'.1.toEnvironment = e ∧ ∀ n,
      (repeatedly steps awaits (external source target m) (n + 1) css).run s =
        (repeatedly steps awaits (external source target m) n
          (printed ++ (trailer h crlf).text)).run s' := by
  subst he
  obtain ⟨i, w', hparse, hsame, hmap⟩ := exists_parse htext hload hb
  have hmaps : ∀ i' ∈ (Tree.ofDraft i b).inputs, i'.map = none := by
    intro i' hi'
    rw [Array.mem_singleton.mp hi']
    exact hmap
  obtain ⟨crlf, hgenerate⟩ := exists_generate_external h hmaps
  rw [hprint i] at hgenerate
  have hrun := Deferred.run_finish_of_no_plugins hsteps awaits s (congrArg Prod.fst hparse)
  rw [Result.printed, hgenerate] at hrun
  refine ⟨crlf, ((parse s.1 css (external source target m).forParsing).2, s.2), ?_,
    fun n => run_repeatedly_succ hrun n⟩
  rw [hparse]
  exact hsame

/-! ### One more comment -/

/-- The comment is one more comment of the text that names a map. -/
theorem Trailed.countLinks_text {r : Trailer} {css : String} {kept trail : List Token}
    {gap cm : Token} {ss : List Statement} {last : TextEnd}
    (h : Trailed r css kept trail gap cm ss last) (hr : NamesMap (trimmed r.body)) :
    countLinks (css ++ r.text) = countLinks css + 1 := by
  have hnone : ∀ t : Token, t.kind = .space → ¬ t.NamesMap := by
    rintro t hspace ⟨hcomment, -⟩
    rw [hspace] at hcomment
    cases hcomment
  -- Of the tokens that are added only the comment can name a map, and it does.
  have hcm : cm.NamesMap := by
    refine ⟨h.comment_kind, ?_⟩
    rw [h.comment_text, Trailer.comment, String.toList_append, String.toList_append]
    have hbody : Outline.commentBody ("/*".toList ++ r.body.toList ++ "*/".toList) =
        r.body.toList := commentBody_of_marks r.body.toList
    rw [hbody]
    exact hr
  have htrail : trail.countP (fun t => decide t.NamesMap) = 0 := by
    rw [List.countP_eq_zero]
    intro t ht
    rw [decide_eq_true_iff]
    exact hnone t (h.trail_kind t ht)
  rw [countLinks, countLinks, h.lex_text, h.lex, List.countP_append, List.countP_append, htrail,
    List.countP_cons_of_neg, List.countP_cons_of_pos, List.countP_nil]
  · rwa [decide_eq_true_iff]
  · rw [decide_eq_true_iff]
    exact hnone gap h.gap_kind

theorem countLinks_append {css : String} {tokens : List Token} {ss : List Statement}
    (hlex : lex false css = (tokens, none)) (hss : statementsFrom none tokens = (ss, none))
    (r : Trailer) (hr : NamesMap (trimmed r.body)) :
    countLinks (css ++ r.text) = countLinks css + 1 := by
  obtain ⟨kept, trail, gap, cm, ss, last, htrailed, -⟩ := exists_trailed r hlex hss
  exact htrailed.countLinks_text hr

/-- The last statement of the stylesheet takes in what may follow. -/
def endsOpen (css : String) : Bool :=
  (statementsFrom none (lex false css).1).1.getLast?.any Statement.takesRest

/-! ### Stylesheets that end -/

/-- A stylesheet whose text lacks the mark of annotations, and which takes in nothing that may
follow. -/
structure Settles (css : String) : Prop where
  reads : ∃ o, ReadsClosed (positions css) css o ∧ o.parents = []
  mark : contains linkMark.toList css.toList = false
  bom : (Input.stripBom css).2 = false

namespace Settles

variable {css : String}

theorem of_outlineText {b : Draft} (hb : outlineText (positions css) css = .ok b)
    (hopen : endsOpen css = false) (hmark : contains linkMark.toList css.toList = false)
    (hbom : (Input.stripBom css).2 = false) : Settles css := by
  obtain ⟨tokens, ss, hlex, hss⟩ := lex_of_outlineText hb
  obtain ⟨o, hread, hfinish⟩ := (outlineText_eq_ok_iff hlex hss).mp hb
  refine ⟨⟨o, ⟨tokens, ss, hlex, hss, fun last hlast => ?_, hread⟩, ?_⟩, hmark, hbom⟩
  · rw [endsOpen, hlex, hss, Option.mem_def.mp hlast] at hopen
    exact hopen
  · exact (Outline.finish_eq_ok_iff.mp hfinish).1

/-- The text and the comment of a run hold that comment only. -/
theorem countLinks_append (h : Settles css) (r : Trailer) (hr : NamesMap (trimmed r.body)) :
    countLinks (css ++ r.text) = 1 := by
  obtain ⟨o, ⟨tokens, ss, hlex, hss, -, -⟩, -⟩ := h.reads
  rw [Stylesheet.countLinks_append hlex hss r hr, countLinks_eq_zero (by rw [hlex]) h.mark]

/-- The stylesheet without the white space and the semicolons that belong to nothing is all that
its nodes print as. -/
theorem exists_base (h : Settles css) :
    ∃ base spaces o, css = base ++ spaces ∧ Settles base ∧ ReadsClosed (positions css) css o ∧
      o.parents = [] ∧ Draft.textAll o.semicolon o.current.kids.reverse = base := by
  obtain ⟨o, hreads, hparents⟩ := h.reads
  obtain ⟨base, hcss, hbase⟩ := hreads.exists_base
  have hagree : AgreeOn base (positions css) (positions base) := by
    rw [hcss]
    exact (agreeOn_positions base o.spaces).symm
  refine ⟨base, o.spaces, o, hcss, ⟨⟨_, hbase.congr hagree, hparents⟩, ?_, ?_⟩, hreads, hparents,
    hbase.textAll_eq hparents⟩
  · refine contains_eq_false_of_isInfix h.mark ?_
    rw [hcss, String.toList_append]
    exact (List.prefix_append _ _).isInfix
  · have hbom := h.bom
    rw [hcss] at hbom
    exact Input.stripBom_of_append hbom

/-- With the comment of a run behind it, the stylesheet is read and printed without the comment. -/
theorem print_append (h : Settles css) (r : Trailer) (hr : NamesMap (trimmed r.body)) :
    ∃ b base, outlineText (positions (css ++ r.text)) (css ++ r.text) = .ok b ∧ Settles base ∧
      ∀ i, Chunk.textOf ((Tree.ofDraft i b).withoutLinks.chunks Tree.rootId) = base := by
  obtain ⟨base, spaces, o, hcss, hbase, hreads, hparents, htext⟩ := h.exists_base
  obtain ⟨c, d, hb, hcontent, hsemicolon, hafter⟩ :=
    hreads.outlineText_append hparents r (agreeOn_positions css r.text)
  refine ⟨_, base, hb, hbase, fun i => ?_⟩
  obtain ⟨hcaptured, hroot, -⟩ := outlineText_eq_ok hb
  change d.kind = .root at hroot
  -- No child in front of the comment names a map.
  have hkids : ∀ b ∈ o.current.kids.reverse, ¬ b.label.NamesMap := by
    refine @Draft.not_namesMap_of_textAll o.semicolon _ ?_
    rw [htext]
    exact hbase.mark
  have hleft := Tree.leftOf_of_comment
    (Tree.consistent_ofDraft i (hcaptured.mono fun d kids hd => hd.toSound)) hcontent hr
    (Tree.namesMap_ofDraft i (d := d) hkids)
  have htakes := (hreads.root hparents).1.kids
  rw [Tree.textOf_chunks_root hleft.holds hroot, hsemicolon, hafter, Option.getD_some, htext]
  · exact String.append_empty
  · rw [hleft.size, Tree.size_ofDraft, Branch.size, Tree.sizeAll_concat, Branch.size]
    omega
  · intro b hb
    have := htakes b (List.mem_reverse.mp hb)
    exact ⟨this.before, this.kind⟩
  · intro b hb
    exact (htakes b (List.mem_reverse.mp hb)).captured

end Settles

/-! ### Stylesheets that go on -/

namespace Trailed

variable {r : Trailer} {css : String} {kept trail : List Token} {gap cm : Token}
  {ss : List Statement} {last : TextEnd} (h : Trailed r css kept trail gap cm ss last)

include h

/-- Nothing but the end of the text can take in the comment. -/
theorem ne_free (hopen : endsOpen css = true) : last ≠ .free := by
  rintro rfl
  rw [endsOpen, h.lex, h.statements] at hopen
  dsimp only [TextEnd.statements] at hopen
  rcases List.eq_nil_or_concat trail with rfl | ⟨trail, t, rfl⟩
  · -- Behind a statement that takes in the rest there is no comment of its own.
    rw [List.map_nil, List.append_nil] at hopen
    obtain ⟨s, hs, htakes⟩ := (Option.any_eq_true _ _).mp hopen
    obtain ⟨front, rfl⟩ := List.getLast?_eq_some_iff.mp hs
    have hstatements := h.statements_text
    rw [List.append_assoc] at hstatements
    obtain ⟨t, ht⟩ := exists_close_of_takesRest hstatements htakes
    rw [gapStatement, if_pos h.gap_kind] at ht
    cases ht
  · rw [List.concat_eq_append, List.map_append, ← List.append_assoc] at hopen
    have ht : t.kind = .space := h.trail_kind t (by simp)
    simp [gapStatement, ht, Statement.takesRest] at hopen

theorem endsOpen_text (hne : last ≠ .free) : endsOpen (css ++ r.text) = true := by
  obtain ⟨s, hs⟩ := TextEnd.exists_statement hne [gap, cm]
  have htakes := h.takesRest hne [gap, cm] h.gaps_text s (by simp [hs])
  rw [endsOpen, h.lex_text, h.statements_text, hs]
  simpa using htakes

end Trailed

/-- A stylesheet that takes in what may follow, and no child of which is a comment that names a
map. -/
structure Flows (css : String) : Prop where
  reads : ∃ d kids, outlineText (positions css) css = .ok (.node d kids) ∧
    ∀ b ∈ kids, ¬ b.label.NamesMap
  opens : endsOpen css = true
  bom : (Input.stripBom css).2 = false

namespace Flows

variable {css : String} (h : Flows css)

include h

/-- The stylesheet takes in the comment of a run. -/
theorem append (r : Trailer) : Flows (css ++ r.text) := by
  obtain ⟨d, kids, hb, hkids⟩ := h.reads
  obtain ⟨tokens, ss, hlex, hss⟩ := lex_of_outlineText hb
  obtain ⟨kept, trail, gap, cm, ss, last, htrailed, -⟩ := exists_trailed r hlex hss
  have hne := htrailed.ne_free h.opens
  refine ⟨?_, htrailed.endsOpen_text hne, by rw [Input.stripBom_append h.bom]⟩
  obtain ⟨b', hb', hresumes⟩ :=
    htrailed.outlineText_resumes (agreeOn_positions css r.text) hb hne
  cases hresumes with
  | @leaf _ d' e e' front hlast =>
    refine ⟨d', _, hb', fun b hb => ?_⟩
    rcases List.mem_append.mp hb with hb | hb
    · exact hkids b (List.mem_append_left _ hb)
    · rw [List.mem_singleton.mp hb]
      exact hlast.not_namesMap

theorem countLinks_append (r : Trailer) (hr : NamesMap (trimmed r.body)) :
    countLinks (css ++ r.text) = countLinks css + 1 := by
  obtain ⟨d, kids, hb, -⟩ := h.reads
  obtain ⟨tokens, ss, hlex, hss⟩ := lex_of_outlineText hb
  exact Stylesheet.countLinks_append hlex hss r hr

end Flows

/-! ### The number of comments -/

section

variable {σ : Type} {steps : Nat} (hsteps : 0 < steps) (awaits : Bool) {e : Environment}
  {s : Workspace × σ} (he : s.1.toEnvironment = e)
  {source target : Option String} {m : MapOptions} (hfits : FileFits e (external source target m))
  (hmissing : PreviousMap.load e (linkComment e (external source target m))
    (external source target m).forParsing = .ok none)

include hmissing

/-- The comment of a run brings no map along. -/
theorem load_trailer (crlf : Bool) (css : String) :
    PreviousMap.load e (css ++ (trailer hfits crlf).text)
      (external source target m).forParsing = .ok none :=
  (PreviousMap.load_congr _ _ (findLink?_trailer hfits crlf css)).trans hmissing

include hsteps he

/-- A stylesheet that ends keeps one comment. -/
theorem Settles.repeatedly {css : String} (h : Settles css) (crlf : Bool) (n : Nat) :
    ∃ base crlf' s', (repeatedly steps awaits (external source target m) n
        (css ++ (trailer hfits crlf).text)).run s =
          (.ok (base ++ (trailer hfits crlf').text), s') ∧ Settles base := by
  induction n generalizing css crlf s with
  | zero => exact ⟨css, crlf, s, rfl, h⟩
  | succ n ih =>
    obtain ⟨b, base, hb, hbase, hprint⟩ :=
      h.print_append (trailer hfits crlf) (namesMap_trailer hfits crlf)
    obtain ⟨crlf', s', hsame, hrun⟩ := exists_run hsteps awaits he hfits
      (congrArg Prod.fst (Input.stripBom_append h.bom (trailer hfits crlf)))
      (load_trailer hfits hmissing crlf css) hb hprint
    rw [hrun n]
    exact ih hsame hbase crlf'

/-- A stylesheet that goes on gets a comment more with every run. -/
theorem Flows.repeatedly {css : String} (h : Flows css) (crlf : Bool) (n : Nat) :
    ∃ front crlf' s', (repeatedly steps awaits (external source target m) n
        (css ++ (trailer hfits crlf).text)).run s =
          (.ok (front ++ (trailer hfits crlf').text), s') ∧ Flows front ∧
        countLinks front = countLinks css + n := by
  induction n generalizing css crlf s with
  | zero => exact ⟨css, crlf, s, rfl, h, rfl⟩
  | succ n ih =>
    have hmore := h.append (trailer hfits crlf)
    obtain ⟨d, kids, hb, hkids⟩ := hmore.reads
    obtain ⟨crlf', s', hsame, hrun⟩ := exists_run hsteps awaits he hfits
      (congrArg Prod.fst (Input.stripBom_append h.bom (trailer hfits crlf)))
      (load_trailer hfits hmissing crlf css) hb (print_of_not_namesMap hb hkids)
    obtain ⟨front, crlf'', s'', hruns, hfront, hcount⟩ := ih hsame hmore crlf'
    refine ⟨front, crlf'', s'', (hrun n).trans hruns, hfront, ?_⟩
    rw [hcount, h.countLinks_append _ (namesMap_trailer hfits crlf)]
    omega

end

/-- A stylesheet that holds no mark of an annotation is processed without plugins, with a map of its
own that a comment names and that is not found, and so is what comes out. Each time the text ends
with the comment. There is no other one, unless the last statement of the stylesheet takes in what
follows: then each run leaves one more.

A run takes a byte order mark away, so the text behind a second mark would be read otherwise. -/
theorem countLinks_repeatedly {σ : Type} {steps : Nat} (hsteps : 0 < steps) (awaits : Bool)
    (s : Workspace × σ) {source target : Option String} {m : MapOptions}
    (hfits : FileFits s.1.toEnvironment (external source target m))
    (hmissing : PreviousMap.load s.1.toEnvironment
      (linkComment s.1.toEnvironment (external source target m))
      (external source target m).forParsing = .ok none) {css : String} {t : Tree}
    (hparse : (parse s.1 css (external source target m).forParsing).1 = .ok t)
    (hmark : contains linkMark.toList css.toList = false)
    (hbom : (Input.stripBom (Input.stripBom css).1).2 = false) (n : Nat) :
    ∃ text s', (repeatedly steps awaits (external source target m) (n + 1) css).run s =
        (.ok text, s') ∧
      countLinks text = (if endsOpen (Input.stripBom css).1 then n + 1 else 1) ∧
      ∃ front, text = front ++ linkComment s.1.toEnvironment (external source target m) := by
  set text := (Input.stripBom css).1 with htext
  obtain ⟨input, w', b, hcreate, hb, -⟩ := parse_eq_ofDraft hparse
  obtain ⟨file, id, map, -, rfl⟩ := create_eq_ok hcreate
  change outlineText (positions text) text = .ok b at hb
  obtain ⟨d, kids⟩ := b
  have hmark' : contains linkMark.toList text.toList = false :=
    contains_eq_false_of_isInfix hmark (Input.isInfix_stripBom css)
  have hkids := not_namesMap_of_mark hb hmark'
  obtain ⟨tokens, ss, hlex, hss⟩ := lex_of_outlineText hb
  have hzero : countLinks text = 0 := countLinks_eq_zero (by rw [hlex]) hmark'
  -- The first run prints the stylesheet as it is.
  obtain ⟨crlf, s', hsame, hrun⟩ := exists_run hsteps awaits rfl hfits htext.symm
    (PreviousMap.load_of_findLink?_eq_none (findLink?_eq_none_of_mark hmark') hmissing) hb
    (print_of_not_namesMap hb hkids)
  rw [hrun n]
  cases hopen : endsOpen text with
  | true =>
    have hflows : Flows text := ⟨⟨d, kids, hb, hkids⟩, hopen, hbom⟩
    obtain ⟨front, crlf', s'', hruns, hfront, hcount⟩ :=
      hflows.repeatedly hsteps awaits hsame hfits hmissing crlf n
    refine ⟨_, s'', hruns, ?_, front ++ (trailer hfits crlf').lineEnd, ?_⟩
    · rw [if_pos rfl, hfront.countLinks_append _ (namesMap_trailer hfits crlf'), hcount, hzero,
        Nat.zero_add]
    · rw [Trailer.text, comment_trailer, String.append_assoc]
  | false =>
    have hsettles : Settles text := .of_outlineText hb hopen hmark' hbom
    obtain ⟨base, crlf', s'', hruns, hbase⟩ :=
      hsettles.repeatedly hsteps awaits hsame hfits hmissing crlf n
    refine ⟨_, s'', hruns, ?_, base ++ (trailer hfits crlf').lineEnd, ?_⟩
    · rw [if_neg Bool.false_ne_true, hbase.countLinks_append _ (namesMap_trailer hfits crlf')]
    · rw [Trailer.text, comment_trailer, String.append_assoc]

/-- Three runs on a rule with semicolons and white space behind it. -/
theorem countLinks_repeatedly_rule :
    ∃ text s', (repeatedly 1 true (external (some "a.css") (some "b.css") {}) 3 "a\x7b\x7d;; ").run
        (({}, ()) : Workspace × Unit) = (.ok text, s') ∧
      countLinks text = 1 ∧ ∃ front, text = front ++ "/*# sourceMappingURL=b.css.map */" := by
  have hparse : ∃ t, (parse {} "a\x7b\x7d;; "
      (external (some "a.css") (some "b.css") {}).forParsing).1 = .ok t :=
    (Option.isSome_iff_exists.mp (by decide +kernel)).imp fun t => eq_ok_of_mem_toOption
  obtain ⟨t, hparse⟩ := hparse
  obtain ⟨text, s', hrun, hcount, front, hfront⟩ := @countLinks_repeatedly Unit 1 Nat.one_pos true
    ({}, ()) (some "a.css") (some "b.css") {} (by decide +kernel) (by decide +kernel) _ t hparse
    (by decide +kernel) (by decide +kernel) 2
  have hends : endsOpen (Input.stripBom "a\x7b\x7d;; ").1 = false := by decide +kernel
  refine ⟨text, s', hrun, ?_, front, ?_⟩
  · rwa [hends] at hcount
  · rw [hfront]
    exact congrArg (front ++ ·) (by decide +kernel)

/-- An at-rule without a semicolon at the end of the text, and no files: there are two comments
after two runs. -/
theorem countLinks_of_openAtRule :
    (∃ t, (parse {} "@import \"a\"" (external (some "a.css") (some "b.css") {}).forParsing).1 =
        .ok t) ∧
      contains linkMark.toList "@import \"a\"".toList = false ∧
      ∃ text s', (repeatedly 1 true (external (some "a.css") (some "b.css") {}) 2
          "@import \"a\"").run (({}, ()) : Workspace × Unit) = (.ok text, s') ∧
        text = "@import \"a\"\n/*# sourceMappingURL=b.css.map */\n" ++
          "/*# sourceMappingURL=b.css.map */" ∧
        countLinks text = 2 := by
  have hparse : ∃ t, (parse {} "@import \"a\""
      (external (some "a.css") (some "b.css") {}).forParsing).1 = .ok t :=
    (Option.isSome_iff_exists.mp (by decide +kernel)).imp fun t => eq_ok_of_mem_toOption
  have hruns : "@import \"a\"\n/*# sourceMappingURL=b.css.map */\n" ++
      "/*# sourceMappingURL=b.css.map */" ∈
        ((repeatedly 1 true (external (some "a.css") (some "b.css") {}) 2 "@import \"a\"").run
          (({}, ()) : Workspace × Unit)).1.toOption := by
    decide +kernel
  exact ⟨hparse, by decide +kernel, _, _, Prod.ext (eq_ok_of_mem_toOption hruns) rfl, rfl,
    by decide +kernel⟩

end Stylesheet
