import Stylesheet.Proofs.Chain.Outline
import Stylesheet.Proofs.Chain.Starts
import Stylesheet.Proofs.Chain.Tree
import Stylesheet.Proofs.Outline.Read
import Stylesheet.Proofs.Output.Identity
import Stylesheet.Proofs.Process.Awaited
import Stylesheet.Proofs.Text.Link

/-!
# Comments that name maps

The text of a comment that names a map holds a mark. So a stylesheet without the mark has no such
comment, neither among its tokens (`countLinks_eq_zero`) nor among the children of its root
(`not_namesMap_of_mark`), and is printed as it is (`print_of_not_namesMap`).

Without plugins a run reads a text, takes out the comments at its top that name maps, and prints the
rest. With a map of its own that a comment names, it writes the comment behind that
(`css_generate_external`). The comment is always the same, up to the line break in front
(`ProcessOptions.trailer`), and the next run finds it (`ProcessOptions.findLink?_trailer`).
-/

namespace Stylesheet

open Text

/-- The token is a comment that names a map. -/
def Token.NamesMap (t : Token) : Prop :=
  t.kind = .comment ∧ Stylesheet.NamesMap (String.ofList (trim (Outline.commentBody t.text.toList)))

instance (t : Token) : Decidable t.NamesMap :=
  inferInstanceAs (Decidable (_ ∧ _))

/-- How many comments of a stylesheet name a map, wherever they stand. -/
def countLinks (css : String) : Nat :=
  (lex false css).1.countP fun t => decide t.NamesMap

/-- The node is a comment that names a map. -/
def Detail.NamesMap (d : Detail) : Prop :=
  ∃ text, d.content = .comment text ∧ Stylesheet.NamesMap text

/-! ### Tokens -/

theorem isInfix_commentBody (cs : List Char) : Outline.commentBody cs <:+: cs := by
  have hdrop : cs.drop 2 <:+: cs := (List.drop_suffix 2 cs).isInfix
  rw [Outline.commentBody]
  split
  · rename_i body hbody
    refine List.IsInfix.trans ⟨[], ['*', '/'], ?_⟩ hdrop
    have := congrArg List.reverse (after?_eq_some hbody)
    rw [List.reverse_reverse] at this
    simpa using this.symm
  · exact hdrop

/-- In a stylesheet without the mark no comment names a map. -/
theorem countLinks_eq_zero {css : String} (hlex : (lex false css).2 = none)
    (h : contains linkMark.toList css.toList = false) : countLinks css = 0 := by
  rw [countLinks, List.countP_eq_zero]
  intro t ht
  rw [decide_eq_true_iff]
  rintro ⟨-, hnames⟩
  have hjoin : Token.join (lex false css).1 = css := join_lex hlex
  -- The mark stands in the comment's body, and so in the text.
  obtain ⟨front, behind, hsplit⟩ := List.append_of_mem ht
  have htext : t.text.toList <:+: css.toList := by
    refine ⟨(Token.join front).toList, (Token.join behind).toList, ?_⟩
    rw [← hjoin, hsplit, Token.join_append, Token.join_cons]
    simp
  have hmark : contains linkMark.toList css.toList = true := by
    refine contains_of_namesMap hnames ?_
    rw [String.toList_ofList]
    exact ((isInfix_trim _).trans (isInfix_commentBody _)).trans htext
  rw [h] at hmark
  cases hmark

/-! ### Nodes -/

/-- The text of a child is a part of that of its block. -/
theorem Draft.infix_textAll {closesLast : Bool} {bs : List Draft} {b : Draft} (hb : b ∈ bs) :
    ∃ closed, (text closed b).toList <:+: (textAll closesLast bs).toList := by
  induction bs with
  | nil => cases hb
  | cons a bs ih =>
    rw [textAll, String.toList_append, String.toList_append]
    rcases List.mem_cons.mp hb with rfl | hb
    · exact ⟨_, List.infix_append _ _ _⟩
    · obtain ⟨closed, hclosed⟩ := ih hb
      exact ⟨closed, hclosed.trans (List.suffix_append _ _).isInfix⟩

/-- The text of a comment is a part of what is printed. -/
theorem Draft.infix_text_of_comment {b : Draft} {text : String}
    (hcontent : b.label.content = .comment text) (closed : Bool) :
    text.toList <:+: (Draft.text closed b).toList := by
  obtain ⟨d, kids⟩ := b
  change d.content = .comment text at hcontent
  have hleaf : d.isLeaf = true := by rw [Detail.isLeaf, hcontent]
  have hprint : Draft.text closed (.node d kids) =
      "/*" ++ d.raws.left.getD "" ++ text ++ d.raws.right.getD "" ++ "*/" := by
    rw [Draft.text, if_pos hleaf, Detail.leafText, hcontent]
  refine ⟨("/*" ++ d.raws.left.getD "").toList, (d.raws.right.getD "" ++ "*/").toList, ?_⟩
  rw [hprint]
  simp

/-- No child of a block whose text lacks the mark names a map. -/
theorem Draft.not_namesMap_of_textAll {closesLast : Bool} {bs : List Draft}
    (h : contains linkMark.toList (textAll closesLast bs).toList = false) :
    ∀ b ∈ bs, ¬ b.label.NamesMap := by
  rintro b hb ⟨text, hcontent, hnames⟩
  obtain ⟨closed, hpart⟩ := @infix_textAll closesLast bs b hb
  have hmark := contains_of_namesMap hnames ((infix_text_of_comment hcontent closed).trans hpart)
  rw [h] at hmark
  cases hmark

/-- A node that goes on names no map. -/
theorem Detail.Resumes.not_namesMap {d d' : Detail} (h : d.Resumes d') : ¬ d'.NamesMap := by
  rintro ⟨text, hcontent, -⟩
  refine h.noComment ?_
  rw [← h.kind, Detail.kind, hcontent]
  rfl

namespace Tree

theorem namesMap_eq_true_iff {t : Tree} {x : NodeId} {n : Node} (hn : t.get? x = some n) :
    t.namesMap x = true ↔ n.detail.NamesMap := by
  rw [namesMap, hn, Option.bind_some, Node.content]
  cases hcontent : n.detail.content <;>
    simp [Content.text?, Detail.NamesMap, hcontent, Stylesheet.NamesMap]

/-- In the tree of a branch, the children of the root name maps when those of the branch do. -/
theorem namesMap_ofDraft (i : Input) {d : Detail} {kids : List Draft}
    (h : ∀ b ∈ kids, ¬ b.label.NamesMap) :
    ∀ x ∈ (ofDraft i (.node d kids)).children rootId,
      (ofDraft i (.node d kids)).namesMap x = false := by
  intro x hx
  obtain ⟨n, hn, -, -, hkids⟩ := holds_ofDraft i (.node d kids)
  have hchildren : (ofDraft i (.node d kids)).children rootId = n.children := by
    rw [children, hn]
    rfl
  rw [hchildren] at hx
  obtain ⟨b, hb, hold⟩ := hkids.exists_of_mem hx
  obtain ⟨n', hn', hd, -⟩ := hold.get?_eq
  rw [Bool.eq_false_iff, Ne, namesMap_eq_true_iff hn', hd]
  exact h b hb

end Tree

/-- A stylesheet no child of which names a map is printed as it is. -/
theorem print_of_not_namesMap {locate : Nat → Position} {css : String} {d : Detail}
    {kids : List Draft} (hb : outlineText locate css = .ok (.node d kids))
    (hkids : ∀ b ∈ kids, ¬ b.label.NamesMap) (i : Input) :
    Chunk.textOf ((Tree.ofDraft i (.node d kids)).withoutLinks.chunks Tree.rootId) = css := by
  obtain ⟨hcaptured, -, htext⟩ := outlineText_eq_ok hb
  rw [Tree.withoutLinks_eq_self (Tree.namesMap_ofDraft i hkids)]
  exact (Tree.chunks_ofDraft i hcaptured).1.trans htext

/-- Without the mark no child names a map. -/
theorem not_namesMap_of_mark {locate : Nat → Position} {css : String} {d : Detail}
    {kids : List Draft} (hb : outlineText locate css = .ok (.node d kids))
    (hmark : contains linkMark.toList css.toList = false) : ∀ b ∈ kids, ¬ b.label.NamesMap := by
  obtain ⟨-, hroot, htext⟩ := outlineText_eq_ok hb
  change d.kind = .root at hroot
  rw [Draft.text, Detail.isLeaf_of_root hroot, if_neg Bool.false_ne_true,
    Detail.heading_of_root hroot, String.empty_append] at htext
  refine @Draft.not_namesMap_of_textAll (d.raws.semicolon.getD false) _ ?_
  refine contains_eq_false_of_isInfix hmark ?_
  rw [← htext, String.toList_append]
  exact (List.prefix_append _ _).isInfix

/-- Reading a text changes nothing but the numbers of stylesheets. -/
theorem toEnvironment_parse (w : Workspace) (css : String) (options : ParseOptions) :
    (parse w css options).2.toEnvironment = w.toEnvironment := by
  have hcreate : (Input.create w css options).2.toEnvironment = w.toEnvironment := by
    unfold Input.create
    dsimp only
    split
    · rfl
    · cases options.source.map (Input.resolveFile w.directory) <;> rfl
  rw [← hcreate]
  unfold parse
  rcases Input.create w css options with ⟨input, w'⟩
  cases input <;> rfl

/-- Without plugins, a text is read and printed. -/
theorem Deferred.run_finish_of_no_plugins {σ : Type} {steps : Nat} (hsteps : 0 < steps)
    (awaits : Bool) (s : Workspace × σ) {css : String} {options : ProcessOptions} {t : Tree}
    (h : (parse s.1 css options.forParsing).1 = .ok t) :
    ((ofInput ([] : List (Plugin σ)) (.text css) options).finish steps awaits).run s =
      (({ tree := t, options } : Result).printed s.1.toEnvironment,
        (parse s.1 css options.forParsing).2, s.2) := by
  obtain ⟨n, rfl⟩ := Nat.exists_eq_succ_of_ne_zero (Nat.ne_of_gt hsteps)
  have hprepare : (ProcessInput.text css).prepare s.1 options =
      (.ok { tree := t, options }, (parse s.1 css options.forParsing).2) := by
    rw [ProcessInput.prepare]
    dsimp only
    rw [h]
    rfl
  rw [run_finish_of_prepare hprepare (runAfter_of_prepare hprepare _ awaits), PluginRun.go,
    if_neg (by exact Bool.false_ne_true), PluginRun.go_of_isOver (by rfl),
    ← toEnvironment_parse s.1 css options.forParsing]
  exact Prod.ext (Progress.printed?_ofOutcome (o := .ok { tree := t, options })) rfl

theorem eq_ok_of_mem_toOption {ε α : Type} {x : Except ε α} {a : α} (h : a ∈ x.toOption) :
    x = .ok a := by
  cases x with
  | error e => cases h
  | ok b => exact congrArg Except.ok (Option.some.inj h)

/-! ### The comment of a run -/

theorem startsLine_lineEnd (crlf : Bool) : StartsLine (if crlf then "\r\n" else "\n").toList := by
  cases crlf
  · exact ⟨'\n', [], rfl, Or.inl rfl⟩
  · exact ⟨'\r', ['\n'], rfl, Or.inr rfl⟩

theorem isSpace_lineEnd (crlf : Bool) :
    ∀ c ∈ (if crlf then "\r\n" else "\n").toList, isSpace c = true :=
  List.all_eq_true.mp (by cases crlf <;> decide)

namespace ProcessOptions

/-- Options for a map of its own that a comment names. What else is asked of the map is left
open. -/
def external (source target : Option String) (m : MapOptions) : ProcessOptions where
  source
  target
  map := .enabled { m with inline := some false, link := none }

/-- The comment that names the map. -/
def linkComment (e : Environment) (o : ProcessOptions) : String :=
  "/*# sourceMappingURL=" ++ (MapPlan.mk e o []).outputFile ++ ".map */"

/-- The name of the output does not end the comment. -/
def FileFits (e : Environment) (o : ProcessOptions) : Prop :=
  contains ['*', '/'] (MapPlan.mk e o []).outputFile.toList = false

instance (e : Environment) (o : ProcessOptions) : Decidable (FileFits e o) :=
  inferInstanceAs (Decidable (_ = false))

variable {e : Environment} {o : ProcessOptions}

theorem FileFits.body (h : FileFits e o) :
    contains ['*', '/'] ("# sourceMappingURL=" ++
      ((MapPlan.mk e o []).outputFile ++ ".map ")).toList = false := by
  have hfile : contains ['*', '/'] ((MapPlan.mk e o []).outputFile ++ ".map ").toList = false := by
    rw [String.toList_append]
    exact contains_append_eq_false h (by decide +kernel) (Or.inr (by decide +kernel))
  rw [String.toList_append]
  exact contains_append_eq_false (by decide +kernel) hfile (Or.inl (by decide +kernel))

/-- The comment that names the map, with either line break. -/
def trailer (h : FileFits e o) (crlf : Bool) : Trailer where
  lineEnd := if crlf then "\r\n" else "\n"
  body := "# sourceMappingURL=" ++ ((MapPlan.mk e o []).outputFile ++ ".map ")
  isLine := startsLine_lineEnd crlf
  isSpace := isSpace_lineEnd crlf
  isBody := splitAt?_append_self h.body (by decide)

theorem append_marks (file : String) : "/*# sourceMappingURL=" ++ file ++ ".map */" =
    "/*" ++ ("# sourceMappingURL=" ++ (file ++ ".map ")) ++ "*/" := by
  have hopen : "/*# sourceMappingURL=" = "/*" ++ "# sourceMappingURL=" := by decide +kernel
  have hclose : ".map */" = ".map " ++ "*/" := by decide +kernel
  have hsplit := congrArg₂ (fun a b => a ++ file ++ b) hopen hclose
  refine hsplit.trans ?_
  simp only [String.append_assoc]

theorem comment_trailer (h : FileFits e o) (crlf : Bool) :
    (trailer h crlf).comment = linkComment e o :=
  (append_marks _).symm

/-- The comment names a map. -/
theorem namesMap_trailer (h : FileFits e o) (crlf : Bool) :
    NamesMap (trimmed (trailer h crlf).body) :=
  namesMap_trimmed _

/-- The comment is found behind every text. -/
theorem findLink?_trailer (h : FileFits e o) (crlf : Bool) (css : String) :
    findLink? (css ++ (trailer h crlf).text) = findLink? (linkComment e o) := by
  have hsome : (lastLink? (trailer h crlf).comment.toList).isSome = true := by
    have hchars : (trailer h crlf).comment.toList = ['/', '*'] ++ ("# sourceMappingURL=".toList ++
        (((MapPlan.mk e o []).outputFile ++ ".map ").toList ++ ['*', '/'])) := by
      simp [Trailer.comment, trailer]
    refine isSome_lastLink?_of_linkBody? ?_
    rw [hchars, linkBody?_append]
    rfl
  rw [comment_trailer] at hsome
  rw [Trailer.text, comment_trailer, ← String.append_assoc, findLink?_append _ hsome]

variable {source target : Option String} {m : MapOptions}

theorem append_link (lineEnd file : String) :
    lineEnd ++ "/*# sourceMappingURL=" ++ (file ++ ".map") ++ " */" =
      lineEnd ++ ("/*# sourceMappingURL=" ++ file ++ ".map */") := by
  have hclose : ".map" ++ " */" = ".map */" := by decide +kernel
  refine Eq.trans ?_ (congrArg (fun b => lineEnd ++ ("/*# sourceMappingURL=" ++ file ++ b)) hclose)
  simp only [String.append_assoc]

/-- What a run writes behind the text when nothing came with a map. -/
theorem linkText_external (h : FileFits e (external source target m)) (css : String) :
    ∃ crlf, MapPlan.linkText css
        ((MapPlan.mk e (external source target m) []).outputFile ++ ".map") =
      (trailer h crlf).text := by
  refine ⟨contains ['\r', '\n'] css.toList, ?_⟩
  rw [Trailer.text, comment_trailer]
  exact append_link _ _

end ProcessOptions

open ProcessOptions

/-! ### What is written -/

/-- The map of an output, when it is wanted and no part of the text. -/
theorem MapPlan.output_of_separate {p : MapPlan} {t : Tree} (hwants : p.wantsMap = true)
    (hinline : p.isInline = false) (hlink : p.mapOptions.link = none) :
    p.output t = .ok ⟨if p.isLinked then (p.generateString t).1 ++
      linkText (p.generateString t).1 (p.outputFile ++ ".map") else (p.generateString t).1,
      some (p.mapOf t)⟩ := by
  have hurl : ∀ m, p.mapUrl m = .ok (p.outputFile ++ ".map") := by
    intro m
    rw [mapUrl, hinline, hlink]
    rfl
  rw [output, if_pos hwants, hinline]
  dsimp only
  rw [linked, hurl]
  cases p.isLinked <;> rfl

/-- The output for a tree that came without a map is its text with the comment behind it. -/
theorem exists_generate_external {source target : Option String} {m : MapOptions}
    (h : FileFits e (external source target m)) {t : Tree} (hmaps : ∀ i ∈ t.inputs, i.map = none) :
    ∃ crlf, t.generate e (external source target m) =
      (.ok ⟨Chunk.textOf (t.withoutLinks.chunks Tree.rootId) ++ (trailer h crlf).text,
        some ((MapPlan.ofTree e t (external source target m)).mapOf t.withoutLinks)⟩,
        t.withoutLinks) := by
  have hprevious : t.inputsInUse.filterMap Input.map = [] := by
    refine List.filterMap_eq_nil_iff.mpr fun i hi => ?_
    obtain ⟨k, -, hk⟩ := List.mem_filterMap.mp hi
    exact hmaps i (Array.mem_of_getElem? hk)
  have hplan : MapPlan.ofTree e t (external source target m) =
      ⟨e, external source target m, []⟩ := by
    rw [MapPlan.ofTree, hprevious]
  have hgenerate : t.generate e (external source target m) =
      ((MapPlan.ofTree e t (external source target m)).output t.withoutLinks, t.withoutLinks) := rfl
  obtain ⟨crlf, hlink⟩ := linkText_external h
    ((MapPlan.mk e (external source target m) []).generateString t.withoutLinks).1
  refine ⟨crlf, ?_⟩
  rw [hgenerate, hplan, MapPlan.output_of_separate (by rfl) (by rfl) (by rfl), ← hlink]
  rfl

/-! ### What is read -/

/-- A line break and what follows it do not make a byte order mark. -/
theorem Input.stripBom_append {css : String} (h : (stripBom css).2 = false) (r : Trailer) :
    stripBom (css ++ r.text) = (css ++ r.text, false) := by
  refine stripBom_of_false ?_
  rw [stripBom_eq_self_iff] at h ⊢
  rw [String.toList_append, List.head?_append]
  cases hhead : css.toList.head? with
  | some c =>
    rw [hhead] at h
    exact h
  | none =>
    obtain ⟨c, cs, hcs, hc⟩ := r.startsLine_text
    rw [hcs]
    rcases hc with rfl | rfl <;> simp

theorem Input.stripBom_of_append {css more : String} (h : (stripBom (css ++ more)).2 = false) :
    (stripBom css).2 = false := by
  rw [stripBom_eq_self_iff] at h ⊢
  rw [String.toList_append] at h
  intro hbom
  rw [List.head?_append, hbom] at h
  exact h rfl

theorem Input.isInfix_stripBom (css : String) : (Input.stripBom css).1.toList <:+: css.toList := by
  rw [toList_stripBom]
  split_ifs
  · exact (List.tail_suffix _).isInfix
  · exact List.infix_rfl

/-- The positions of a text. -/
def positions (css : String) : Nat → Position :=
  (Input.assemble css false none none none).position

theorem Input.position_eq {i : Input} (h : i.lines = LineIndex.ofText i.css.toList) :
    i.position = positions i.css := by
  funext offset
  rw [position, place, h]
  rfl

theorem agreeOn_positions (css more : String) :
    AgreeOn css (positions css) (positions (css ++ more)) :=
  @Input.agreeOn (.assemble css false none none none) (.assemble (css ++ more) false none none none)
    rfl rfl more rfl

/-- A text that is read and brings no map along. -/
theorem exists_parse {w : Workspace} {css text : String} {options : ParseOptions} {b : Draft}
    (htext : (Input.stripBom css).1 = text)
    (hload : PreviousMap.load w.toEnvironment text options = .ok none)
    (hb : outlineText (positions text) text = .ok b) :
    ∃ i w', parse w css options = (.ok (Tree.ofDraft i b), w') ∧
      w'.toEnvironment = w.toEnvironment ∧ i.map = none := by
  subst htext
  have hcreate : ∃ i w', Input.create w css options = (.ok i, w') ∧
      w'.toEnvironment = w.toEnvironment ∧ i.map = none ∧ i.css = (Input.stripBom css).1 ∧
      i.lines = LineIndex.ofText i.css.toList := by
    rw [Input.create]
    dsimp only
    rw [hload]
    cases options.source.map (Input.resolveFile w.directory) with
    | some file => exact ⟨_, _, rfl, rfl, rfl, rfl, rfl⟩
    | none => exact ⟨_, _, rfl, rfl, rfl, rfl, rfl⟩
  obtain ⟨i, w', hcreate, hsame, hmap, hcss, hlines⟩ := hcreate
  refine ⟨i, w', ?_, hsame, hmap⟩
  rw [parse, hcreate]
  dsimp only
  rw [Input.tree, Input.position_eq hlines, hcss, hb]

end Stylesheet
