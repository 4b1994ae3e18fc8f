import Stylesheet.Proofs.Outline.Details
import Stylesheet.Proofs.Print.Remembered
import Stylesheet.Proofs.Print.Within
import Stylesheet.Proofs.Statement.Colon
import Stylesheet.Proofs.Tree.Reload
import Stylesheet.Proofs.Usual.Build

/-!
# What divides a property from a value

In a stylesheet that was read, what is captured between the property and the value of a declaration
has a colon (`Tree.parted_of_parse`). Edits keep it so as long as nothing else is captured there by
hand (`Tree.Furnished.parted`).

A declaration for which nothing was captured there gets what the first declaration of the stylesheet
has, without all that is neither blank nor a colon. So it gets as many colons as stand there
(`Tree.Furnished.separator`), and those of comments count: there is one at least, but there can be
more. With one colon, among blanks that the grammar knows, a plain declaration is read back as it
was.
-/

namespace Stylesheet

/-! ### What is captured -/

/-- What is captured between a property and a value has a colon. -/
def Detail.Parted (d : Detail) : Prop :=
  d.kind = .declaration → ∀ s ∈ d.raws.between, ':' ∈ s.toList

namespace Detail

variable {d d' : Detail}

theorem parted_of_ne_declaration (h : d.kind ≠ .declaration) : d.Parted :=
  fun hkind => absurd hkind h

/-- Without formatting there is no colon to look for. -/
theorem parted_of_none (h : d.raws.between = none) : d.Parted := by
  intro _ s hs
  rw [h] at hs
  cases hs

/-- It depends on the kind and on what is between the parts. -/
theorem Parted.congr (h : d.Parted) (hkind : d'.kind = d.kind)
    (hbetween : d'.raws.between = d.raws.between) : d'.Parted := by
  intro hd s hs
  rw [hbetween] at hs
  exact h (hkind ▸ hd) s hs

/-- Edits change what is between the parts of a declaration only by dropping it. -/
theorem lasting_parted : Detail.Lasting fun _ d => d.Parted where
  default _ := parted_of_ne_declaration nofun
  mono _ h := h
  around h before after between hbetween := by
    rcases hbetween with hsame | hnone
    · exact h.congr rfl hsame
    · exact parted_of_none hnone
  withContent h _ hkind := h.congr hkind rfl
  openBlock h := h.congr rfl rfl
  dropSource h _ := h.congr rfl rfl
  renumberInput h _ _ := h.congr rfl rfl

/-- A declaration that was read has its colon there. -/
theorem recorded_parted (locate : Nat → Position) : Detail.Recorded locate Detail.Parted where
  stop h _ hbetween _ _ := h.congr rfl hbetween
  other hkind _ _ _ := parted_of_ne_declaration hkind

end Detail

/-- Every declaration that is read has a colon between its property and its value. -/
theorem outlineText_parted {locate : Nat → Position} {css : String} {b : Draft}
    (h : outlineText locate css = .ok b) : ∀ d ∈ b.toList, d.Parted := by
  refine outlineText_all (Detail.recorded_parted locate)
    (Detail.parted_of_ne_declaration nofun) (fun custom ts hmem o o' hread => ?_) h
  obtain ⟨t, us, rest, hnext, hsuffix⟩ := exists_nextStatement hmem
  have htidy : ∀ u ∈ ts, u.Tidy := by
    intro u hu
    refine lex_tidy css u (hsuffix.subset ?_)
    rw [← nextStatement_append hnext]
    exact List.mem_append_left _ hu
  obtain ⟨parts, d, hparts, rfl, -, -, -, hbetween, -⟩ := Outline.declaration_eq_ok rfl hread
  refine ⟨d, _, rfl, fun _ s hs => ?_⟩
  rw [hbetween] at hs
  cases hs
  exact colon_mem_between htidy hnext rfl hparts

/-- What is captured in the material between properties and values has a colon. -/
def Material.Parted : Material → Prop
  | .bag b => b.Describes Detail.Parted
  | .bags bs => ∀ b ∈ bs, b.Describes Detail.Parted
  | _ => True

/-- The edit captures nothing between a property and a value that has no colon. -/
structure Edit.Parts (e : Edit) : Prop where
  material : ∀ m ∈ e.material?, m.Parted
  raws : ∀ id raws, e = .setRaws id raws → ∀ s ∈ raws.between, ':' ∈ s.toList

namespace Tree

variable {t : Tree}

/-- What is captured between properties and values has colons. -/
def Parted (t : Tree) : Prop :=
  t.Throughout (fun _ d => d.Parted) fun _ => True

/-- So have all declarations of a stylesheet. -/
theorem parted_of_parse {w : Workspace} {css : String} {options : ParseOptions}
    (h : (parse w css options).1 = .ok t) : t.Parted :=
  throughout_of_parse Detail.lasting_parted h (fun _ _ _ => outlineText_parted) fun _ _ => trivial

/-- A tree that comes up by reading stylesheets and editing, where nothing is captured between a
property and a value that has no colon. -/
inductive Furnished : Tree → Prop
  | empty : Furnished Tree.empty
  | parse {w : Workspace} {css : String} {options : ParseOptions} {t : Tree}
    (h : (Stylesheet.parse w css options).1 = .ok t) : Furnished t
  | edit {d : Desk} (hd : Furnished d.tree) (e : Edit) (hparts : e.Parts)
    (hlists : e.listsNodes = true → (e.run d).2.tree.Consistent)
    (hother : ∀ other shared, e.material? = some (.tree other shared) → Furnished other) :
    Furnished (e.run d).2.tree

namespace Furnished

theorem orderly (h : t.Furnished) : t.Orderly := by
  induction h with
  | empty => exact orderly_empty
  | parse h => exact orderly_of_parse h
  | edit hd e _ hlists _ ih ihother =>
    refine ih.edit (fun m hm => ?_) hlists
    cases m with
    | tree other shared => exact (ihother other shared hm).consistent
    | _ => trivial

theorem parted (h : t.Furnished) : t.Parted := by
  induction h with
  | empty =>
    exact throughout_empty Detail.lasting_parted (Detail.parted_of_ne_declaration nofun)
  | parse h => exact parted_of_parse h
  | edit hd e hparts hlists hother ih ihother =>
    refine Edit.throughout_run Detail.lasting_parted ⟨fun m hm => ?_, ?_⟩ ih
    -- What is inserted has to meet the condition too, whichever way it is given.
    · have hbag : ∀ b : Bag, b.Describes Detail.Parted → b.Describes fun d => Nat → d.Parted :=
        fun b hb => hb.mono fun d hd _ => hd
      have hm' := hparts.material m hm
      cases m with
      | node id => trivial
      | nodes ids => trivial
      | bag b => exact hbag b hm'
      | bags bs => exact fun b hb => hbag b (hm' b hb)
      | text css => exact fun w other hparse => parted_of_parse hparse
      | tree other shared => exact ihother other shared hm
    · exact fun id raws he _ d _ _ => hparts.raws id raws he

end Furnished

end Tree

open Text Form

/-! ### Reading a declaration back -/

/-- The text with one colon is the colon with what is around it. -/
theorem exists_around_colon {s : String} (hone : s.toList.count ':' = 1)
    (hs : ∀ c ∈ s.toList, c = ':' ∨ isSpace c = true) :
    ∃ front back, s = front ++ ":" ++ back ∧ (∀ c ∈ front.toList, isSpace c = true) ∧
      ∀ c ∈ back.toList, isSpace c = true := by
  obtain ⟨front, back, hsplit⟩ := List.append_of_mem
    (List.one_le_count_iff.mp (Nat.le_of_eq hone.symm))
  rw [hsplit, List.count_append, List.count_cons_self] at hone
  have hfront : front.count ':' = 0 := by omega
  have hback : back.count ':' = 0 := by omega
  -- Apart from its one colon the text is blank.
  have hspace : ∀ cs : List Char, cs.count ':' = 0 → cs ⊆ s.toList →
      ∀ c ∈ cs, isSpace c = true := by
    intro cs hnone hsub c hc
    refine (hs c (hsub hc)).resolve_left ?_
    rintro rfl
    exact List.count_eq_zero.mp hnone hc
  refine ⟨String.ofList front, String.ofList back, ?_, ?_, ?_⟩
  · rw [← String.toList_inj, hsplit]
    simp
  · rw [String.toList_ofList]
    exact hspace front hfront (by rw [hsplit]; exact List.subset_append_left _ _)
  · rw [String.toList_ofList]
    refine hspace back hback ?_
    rw [hsplit]
    exact fun c hc => List.mem_append_right _ (List.mem_cons_of_mem _ hc)

theorem join_separated {value : String} (hvalue : IsPhrase value) (prop front back : String)
    (important closed : Bool) :
    join (separated prop front back value important closed) =
      prop ++ (front ++ ":" ++ back) ++ value ++ (if important then " !important" else "") ++
        if closed then ";" else "" := by
  have hmark : join (trail (mark important)) = if important then " !important" else "" := by
    cases important <;> decide
  have hend : join (if closed then [semicolon] else []) = if closed then ";" else "" := by
    cases closed <;> decide
  simp only [separated, join_cons, join_append, join_gap, join_phrase hvalue, hmark, hend, word,
    colon, String.append_assoc]

/-- A plain declaration with one colon is read as it is. -/
theorem parse_declaration (w : Workspace) {raws : Raws} {prop between value : String}
    {important : Bool} (hprop : IsWord prop) (hvalue : IsPhrase value)
    (hone : between.toList.count ':' = 1)
    (hbetween : ∀ c ∈ between.toList, c = ':' ∨ isSpace c = true) (hraw : raws.value = none)
    (hmark : important = true → raws.important = none) (closed : Bool) :
    ∃ t, (parse w (Tree.declarationText raws between prop value important ++
        if closed then ";" else "") {}).1 = .ok t ∧
      (t.draft Tree.rootId).map Detail.gist =
        (Branch.node .root [.node (.declaration prop value important) []]).map Content.gist := by
  obtain ⟨front, back, rfl, hfront, hback⟩ := exists_around_colon hone hbetween
  have htext : (Tree.declarationText raws (front ++ ":" ++ back) prop value important ++
      if closed then ";" else "") = join (separated prop front back value important closed) := by
    rw [join_separated hvalue, Tree.declarationText, hraw]
    cases important with
    | false => rfl
    | true => rw [hmark rfl]; rfl
  rw [htext]
  refine parse_of_usual w (isUsual_of_mem_join ?_) fun locate => ?_
  · exact usual_separated hprop hfront hback hvalue important closed
  · exact outlineText_separated locate hprop hfront hback hvalue important closed

/-! ### What is printed -/

namespace Tree

variable {t : Tree} {x : NodeId} {n : Node}

/-- What the first declaration that captured it has between property and value. -/
def between? (t : Tree) : Option String :=
  t.findBelow? rootId fun _ n => if n.kind = .declaration then n.raws.between else none

/-- The blanks and the colons of a text. -/
def colonBlanks (s : String) : String :=
  String.ofList (s.toList.filter fun c => c == ':' || isBlank c)

/-- What stands around a colon is taken from the first declaration that has something there. -/
theorem style_colon (t : Tree) :
    t.style rootId .colon = (t.between?.map colonBlanks).getD ": " := by
  have hmap : t.sampleColon? rootId = t.between?.map colonBlanks := by
    rw [sampleColon?, between?, findBelow?, findBelow?, List.map_findSome?]
    refine congrArg (List.findSome? · _) (funext fun y => ?_)
    show _ = Option.map colonBlanks ((t.get? y).bind _)
    cases t.get? y with
    | none => rfl
    | some n =>
      simp only [Option.bind_some]
      split_ifs <;> rfl
  unfold style sample?
  rw [hmap]
  rfl

/-- What was captured in the first declaration has a colon. -/
theorem Parted.colon_mem_between? (h : t.Parted) : ∀ s ∈ t.between?, ':' ∈ s.toList := by
  intro s hs
  obtain ⟨y, -, hy⟩ := List.exists_of_findSome?_eq_some hs
  obtain ⟨n, hn, hs⟩ := Option.bind_eq_some_iff.mp hy
  dsimp only at hs
  split_ifs at hs with hkind
  exact h.of_get? hn hkind s hs

theorem Attached.rootOf_eq (ht : t.Consistent) (hroot : t.kind? rootId = some .root)
    (hx : t.Attached x) : t.rootOf x = rootId := by
  have hline : t.lineage rootId = [rootId] := by
    rw [lineage]
    cases t.nodes.size with
    | zero => rfl
    | succ size => rw [lineageWithin, parent?_rootId ht hroot]
  rw [ht.rootOf_of_mem_shape (ht.mem_shape_iff.mpr hx), rootOf, hline]
  rfl

/-- A declaration without anything captured between its parts is printed with the colon of the
style. -/
theorem Attached.printed_declaration (ht : t.Consistent) (hroot : t.kind? rootId = some .root)
    (hx : t.Attached x) (hn : t.get? x = some n) {prop value : String} {important : Bool}
    (hcontent : n.content = .declaration prop value important)
    (hbetween : n.raws.between = none) :
    Chunk.of x .whole (declarationText n.raws (t.style rootId .colon) prop value important ++
      if t.closes x then ";" else "") ∈ t.chunks rootId := by
  have hne : x ≠ rootId := by
    rintro rfl
    rw [kind?, hn, Option.map_some, Node.kind, hcontent] at hroot
    cases hroot
  have hparent : (t.parent? x).isNone = false := by
    rcases Relation.ReflTransGen.cases_head hx with heq | ⟨p, hp, -⟩
    · exact absurd heq hne
    · rw [show t.parent? x = some p from hp]
      rfl
  -- Without raws of its own the declaration uses the style of the tree.
  have hslot : (t.slot .none x n.raws.between .colon).run = t.style rootId .colon := by
    rw [hbetween, slot, hparent, if_neg Bool.false_ne_true, run_trait, hx.rootOf_eq ht hroot]
  have hleaf : n.detail.isLeaf = true := by
    rw [Detail.isLeaf, show n.detail.content = n.content from rfl, hcontent]
  have hkind : n.kind ≠ .comment := by
    rw [Node.kind, hcontent]
    simp [Content.kind]
  have hprinted := ht.printed_within hroot hx
  rw [printed, ht.shape_eq_node, printNode_of_isLeaf hn hleaf, leafText, hcontent] at hprinted
  dsimp only at hprinted
  rw [hslot] at hprinted
  simpa [hkind] using hprinted.subset List.mem_cons_self

/-- Blanks and colons are all that is taken over, and no colon is lost. -/
theorem count_colonBlanks (s : String) :
    (colonBlanks s).toList.count ':' = s.toList.count ':' := by
  rw [colonBlanks, String.toList_ofList]
  exact List.count_filter rfl

theorem mem_colonBlanks {s : String} {c : Char} (hc : c ∈ (colonBlanks s).toList) :
    c = ':' ∨ isBlank c = true := by
  rw [colonBlanks, String.toList_ofList, List.mem_filter, Bool.or_eq_true, beq_iff_eq] at hc
  exact hc.2

/-- **The separator of a declaration that was put in.** Between the property and the value of a
declaration for which nothing was captured there, blanks and colons are printed: as many colons as
the first declaration has there, one when there is no other declaration, and never none. With one
colon, among blanks that the grammar knows, a plain declaration is read back. -/
theorem Furnished.separator (h : t.Furnished) (hx : t.Attached x) (hn : t.get? x = some n)
    {prop value : String} {important : Bool}
    (hcontent : n.content = .declaration prop value important)
    (hbetween : n.raws.between = none) :
    ∃ separator : String, ∃ text : String,
      Chunk.of x .whole text ∈ t.chunks rootId ∧
      text = declarationText n.raws separator prop value important ++
        (if t.closes x then ";" else "") ∧
      (∀ c ∈ separator.toList, c = ':' ∨ isBlank c = true) ∧
      separator.toList.count ':' = (t.between?.map fun s => s.toList.count ':').getD 1 ∧
      1 ≤ separator.toList.count ':' ∧
      (separator.toList.count ':' = 1 →
        (∀ c ∈ separator.toList, isBlank c = true → isSpace c = true) →
        IsWord prop → IsPhrase value → n.raws.value = none →
        (important = true → n.raws.important = none) →
        ∀ w, ∃ u, (Stylesheet.parse w text {}).1 = .ok u ∧ (u.draft rootId).map Detail.gist =
          (Branch.node .root [.node (.declaration prop value important) []]).map
            Content.gist) := by
  have horderly := h.orderly
  have ht := horderly.consistent
  have hchunk := hx.printed_declaration ht horderly.rooted hn hcontent hbetween
  obtain ⟨hchars, hcount, hpos⟩ : (∀ c ∈ (t.style rootId .colon).toList,
      c = ':' ∨ isBlank c = true) ∧
      (t.style rootId .colon).toList.count ':' =
        (t.between?.map fun s => s.toList.count ':').getD 1 ∧
      1 ≤ (t.style rootId .colon).toList.count ':' := by
    rw [style_colon]
    -- No declaration to copy from: the separator is the usual one, with one colon.
    cases hfirst : t.between? with
    | none =>
      refine ⟨fun c hc => ?_, by decide, by decide⟩
      rcases List.mem_pair.mp (show c ∈ [':', ' '] from hc) with rfl | rfl <;> decide
    | some s =>
      have hmem := h.parted.colon_mem_between? s hfirst
      refine ⟨fun c => mem_colonBlanks, count_colonBlanks s, ?_⟩
      show 1 ≤ (colonBlanks s).toList.count ':'
      rw [count_colonBlanks]
      exact List.one_le_count_iff.mpr hmem
  refine ⟨t.style rootId .colon, _, hchunk, rfl, hchars, hcount, hpos, ?_⟩
  intro hone hblanks hprop hvalue hraw hmark w
  exact parse_declaration w hprop hvalue hone
    (fun c hc => (hchars c hc).imp_right (hblanks c hc)) hraw hmark (t.closes x)

/-- A stylesheet whose first rule gets another declaration. -/
def withDeclaration (css prop value : String) : Tree :=
  ((Edit.append ⟨1⟩ (.bag (.declaration prop value))).run ⟨sheet css, {}⟩).2.tree

/-- A stylesheet with a declaration at its end is furnished. -/
theorem furnished_withDeclaration {css : String} (hcss : (Stylesheet.parse {} css {}).1.isOk = true)
    (prop value : String) : (withDeclaration css prop value).Furnished := by
  have hparts : (Edit.append ⟨1⟩ (.bag (.declaration prop value))).Parts := by
    refine ⟨?_, fun _ _ h => nomatch h⟩
    rintro _ ⟨⟩
    refine .node (fun d hd => ?_) nofun
    cases hd
    exact Detail.parted_of_none rfl
  unfold withDeclaration
  refine .edit (d := ⟨sheet css, {}⟩) (.parse (parse_sheet hcss)) _ hparts ?_ ?_
  · exact fun hlists => absurd hlists Bool.false_ne_true
  · rintro _ _ ⟨⟩

theorem eq_of_around (front back : String) {s s' : String}
    (h : front ++ s ++ back = front ++ s' ++ back) : s = s' :=
  (String.append_right_inj _).mp ((String.append_left_inj _).mp h)

/-- The blanks around the colon are those of the declaration in front. -/
theorem separator_blanksAround :
    let t := withDeclaration "a\x7bb : c\x7d" "x" "y z"
    t.Furnished ∧ t.Attached ⟨3⟩ ∧ t.print = "a\x7bb : c;x : y z\x7d" ∧
      ∀ w, ∃ u, (Stylesheet.parse w "x : y z" {}).1 = .ok u ∧ (u.draft rootId).map Detail.gist =
        (Branch.node .root [.node (.declaration "x" "y z" false) []]).map Content.gist := by
  intro t
  have ht : t.Furnished := furnished_withDeclaration (by decide +kernel) _ _
  have hx : t.Attached ⟨3⟩ :=
    (ht.orderly.consistent.mem_shape_iff).mp (by decide +kernel)
  have hchunks : ∀ text, Chunk.of ⟨3⟩ .whole text ∈ t.chunks rootId → text = "x : y z" := by
    have hall : ∀ c ∈ t.chunks rootId, c.part = some (⟨3⟩, .whole) → c.text = "x : y z" := by
      decide +kernel
    exact fun text hmem => hall _ hmem rfl
  obtain ⟨n, hn⟩ : ∃ n, t.get? ⟨3⟩ = some n :=
    Option.isSome_iff_exists.mp (by decide +kernel)
  have hall : ∀ n ∈ t.get? ⟨3⟩, n.content = .declaration "x" "y z" false ∧
      n.raws = { before := some "" } := by
    decide +kernel
  obtain ⟨hcontent, hraws⟩ := hall n hn
  obtain ⟨separator, text, hchunk, htext, -, -, -, hback⟩ :=
    ht.separator hx hn hcontent (by rw [hraws])
  obtain rfl := hchunks text hchunk
  have hcloses : t.closes ⟨3⟩ = false := by decide +kernel
  -- The printed text determines the separator.
  have hseparator : " : " = separator := by
    rw [hraws, hcloses] at htext
    refine eq_of_around "x" "y z" ?_
    simpa [declarationText, RawValue.apply] using htext
  subst hseparator
  have hblanks : ∀ c ∈ [' ', ':', ' '], isBlank c = true → isSpace c = true := by
    simp only [List.forall_mem_cons, List.not_mem_nil, false_implies, implies_true, and_true]
    decide
  have hvalue : IsPhrase "y z" := ⟨["y", "z"], by decide, by decide, by decide⟩
  exact ⟨ht, hx, by decide +kernel,
    hback (by decide) hblanks (by decide) hvalue (by rw [hraws])
      fun h => absurd h Bool.false_ne_true⟩

/-- The colon of a comment is handed on as well, and what is printed then has a double colon. -/
theorem colon_of_comment_handed_on :
    ¬ ∀ (w : Workspace) (css : String) (options : ParseOptions) (t : Tree) (target c : NodeId)
      (prop value text : String), (Stylesheet.parse w css options).1 = .ok t →
      let done := (Edit.append target (.bag (.declaration prop value))).run ⟨t, w⟩
      done.1 = .ok [c] → Chunk.of c .whole text ∈ done.2.tree.chunks rootId →
        ∃ separator, text = prop ++ separator ++ value ++
            (if done.2.tree.closes c then ";" else "") ∧
          separator.toList.count ':' = 1 := by
  intro h
  obtain ⟨separator, htext, hone⟩ := h {} "a\x7bb:/*:*/c\x7d" {} _ ⟨1⟩ ⟨3⟩ "x" "y" "x::y"
    (parse_sheet (by decide +kernel)) (by decide +kernel) (by decide +kernel)
  have hcloses : ((Edit.append ⟨1⟩ (.bag (.declaration "x" "y"))).run
      ⟨sheet "a\x7bb:/*:*/c\x7d", {}⟩).2.tree.closes ⟨3⟩ = false := by
    decide +kernel
  have hseparator : "::" = separator := by
    refine eq_of_around "x" "y" ?_
    simpa [hcloses] using htext
  subst hseparator
  exact absurd hone (by decide)

end Tree

end Stylesheet
