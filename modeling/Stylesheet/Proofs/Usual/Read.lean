import Stylesheet.Proofs.Outline.Read
import Stylesheet.Proofs.Usual.Statements

/-!
# Reading the usual style

A text in the usual style is read as the branch it was made of. The reader is followed statement by
statement (`Outline.Reads`): the tokens of a node add that node to the block that is open
(`Outline.reads_spell`), whatever stands around it, by induction on the branch.

* `outlineText_spell`: the text of a plain branch is read as that branch.
-/

namespace Stylesheet

open Text Form

/-- What a node says, and whether it has a block. -/
def Detail.gist (d : Detail) : Content × Bool :=
  (d.content, d.block)

/-- What a node says that has a block if its kind can have one. -/
def Content.gist (content : Content) : Content × Bool :=
  (content, content.kind.canOwn)

/-! ### Fields -/

theorem toList_phrase_last {s : String} (hs : IsPhrase s) :
    ∃ front c, s.toList = front ++ [c] ∧ isBlank c = false := by
  obtain ⟨fs, w, hphrase, hw⟩ := phrase_eq_concat hs
  have htext : s = join fs ++ w := by
    rw [← join_phrase hs, hphrase]
    simp [word]
  obtain ⟨front, c, hlast⟩ := (List.eq_nil_or_concat' w.toList).resolve_left fun hnil =>
    hw.1 (String.toList_inj.mp hnil)
  refine ⟨(join fs).toList ++ front, c, ?_, isBlank_of_isAlphanum (hw.2 c ?_)⟩
  · rw [htext, String.toList_append, hlast, List.append_assoc]
  · rw [hlast]
    simp

theorem toList_phrase_first {s : String} (hs : IsPhrase s) :
    ∃ c cs, s.toList = c :: cs ∧ isBlank c = false := by
  obtain ⟨w, ws, -, hws, rfl⟩ := hs.exists_words
  obtain ⟨c, cs, htext, hc, -⟩ := (hws w List.mem_cons_self).exists_cons
  exact ⟨c, cs ++ (behindBlanks ws).toList, by simp [htext], isBlank_of_isAlphanum hc⟩

/-- The text of a comment is found between its blanks. -/
theorem trim_comment {text : String} (h : text = "" ∨ IsPhrase text) :
    trim (' ' :: text.toList ++ [' ']) = text.toList := by
  rcases h with rfl | h
  · decide
  · obtain ⟨c, cs, hfirst, hc⟩ := toList_phrase_first h
    obtain ⟨front, d, hlast, hd⟩ := toList_phrase_last h
    have hstart : trimStart (' ' :: text.toList ++ [' ']) = text.toList ++ [' '] := by
      rw [trimStart, List.cons_append, List.dropWhile_cons_of_pos (by decide), hfirst,
        List.cons_append, List.dropWhile_cons_of_neg (by simp [hc])]
    have hrev : (text.toList ++ [' ']).reverse = ' ' :: d :: front.reverse := by simp [hlast]
    rw [trim, hstart, trimEnd, hrev, List.dropWhile_cons_of_pos (by decide),
      List.dropWhile_cons_of_neg (by simp [hd]), List.reverse_cons, List.reverse_reverse, hlast]

/-- The parameters of an at-rule stand between two blanks. -/
theorem params_of_trail {ts : List Token} {params : String} (h : params = "" ∨ IsPhrase params)
    (hts : ts.map Token.form = trail (words params)) {b : Token} (hb : b.kind = .space) :
    cutGaps (ts ++ [b]) = (ts, [b]) ∧ cleanField false (ts.dropWhile Token.isGap) = (params, none)
    := by
  have hgap := isGap_of_space hb
  rcases h with rfl | h
  · obtain rfl : ts = [] := List.map_eq_nil_iff.mp hts
    exact ⟨by simp [cutGaps, hgap], rfl⟩
  · obtain ⟨w, ws, hwords, -, -⟩ := h.exists_words
    have hphrase : phrase params = word w :: trail ws := by rw [phrase, hwords]; rfl
    rw [hwords] at hts
    have hends := endsWithWord_of_trail (List.cons_ne_nil w ws) hts
    refine ⟨hends.cutGaps_append [b] (by simp [hgap]), ?_⟩
    obtain ⟨c, rest, rfl, hc, hrest⟩ := List.map_eq_cons_iff.mp hts
    have hkept : rest.map Token.form = phrase params := hrest.trans hphrase.symm
    obtain ⟨first, more, rfl, hfirst, -⟩ := List.map_eq_cons_iff.mp hrest
    rw [List.dropWhile_cons_of_pos (isGap_of_space (congrArg Form.kind hc)),
      List.dropWhile_cons_of_neg (by simp [isGap_of_word (congrArg Form.kind hfirst)]),
      cleanField_of_phrase h hkept]

namespace Outline

variable {locate : Nat → Position} {o o₁ o' : Outline} {ts ts₁ ts' : List Token}

/-! ### The reader, statement by statement -/

/-- From an outline and the tokens ahead, some statements lead to another outline with fewer tokens
ahead. -/
inductive Reads (locate : Nat → Position) : Outline → List Token → Outline → List Token → Prop
  | refl {o : Outline} {ts : List Token} : Reads locate o ts o ts
  | step {o o₁ o' : Outline} {t : Token} {ts rest ts' : List Token} {s : Statement}
    (hnext : nextStatement none t ts = .ok (s, rest)) (hstep : step locate o s = .ok o₁)
    (hrest : Reads locate o₁ rest o' ts') : Reads locate o (t :: ts) o' ts'

theorem Reads.trans (h : Reads locate o ts o₁ ts₁) (h' : Reads locate o₁ ts₁ o' ts') :
    Reads locate o ts o' ts' := by
  induction h with
  | refl => exact h'
  | step hnext hstep _ ih => exact .step hnext hstep (ih h')

/-- A reader that comes to the end has read all statements. -/
theorem Reads.foldlM (h : Reads locate o ts o' []) :
    (statementsFrom none ts).2 = none ∧
      (statementsFrom none ts).1.foldlM (Outline.step locate) o = .ok o' := by
  generalize hend : ([] : List Token) = left at h
  induction h with
  | refl =>
    rw [← hend, statementsFrom]
    exact ⟨rfl, rfl⟩
  | step hnext hstep _ ih =>
    rw [statementsFrom_of_ok hnext, List.foldlM_cons, hstep]
    exact ih hend

theorem reads_space {t : Token} (ht : t.kind = .space) :
    Reads locate o (t :: ts) { o with spaces := o.spaces ++ t.text } ts :=
  .step (by rw [nextStatement, ht]) rfl .refl

/-! ### What is added to a block -/

/-- The branches are added to the block that is open, and nothing else but formatting changes. -/
structure Grown (o o' : Outline) (bs : List (Branch Content)) : Prop where
  parents : o'.parents = o.parents
  detail : o'.current.detail = o.current.detail
  kids : ∃ ds : List Draft, ds.map (Branch.map Detail.gist) = bs.map (Branch.map Content.gist) ∧
    o'.current.kids = ds.reverse ++ o.current.kids

theorem Grown.refl (o : Outline) : o.Grown o [] :=
  ⟨rfl, rfl, [], rfl, rfl⟩

theorem Grown.trans {bs bs' : List (Branch Content)} (h : o.Grown o₁ bs) (h' : o₁.Grown o' bs') :
    o.Grown o' (bs ++ bs') := by
  obtain ⟨ds, hds, hkids⟩ := h.kids
  obtain ⟨ds', hds', hkids'⟩ := h'.kids
  refine ⟨h'.parents.trans h.parents, h'.detail.trans h.detail, ds ++ ds', ?_, ?_⟩
  · rw [List.map_append, List.map_append, hds, hds']
  · rw [hkids', hkids, List.reverse_append, List.append_assoc]

theorem grown_addLeaf {d : Detail} {content : Content} (hd : d.gist = content.gist)
    (closed : Bool) : o.Grown (o.addLeaf d closed) [.node content []] := by
  refine ⟨rfl, rfl, [.node d []], ?_, rfl⟩
  rw [List.map_singleton, List.map_singleton, Branch.map, Branch.map, hd]
  rfl

/-- A block is closed: the node it belongs to is added to the block around it. -/
theorem close_of_grown {d : Detail} {content : Content} {kids : List (Branch Content)}
    (hcontent : d.content = content) (hown : content.kind.canOwn = true)
    (h : (o.openBlock d).Grown o₁ kids) (locate : Nat → Position) (t : Token) :
    ∃ o', o₁.close locate t = .ok o' ∧ o.Grown o' [.node content kids] := by
  obtain ⟨ds, hds, hkids⟩ := h.kids
  have hkids' : o₁.current.kids = ds.reverse := hkids.trans (List.append_nil _)
  have hparents : o₁.parents = o.current :: o.parents := h.parents
  have hdetail : o₁.current.detail = { d with block := true } := h.detail
  rw [close, hparents]
  refine ⟨_, rfl, rfl, rfl, [_], ?_, rfl⟩
  have hgist : (withStop o₁.sealed (stopAt locate t)).gist = content.gist := by
    show (o₁.current.detail.content, o₁.current.detail.block) = content.gist
    rw [hdetail, Content.gist, hown, ← hcontent]
  rw [List.map_singleton, List.map_singleton, Branch.map, Branch.map, hgist, Branch.mapAll_eq,
    Branch.mapAll_eq, hkids', List.reverse_reverse, hds]

theorem reads_close {t : Token} (ht : t.kind = .closeCurly) (h : o.close locate t = .ok o') :
    Reads locate o (t :: ts) o' ts :=
  .step (s := .close t) (by rw [nextStatement, ht]) h .refl

/-! ### Nodes -/

/-- The end of a block is read. -/
theorem reads_ending (locate : Nat → Position) {d : Detail} {content : Content}
    {kids : List (Branch Content)} {depth : Nat} {isEmpty : Bool} (hcontent : d.content = content)
    (hown : content.kind.canOwn = true) (h : (o.openBlock d).Grown o₁ kids)
    (hts : ts.map Token.form = ending depth isEmpty) (rest : List Token) :
    ∃ o', Reads locate o₁ (ts ++ rest) o' rest ∧ o.Grown o' [.node content kids] := by
  cases isEmpty with
  | true =>
    obtain ⟨t, rfl, ht⟩ := List.map_eq_singleton_iff.mp hts
    obtain ⟨o', hclose, hgrown⟩ := close_of_grown hcontent hown h locate t
    exact ⟨o', reads_close (congrArg Form.kind ht) hclose, hgrown⟩
  | false =>
    obtain ⟨b, ts, rfl, hb, hts⟩ := List.map_eq_cons_iff.mp hts
    obtain ⟨t, rfl, ht⟩ := List.map_eq_singleton_iff.mp hts
    have hspaces : (o.openBlock d).Grown { o₁ with spaces := o₁.spaces ++ b.text } kids :=
      ⟨h.parents, h.detail, h.kids⟩
    obtain ⟨o', hclose, hgrown⟩ := close_of_grown hcontent hown hspaces locate t
    exact ⟨o', (reads_space (congrArg Form.kind hb)).trans
      (reads_close (congrArg Form.kind ht) hclose), hgrown⟩

theorem endsBlock_ending {depth : Nat} {isEmpty : Bool}
    (hts : ts.map Token.form = ending depth isEmpty) (rest : List Token) :
    EndsBlock (ts ++ rest) := by
  cases isEmpty with
  | true =>
    obtain ⟨t, rfl, ht⟩ := List.map_eq_singleton_iff.mp hts
    exact .of_closeCurly (congrArg Form.kind ht)
  | false =>
    obtain ⟨b, ts, rfl, hb, hts⟩ := List.map_eq_cons_iff.mp hts
    obtain ⟨t, rfl, ht⟩ := List.map_eq_singleton_iff.mp hts
    have hgap : ∀ u ∈ [b], u.isGap = true := by
      rw [List.forall_mem_singleton]
      exact isGap_of_space (congrArg Form.kind hb)
    have hclose : EndsBlock (t :: rest) := .of_closeCurly (congrArg Form.kind ht)
    rw [List.cons_append]
    exact hclose.append_gaps hgap

/-- Comments on lines of their own are gaps. -/
theorem isGap_of_comments {depth : Nat} {bs : List (Branch Content)}
    (hbs : (bs.any fun b => !isComment b) = false)
    (hts : ts.map Token.form = spellAll depth bs) : ∀ t ∈ ts, t.isGap = true := by
  -- Line breaks and comments are all that comments are spelled with.
  have hforms : ∀ bs : List (Branch Content), (bs.any fun b => !isComment b) = false →
      ∀ f ∈ spellAll depth bs, f.kind = .space ∨ f.kind = .comment := by
    intro bs hbs
    induction bs with
    | nil =>
      intro f hf
      cases hf
    | cons b bs ih =>
      rw [List.any_cons, Bool.or_eq_false_iff] at hbs
      obtain ⟨text, kids, rfl⟩ : ∃ text kids, b = .node (.comment text) kids := by
        obtain ⟨content, kids⟩ := b
        cases content with
        | comment text => exact ⟨text, kids, rfl⟩
        | _ => cases hbs.1
      rw [spellAll, spell]
      intro f hf
      rcases List.mem_cons.mp hf with rfl | hf
      · exact Or.inl rfl
      · rcases List.mem_cons.mp hf with rfl | hf
        · exact Or.inr rfl
        · exact ih hbs.2 f hf
  intro t ht
  obtain ⟨f, hf, hkind, -⟩ := kind_of_mem hts ht
  rw [Token.isGap, hkind]
  rcases hforms bs hbs f hf with hk | hk <;> rw [hk] <;> rfl

/-- A comment is added. -/
theorem reads_comment {text : String} (htext : text = "" ∨ IsPhrase text) {t : Token}
    (ht : t.form = Form.comment text) (rest : List Token) :
    ∃ o', Reads locate o (t :: rest) o' rest ∧ o.Grown o' [.node (.comment text) []] := by
  have hkind : t.kind = .comment := congrArg Form.kind ht
  have hchars : t.text.toList = '/' :: '*' :: (' ' :: text.toList ++ [' ']) ++ ['*', '/'] := by
    rw [show t.text = "/* " ++ text ++ " */" from congrArg Form.text ht]
    simp
  refine ⟨_, .step (by rw [nextStatement, hkind]) rfl .refl, grown_addLeaf ?_ _⟩
  show (Content.comment (String.ofList (trim (commentBody t.text.toList))), false) = _
  rw [hchars, commentBody_of_marks, trim_comment htext, String.ofList_toList]
  rfl

/-- What is added for the tokens of a declaration. -/
theorem declaration_of_parts (ts : List Token) (closed : Bool) {custom : Bool}
    {parts : DeclarationParts}
    (hclosed : closed = ts.getLast?.any fun t => t.kind == .semicolon)
    (hparts : readDeclaration custom (if closed then ts.dropLast else ts) = .ok parts)
    (o : Outline) (locate : Nat → Position) :
    ∃ o', o.declaration locate custom ts = .ok o' ∧
      o.Grown o' [.node (.declaration parts.prop parts.value parts.important) []] := by
  obtain ⟨o', hread⟩ : ∃ o', o.declaration locate custom ts = .ok o' := by
    rw [declaration, ← hclosed, hparts]
    exact ⟨_, rfl⟩
  obtain ⟨parts', d, hparts', rfl, hblock, hcontent, -⟩ := declaration_eq_ok hclosed hread
  obtain rfl : parts' = parts := Except.ok.inj (hparts'.symm.trans hparts)
  refine ⟨_, hread, grown_addLeaf ?_ closed⟩
  rw [Detail.gist, hblock, hcontent]
  rfl

theorem kind_of_gap {s : String} (hts : ts.map Token.form = gap s) :
    ∀ t ∈ ts, t.kind = .space := by
  intro t ht
  obtain ⟨f, hf, hkind, -⟩ := kind_of_mem hts ht
  rw [gap] at hf
  split_ifs at hf
  · cases hf
  · rw [hkind, List.mem_singleton.mp hf]

/-- A declaration is added, when its block ends behind it or it is closed by a semicolon. -/
theorem reads_declaration {prop front back value : String} {important closed : Bool}
    (hprop : IsWord prop) (hvalue : IsPhrase value) {rest : List Token}
    (hrest : closed = false → EndsBlock rest)
    (hts : ts.map Token.form = separated prop front back value important closed) :
    ∃ o', Reads locate o (ts ++ rest) o' rest ∧
      o.Grown o' [.node (.declaration prop value important) []] := by
  obtain ⟨p, ts, rfl, hp, hts⟩ := List.map_eq_cons_iff.mp hts
  obtain ⟨fs, ts, rfl, hfs, hts⟩ := List.map_eq_append_iff.mp hts
  obtain ⟨c, ts, rfl, hc, hts⟩ := List.map_eq_cons_iff.mp hts
  obtain ⟨bs, ts, rfl, hbs, hts⟩ := List.map_eq_append_iff.mp hts
  rw [← List.append_assoc] at hts
  obtain ⟨body, end_, rfl, hbody, hend⟩ := List.map_eq_append_iff.mp hts
  have hfspace := kind_of_gap hfs
  have hbspace := kind_of_gap hbs
  have hckind : c.kind = .colon := congrArg Form.kind hc
  obtain ⟨parts, hparts, rfl, rfl, rfl⟩ :=
    readDeclaration_of_forms hp hprop hfspace hckind hbspace hvalue hbody
  have hpkind : p.kind = .word := congrArg Form.kind hp
  have hptext : IsWord p.text := by
    rw [show p.text = parts.prop from congrArg Form.text hp]
    exact hprop
  have hfront : Quiet fs := fun u hu => Or.inr (isGap_of_space (hfspace u hu))
  obtain ⟨hbody, hword⟩ := quiet_of_value hvalue hbody
  have hends := hword.append bs
  -- Nothing up to the semicolon ends the statement.
  have hquiet : Quiet (bs ++ body) := List.forall_mem_append.mpr
    ⟨fun u hu => Or.inr (isGap_of_space (hbspace u hu)), hbody⟩
  cases closed with
  | true =>
    obtain ⟨e, rfl, he⟩ := List.map_eq_singleton_iff.mp hend
    have hekind : e.kind = .semicolon := congrArg Form.kind he
    have hlast : (p :: (fs ++ c :: (bs ++ body)) ++ [e]).getLast? = some e := List.getLast?_concat
    have hdrop : (p :: (fs ++ c :: (bs ++ body)) ++ [e]).dropLast =
        p :: (fs ++ c :: (bs ++ body)) := List.dropLast_concat
    obtain ⟨o', hread, hgrown⟩ := declaration_of_parts (p :: (fs ++ c :: (bs ++ body)) ++ [e]) true
      (by rw [hlast, Option.any_some, hekind]; rfl) (by rw [if_pos rfl, hdrop, hparts]) o locate
    refine ⟨o', ?_, hgrown⟩
    have hnext : nextStatement none p (fs ++ c :: (bs ++ body ++ e :: rest)) = _ :=
      nextStatement_declaration hpkind hptext hfront hckind hquiet hekind
    simpa using Reads.step hnext hread .refl
  | false =>
    obtain rfl : end_ = [] := List.map_eq_nil_iff.mp hend
    have hopen : (p :: (fs ++ c :: (bs ++ body))).getLast?.any (fun t => t.kind == .semicolon) =
        false := by
      obtain ⟨front, last, hsplit, hlast⟩ := hends.append (p :: (fs ++ [c]))
      simp only [List.cons_append, List.append_assoc, List.nil_append] at hsplit
      rw [hsplit, List.getLast?_concat, Option.any_some, hlast]
      rfl
    obtain ⟨o', hread, hgrown⟩ :=
      declaration_of_parts (p :: (fs ++ c :: (bs ++ body))) false hopen.symm hparts o locate
    refine ⟨o', ?_, hgrown⟩
    have hnext := nextStatement_openDeclaration hpkind hptext hfront hckind hquiet hends (hrest rfl)
    simpa using Reads.step hnext hread .refl

/-- The head of a rule opens its block. -/
theorem reads_ruleHead {selector : String} (hselector : IsPhrase selector) {b e : Token}
    (hts : ts.map Token.form = phrase selector) (hb : b.form = blank) (he : e.form = openCurly)
    (rest : List Token) :
    ∃ d, Reads locate o (ts ++ b :: e :: rest) (o.openBlock d) rest ∧
      d.content = .rule selector := by
  have hbkind : b.kind = .space := congrArg Form.kind hb
  have hekind : e.kind = .openCurly := congrArg Form.kind he
  -- A phrase ends with a word, so the gap behind it is the one blank.
  have hcut : cutGaps (ts ++ [b]) = (ts, [b]) :=
    (endsWithWord_of_phrase hselector hts).cutGaps_append [b] (by simp [isGap_of_space hbkind])
  have hcontent : (o.ruleDetail locate (ts ++ [b]) e).content = .rule selector := by
    rw [ruleDetail, hcut]
    dsimp only
    rw [cleanField_of_phrase hselector hts]
    rfl
  obtain ⟨w, ws, hwords, hws, -⟩ := hselector.exists_words
  rw [phrase, hwords, trail_cons, List.tail_cons] at hts
  obtain ⟨t, ts, rfl, ht, hts⟩ := List.map_eq_cons_iff.mp hts
  have hword : IsWord t.text := by
    rw [show t.text = w from congrArg Form.text ht]
    exact hws w List.mem_cons_self
  have hquiet : Quiet (ts ++ [b]) := (quiet_of_trail hts).concat hbkind
  have hnext : nextStatement none t (ts ++ [b] ++ e :: rest) = _ :=
    nextStatement_rule (congrArg Form.kind ht) hword hquiet hekind
  rw [List.append_assoc, List.singleton_append] at hnext
  exact ⟨_, .step hnext rfl .refl, hcontent⟩

/-- So does the head of an at-rule. -/
theorem reads_atRuleHead {name params : String} (hname : IsWord name)
    (hparams : params = "" ∨ IsPhrase params) {t b e : Token} (ht : t.form = atWord name)
    (hts : ts.map Token.form = trail (words params)) (hb : b.form = blank)
    (he : e.form = openCurly) (rest : List Token) :
    ∃ d, Reads locate o (t :: (ts ++ b :: e :: rest)) (o.openBlock d) rest ∧
      d.content = .atRule name params := by
  have hbkind : b.kind = .space := congrArg Form.kind hb
  have hekind : e.kind = .openCurly := congrArg Form.kind he
  have htext : t.text = "@" ++ name := congrArg Form.text ht
  obtain ⟨hcut, hfield⟩ := params_of_trail hparams hts hbkind
  have hquiet : Quiet (ts ++ [b]) := (quiet_of_trail hts).concat hbkind
  have hnext : nextStatement none t (ts ++ [b] ++ e :: rest) = _ :=
    nextStatement_atRule (congrArg Form.kind ht) htext hname hquiet hekind
  rw [List.append_assoc, List.singleton_append] at hnext
  -- The first character of the name token is the at-sign.
  have hread : ∃ d, o.atRule locate t (ts ++ [b]) (.block e) = .ok (o.openBlock d) ∧
      d.content = .atRule name params := by
    rw [atRule, hcut]
    dsimp only
    rw [hfield]
    refine ⟨_, rfl, ?_⟩
    show Content.atRule (String.ofList (t.text.toList.drop 1)) params = _
    rw [htext, String.toList_append]
    simp
  obtain ⟨d, hread, hcontent⟩ := hread
  exact ⟨d, .step hnext hread .refl, hcontent⟩

/-- Formatting in front of what is added. -/
theorem Grown.behind {spaces : String} {bs : List (Branch Content)}
    (h : Grown { o with spaces := spaces } o' bs) : o.Grown o' bs :=
  ⟨h.parents, h.detail, h.kids⟩

mutual

/-- The tokens of a node add it to the block that is open. -/
theorem reads_spell (locate : Nat → Position) (depth : Nat) (closed : Bool) :
    ∀ b : Branch Content, b.Plain → ∀ {ts rest : List Token} {o : Outline},
      ts.map Token.form = spell depth closed b →
      (b.label.kind = .declaration → closed = false → EndsBlock rest) →
      ∃ o', Reads locate o (ts ++ rest) o' rest ∧ o.Grown o' [b]
  | .node content kids, hplain, ts, rest, o, hts, hrest => by
    -- A block is read from its brace to its end, when its head is read.
    have hblock : ∀ {front back : List Token} {d : Detail},
        d.content = content → content.kind.canOwn = true →
        back.map Token.form = spellAll (depth + 1) kids ++ ending depth kids.isEmpty →
        Reads locate o (front ++ (back ++ rest)) (o.openBlock d) (back ++ rest) →
        ∃ o', Reads locate o (front ++ (back ++ rest)) o' rest ∧
          o.Grown o' [.node content kids] := by
      intro front back d hcontent hown hback hhead
      obtain ⟨inner, stop, rfl, hinner, hstop⟩ := List.map_eq_append_iff.mp hback
      obtain ⟨o₁, hkids, hgrown⟩ := reads_spellAll locate (depth + 1) kids hplain.rest
        (o := o.openBlock d) hinner (endsBlock_ending hstop rest)
      obtain ⟨o', hend, hnode⟩ := reads_ending locate hcontent hown hgrown hstop rest
      refine ⟨o', ?_, hnode⟩
      rw [List.append_assoc] at hhead ⊢
      exact hhead.trans (hkids.trans hend)
    obtain ⟨htop, hleaf⟩ := hplain.top
    cases content with
    | root => cases htop
    | rule selector =>
      rw [spell] at hts
      obtain ⟨head, ts, rfl, hhead, hts⟩ := List.map_eq_append_iff.mp hts
      obtain ⟨b, ts, rfl, hb, hts⟩ := List.map_eq_cons_iff.mp hts
      obtain ⟨e, back, rfl, he, hback⟩ := List.map_eq_cons_iff.mp hts
      obtain ⟨d, hread, hcontent⟩ := reads_ruleHead htop hhead hb he (back ++ rest)
      have hsplit : head ++ b :: e :: back ++ rest = head ++ [b, e] ++ (back ++ rest) := by simp
      rw [hsplit]
      exact hblock hcontent rfl hback (by simpa using hread)
    | atRule name params =>
      rw [spell] at hts
      obtain ⟨t, ts, rfl, ht, hts⟩ := List.map_eq_cons_iff.mp hts
      obtain ⟨head, ts, rfl, hhead, hts⟩ := List.map_eq_append_iff.mp hts
      obtain ⟨b, ts, rfl, hb, hts⟩ := List.map_eq_cons_iff.mp hts
      obtain ⟨e, back, rfl, he, hback⟩ := List.map_eq_cons_iff.mp hts
      obtain ⟨d, hread, hcontent⟩ := reads_atRuleHead htop.1 htop.2 ht hhead hb he (back ++ rest)
      have hsplit : t :: (head ++ b :: e :: back) ++ rest =
          t :: (head ++ [b, e]) ++ (back ++ rest) := by simp
      rw [hsplit]
      exact hblock hcontent rfl hback (by simpa using hread)
    | declaration prop value important =>
      rw [spell, ← separated_usual htop.2] at hts
      obtain rfl := hleaf rfl
      exact reads_declaration htop.1 htop.2 (hrest rfl) hts
    | comment text =>
      rw [spell] at hts
      obtain rfl := hleaf rfl
      obtain ⟨t, rfl, ht⟩ := List.map_eq_singleton_iff.mp hts
      exact reads_comment htop ht rest

/-- The tokens of several nodes add them in order, when the block ends behind them. -/
theorem reads_spellAll (locate : Nat → Position) (depth : Nat) :
    ∀ bs : List (Branch Content), (∀ b ∈ bs, b.Plain) → ∀ {ts rest : List Token} {o : Outline},
      ts.map Token.form = spellAll depth bs → EndsBlock rest →
      ∃ o', Reads locate o (ts ++ rest) o' rest ∧ o.Grown o' bs
  | [], _, ts, rest, o, hts, _ => by
    obtain rfl : ts = [] := List.map_eq_nil_iff.mp hts
    exact ⟨o, .refl, .refl o⟩
  | b :: bs, hplain, ts, rest, o, hts, hrest => by
    rw [List.forall_mem_cons] at hplain
    rw [spellAll] at hts
    obtain ⟨n, ts, rfl, hn, hts⟩ := List.map_eq_cons_iff.mp hts
    obtain ⟨front, back, rfl, hfront, hback⟩ := List.map_eq_append_iff.mp hts
    have hclosed : (bs.any fun b => !isComment b) = false → EndsBlock (back ++ rest) :=
      fun hcomments => hrest.append_gaps (isGap_of_comments hcomments hback)
    obtain ⟨o₁, hnode, hgrown⟩ := reads_spell locate depth (bs.any fun b => !isComment b) b hplain.1
      (o := { o with spaces := o.spaces ++ n.text }) hfront fun _ => hclosed
    obtain ⟨o', hmore, hall⟩ := reads_spellAll locate depth bs hplain.2 (o := o₁) hback hrest
    refine ⟨o', ?_, hgrown.behind.trans hall⟩
    rw [List.cons_append, List.append_assoc]
    exact (reads_space (congrArg Form.kind hn)).trans (hnode.trans hmore)

end

/-- At the start of a text there is no line break in front of the first node. -/
theorem reads_tail (locate : Nat → Position) (o : Outline) {bs : List (Branch Content)}
    (hplain : ∀ b ∈ bs, b.Plain) (hts : ts.map Token.form = (spellAll 0 bs).tail) :
    ∃ o', Reads locate o ts o' [] ∧ o.Grown o' bs := by
  cases bs with
  | nil =>
    obtain rfl : ts = [] := List.map_eq_nil_iff.mp hts
    exact ⟨o, .refl, .refl o⟩
  | cons b bs =>
    rw [List.forall_mem_cons] at hplain
    rw [spellAll, List.tail_cons] at hts
    obtain ⟨front, back, rfl, hfront, hback⟩ := List.map_eq_append_iff.mp hts
    have hend : EndsBlock [] := .nil
    -- A declaration without semicolon is last: behind it come comments, and then the end.
    have hclosed : (bs.any fun b => !isComment b) = false → EndsBlock back := fun hcomments => by
      simpa using hend.append_gaps (isGap_of_comments hcomments hback)
    obtain ⟨o₁, hnode, hgrown⟩ := reads_spell locate 0 (bs.any fun b => !isComment b) b
      hplain.1 (o := o) hfront fun _ => hclosed
    obtain ⟨o', hmore, hall⟩ := reads_spellAll locate 0 bs hplain.2 (o := o₁) hback hend
    rw [List.append_nil] at hmore
    exact ⟨o', hnode.trans hmore, hgrown.trans hall⟩

end Outline

theorem Form.fit_tail {bs : List (Branch Content)} (hplain : ∀ b ∈ bs, b.Plain) :
    Fit (spellAll 0 bs).tail := by
  have hfit : Fit (spellAll 0 bs ++ []) := fit_spellAll 0 bs hplain trivial fun _ => .nil
  rw [List.append_nil] at hfit
  cases bs with
  | nil => exact trivial
  | cons b bs =>
    rw [spellAll] at hfit ⊢
    exact hfit.2

/-- A text whose forms fit is read, when the reader comes to its end and has added some nodes. -/
theorem outlineText_of_reads (locate : Nat → Position) {fs : List Form}
    {bs : List (Branch Content)} (hfit : Fit fs)
    (hreads : ∀ ts : List Token, ts.map Token.form = fs →
      ∃ o', Outline.Reads locate .empty ts o' [] ∧ Outline.empty.Grown o' bs) :
    ∃ b, outlineText locate (join fs) = .ok b ∧
      b.map Detail.gist = (Branch.node .root bs).map Content.gist := by
  -- Forms that fit are cut into the tokens they were made of, and so nothing is left open.
  obtain ⟨hforms, hunclosed⟩ := lex_join hfit
  obtain ⟨o', hreads, hgrown⟩ := hreads _ hforms
  obtain ⟨hissue, hfold⟩ := hreads.foldlM
  obtain ⟨ds, hds, hkids⟩ := hgrown.kids
  have hparents : o'.parents = [] := hgrown.parents
  have hdetail : o'.current.detail = Outline.empty.current.detail := hgrown.detail
  have hcut : lex false (join fs) = (_, none) := Prod.ext rfl hunclosed
  rw [outlineText, hcut]
  simp only [hissue, hfold, bind, Except.bind, Outline.finish, hparents]
  refine ⟨_, rfl, ?_⟩
  have hgist : (Outline.withStop o'.sealed (locate (join fs).utf8ByteSize)).gist =
      Content.root.gist := by
    show (o'.current.detail.content, o'.current.detail.block) = Content.root.gist
    rw [hdetail]
    rfl
  rw [Branch.map, Branch.map, hgist, Branch.mapAll_eq, Branch.mapAll_eq, hkids,
    show Outline.empty.current.kids = [] from rfl, List.append_nil, List.reverse_reverse, hds]

/-- The text of plain nodes is read as these nodes. -/
theorem outlineText_spell (locate : Nat → Position) {bs : List (Branch Content)}
    (hplain : ∀ b ∈ bs, b.Plain) :
    ∃ b, outlineText locate (join (spellAll 0 bs).tail) = .ok b ∧
      b.map Detail.gist = (Branch.node .root bs).map Content.gist :=
  outlineText_of_reads locate (fit_tail hplain) fun _ hts =>
    Outline.reads_tail locate .empty hplain hts

/-- A declaration on its own is read, whatever blanks are around its colon. -/
theorem outlineText_separated (locate : Nat → Position) {prop front back value : String}
    (hprop : IsWord prop) (hfront : ∀ c ∈ front.toList, isSpace c = true)
    (hback : ∀ c ∈ back.toList, isSpace c = true) (hvalue : IsPhrase value)
    (important closed : Bool) :
    ∃ b, outlineText locate (join (separated prop front back value important closed)) = .ok b ∧
      b.map Detail.gist =
        (Branch.node .root [.node (.declaration prop value important) []]).map Content.gist := by
  have hfit : Fit (separated prop front back value important closed ++ []) :=
    fit_separated hprop hfront hback hvalue important closed trivial .nil
  rw [List.append_nil] at hfit
  refine outlineText_of_reads locate hfit fun ts hts => ?_
  obtain ⟨o', hread, hgrown⟩ : ∃ o', Outline.Reads locate .empty (ts ++ []) o' [] ∧
      Outline.empty.Grown o' [.node (.declaration prop value important) []] :=
    Outline.reads_declaration hprop hvalue (fun _ => EndsBlock.nil) hts
  rw [List.append_nil] at hread
  exact ⟨o', hread, hgrown⟩

end Stylesheet
