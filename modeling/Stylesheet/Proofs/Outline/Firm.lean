import Stylesheet.Proofs.Outline.Read
import Stylesheet.Proofs.Statement.Colon

/-!
# Where the nodes that were read end

Behind a node that was read stands a character of its own: a brace, a semicolon, the mark of a
comment, or the last character of a declaration that comments follow. This character is no line
break, and the end of the node is known. The one exception is a last child without a semicolon.

`Detail.Firm` is the property of a node and its children, and `outlineText_firm` says that it holds
of all that is read.
-/

namespace Stylesheet

open Text

/-! ### Nodes and their ends -/

/-- The end of the node is known. -/
def Detail.Ended (d : Detail) : Prop :=
  ∃ input start stop, d.source = some ⟨input, start, some stop⟩

theorem Detail.ended_withStop {d : Detail} {s : Source} (h : d.source = some s) (stop : Position) :
    (Outline.withStop d stop).Ended :=
  ⟨s.input, s.start, stop, by rw [Outline.withStop, h]; rfl⟩

/-- A closed leaf ends with its semicolon, a comment with its mark. -/
theorem Detail.endsInLine_closed (d : Detail) : EndsInLine (d.leafText true) := by
  unfold leafText
  cases d.content with
  | root => exact endsInLine_empty
  | rule selector => exact endsInLine_empty
  | atRule name params => exact EndsInLine.append (by decide) (by decide) _
  | declaration prop value important => exact EndsInLine.append (by decide) (by decide) _
  | comment text => exact EndsInLine.append (by decide) (by decide) _

namespace Draft

/-- The end of the node is known, and a leaf does not end with a line break. -/
def FirmEnd (closed : Bool) (b : Draft) : Prop :=
  b.label.Ended ∧ (b.label.isLeaf = true → EndsInLine (b.label.leafText closed))

/-- The children of a node have firm ends, the way they are printed. -/
def FirmAll (closesLast : Bool) : List Draft → Prop
  | [] => True
  | b :: bs =>
    FirmEnd (bs.any (fun b => !isComment b) || closesLast) b ∧ FirmAll closesLast bs

theorem FirmEnd.closed {closed : Bool} {b : Draft} (h : FirmEnd closed b) : FirmEnd true b :=
  ⟨h.1, fun _ => b.label.endsInLine_closed⟩

theorem firmEnd_of_isLeaf_false {b : Draft} (hleaf : b.label.isLeaf = false)
    (hended : b.label.Ended) (closed : Bool) : FirmEnd closed b :=
  ⟨hended, fun h => absurd h (by rw [hleaf]; exact Bool.false_ne_true)⟩

theorem FirmAll.closed {closesLast : Bool} {bs : List Draft} (h : FirmAll closesLast bs) :
    FirmAll true bs := by
  induction bs with
  | nil => trivial
  | cons b bs ih => exact ⟨by rw [Bool.or_true]; exact h.1.closed, ih h.2⟩

/-- One more child that is no comment. -/
theorem firmAll_concat (closesLast : Bool) (bs : List Draft) {b : Draft}
    (hb : isComment b = false) :
    FirmAll closesLast (bs ++ [b]) ↔ FirmAll true bs ∧ FirmEnd closesLast b := by
  induction bs with
  | nil => simp [FirmAll]
  | cons a bs ih =>
    rw [List.cons_append, FirmAll, FirmAll, ih]
    simp [hb, and_assoc]

/-- One more comment. -/
theorem firmAll_concat_comment (closesLast : Bool) (bs : List Draft) {b : Draft}
    (hb : isComment b = true) :
    FirmAll closesLast (bs ++ [b]) ↔ FirmAll closesLast bs ∧ FirmEnd closesLast b := by
  induction bs with
  | nil => simp [FirmAll]
  | cons a bs ih =>
    rw [List.cons_append, FirmAll, FirmAll, ih]
    simp [hb, and_assoc]

/-- The last child is a leaf without a semicolon, which may end as it likes. -/
def OpenLast (closesLast : Bool) (bs : List Draft) : Prop :=
  closesLast = false ∧ ∃ front b, bs = front ++ [b] ∧ b.label.isLeaf = true ∧
    isComment b = false ∧ FirmAll true front

end Draft

/-- The children have firm ends, up to a last one that is not closed, and so have the semicolons
behind a rule. No declaration is empty. -/
structure Detail.Firm (d : Detail) (kids : List Draft) : Prop where
  text : d.kind = .declaration → d.leafText false ≠ ""
  own : d.kind = .rule → EndsInLine (d.raws.ownSemicolon.getD "")
  kids : Draft.FirmAll (d.raws.semicolon.getD false) kids ∨
    Draft.OpenLast (d.raws.semicolon.getD false) kids

/-! ### Outlines -/

/-- All blocks that are open were read somewhere, and the nodes in them have firm ends, up to those
of the current block. -/
structure Outline.Steady (o : Outline) : Prop where
  source : ∀ f ∈ o.current :: o.parents, f.detail.source.isSome = true
  every : ∀ f ∈ o.current :: o.parents, ∀ b ∈ f.kids, b.Every Detail.Firm
  around : ∀ f ∈ o.parents, Draft.FirmAll true f.kids.reverse

/-- The children of the current block have firm ends as well, or the block ends here. -/
structure Outline.Firm (o : Outline) (rest : List Token) : Prop extends o.Steady where
  current : Draft.FirmAll o.semicolon o.current.kids.reverse ∨
    Draft.OpenLast o.semicolon o.current.kids.reverse ∧ EndsNow rest

namespace Outline

variable {locate : Nat → Position} {o o' : Outline} {t : Token} {ts rest : List Token}

/-- The current block, when it ends here. -/
theorem firm_sealed (hproper : o.current.Proper)
    (hcurrent : Draft.FirmAll o.semicolon o.current.kids.reverse ∨
      Draft.OpenLast o.semicolon o.current.kids.reverse) (stop : Position) :
    (withStop o.sealed stop).Firm o.current.kids.reverse where
  text hkind := by
    have hcan := hproper.canOwn
    rw [show o.current.detail.kind = .declaration from hkind] at hcan
    cases hcan
  own _ := by
    show EndsInLine (o.current.detail.raws.ownSemicolon.getD "")
    rw [hproper.ownSemicolon]
    exact endsInLine_empty
  kids := by
    show Draft.FirmAll ((if o.current.kids.isEmpty then o.current.detail.raws.semicolon
      else some o.semicolon).getD false) _ ∨ Draft.OpenLast ((if o.current.kids.isEmpty then
        o.current.detail.raws.semicolon else some o.semicolon).getD false) _
    cases hkids : o.current.kids with
    | nil => exact Or.inl trivial
    | cons b bs =>
      rw [hkids] at hcurrent
      exact hcurrent

/-- A block that closes is one more child with a firm end. -/
theorem Steady.close (h : o.Steady) (hproper : o.Proper)
    (hcurrent : Draft.FirmAll o.semicolon o.current.kids.reverse ∨
      Draft.OpenLast o.semicolon o.current.kids.reverse)
    (hclose : o.close locate t = .ok o') (rest : List Token) : o'.Firm rest := by
  obtain ⟨hsource, hevery, haround⟩ := h
  obtain ⟨parent, parents, hparents, rfl⟩ := exists_of_close hclose
  rw [hparents] at hsource hevery haround
  obtain ⟨s, hs⟩ := Option.isSome_iff_exists.mp (hsource o.current List.mem_cons_self)
  set b : Draft := .node (withStop o.sealed (stopAt locate t)) o.current.kids.reverse
  -- The node that is closed becomes the last child of its parent.
  have hfirm : b.Every Detail.Firm := by
    refine .node (firm_sealed hproper.proper hcurrent _) fun c hc => ?_
    exact hevery o.current List.mem_cons_self c (List.mem_reverse.mp hc)
  have hleaf : b.label.isLeaf = false := hproper.proper.isLeaf
  rw [List.forall_mem_cons, List.forall_mem_cons] at hsource hevery
  rw [List.forall_mem_cons] at haround
  refine ⟨⟨?_, ?_, haround.2⟩, Or.inl ?_⟩
  · exact List.forall_mem_cons.mpr hsource.2
  · exact List.forall_mem_cons.mpr
      ⟨List.forall_mem_cons.mpr ⟨hfirm, hevery.2.1⟩, hevery.2.2⟩
  · show Draft.FirmAll false (b :: parent.kids).reverse
    rw [List.reverse_cons, Draft.firmAll_concat _ _ (Draft.isComment_of_isLeaf_false hleaf)]
    exact ⟨haround.1,
      Draft.firmEnd_of_isLeaf_false hleaf (Detail.ended_withStop (s := s) hs _) false⟩

theorem Steady.addLeaf (h : o.Steady) {d : Detail} (hkind : d.kind ≠ .rule)
    (htext : d.kind = .declaration → d.leafText false ≠ "") (semicolon : Bool) :
    (o.addLeaf d semicolon).Steady where
  source := List.forall_mem_cons.mpr (List.forall_mem_cons.mp h.source)
  every := by
    have hevery := List.forall_mem_cons.mp h.every
    refine List.forall_mem_cons.mpr ⟨List.forall_mem_cons.mpr ⟨?_, hevery.1⟩, hevery.2⟩
    exact .node ⟨htext, fun h => absurd h hkind, Or.inl trivial⟩
      fun b hb => absurd hb List.not_mem_nil
  around := h.around

theorem Steady.openBlock (h : o.Steady)
    (hcurrent : Draft.FirmAll o.semicolon o.current.kids.reverse) {d : Detail}
    (hd : d.source.isSome = true) (rest : List Token) : (o.openBlock d).Firm rest where
  source := List.forall_mem_cons.mpr ⟨hd, h.source⟩
  every := List.forall_mem_cons.mpr ⟨fun _ hb => absurd hb List.not_mem_nil, h.every⟩
  around := List.forall_mem_cons.mpr ⟨hcurrent.closed, h.around⟩
  current := Or.inl trivial

/-- One more leaf that is closed, or has a firm end without that. -/
theorem Steady.addFirm (h : o.Steady) (hcurrent : Draft.FirmAll o.semicolon o.current.kids.reverse)
    {d : Detail} (hkind : d.kind ≠ .rule) (htext : d.kind = .declaration → d.leafText false ≠ "")
    (hcomment : Draft.isComment (.node d []) = false) {semicolon : Bool}
    (hend : Draft.FirmEnd semicolon (.node d [])) (rest : List Token) :
    (o.addLeaf d semicolon).Firm rest where
  toSteady := h.addLeaf hkind htext semicolon
  current := by
    refine Or.inl ?_
    show Draft.FirmAll semicolon (.node d [] :: o.current.kids).reverse
    rw [List.reverse_cons, Draft.firmAll_concat _ _ hcomment]
    exact ⟨hcurrent.closed, hend⟩

/-- One more leaf that is not closed, in front of the end of the block. -/
theorem openLast_addLeaf (hcurrent : Draft.FirmAll o.semicolon o.current.kids.reverse) {d : Detail}
    (hleaf : d.isLeaf = true) (hcomment : Draft.isComment (.node d []) = false) :
    Draft.OpenLast (o.addLeaf d false).semicolon (o.addLeaf d false).current.kids.reverse :=
  ⟨rfl, _, _, List.reverse_cons, hleaf, hcomment, hcurrent.closed⟩

/-! ### One statement -/

theorem freeSemicolon_firm (h : o.Steady)
    (hcurrent : Draft.FirmAll o.semicolon o.current.kids.reverse) (ht : t.text = ";")
    (rest : List Token) : (o.freeSemicolon locate t).Firm rest := by
  rcases freeSemicolon_cases o locate t with heq | ⟨d, kids, more, hkids, hkind, -, heq⟩
  · rw [heq]
    exact ⟨⟨h.source, h.every, h.around⟩, Or.inl hcurrent⟩
  · -- The semicolon and what is in front of it become a part of the rule.
    rw [heq]
    have hleaf : d.isLeaf = false := Detail.isLeaf_of_rule hkind
    have hcomment := Draft.isComment_of_isLeaf_false (b := .node d kids) hleaf
    have hevery := List.forall_mem_cons.mp h.every
    rw [hkids] at hevery hcurrent
    obtain ⟨hfirst, hmore⟩ := List.forall_mem_cons.mp hevery.1
    rw [List.reverse_cons, Draft.firmAll_concat _ _ hcomment] at hcurrent
    obtain ⟨hfront, ⟨input, start, stop, hsource⟩, -⟩ := hcurrent
    refine ⟨⟨List.forall_mem_cons.mpr (List.forall_mem_cons.mp h.source), ?_, h.around⟩,
      Or.inl ?_⟩
    · refine List.forall_mem_cons.mpr ⟨List.forall_mem_cons.mpr ⟨?_, hmore⟩, hevery.2⟩
      refine .node ⟨hfirst.top.text, fun _ => ?_, hfirst.top.kids⟩ hfirst.rest
      show EndsInLine (o.spaces ++ t.text)
      rw [ht]
      exact EndsInLine.append (by decide) (by decide) _
    · show Draft.FirmAll o.semicolon (.node _ kids :: more).reverse
      rw [List.reverse_cons, Draft.firmAll_concat]
      · refine ⟨hfront, Draft.firmEnd_of_isLeaf_false ?_ ?_ _⟩
        · exact hleaf
        · exact Detail.ended_withStop (s := ⟨input, start, some stop⟩) hsource _
      · exact Draft.isComment_of_isLeaf_false hleaf

theorem comment_firm (h : o.Steady)
    (hcurrent : Draft.FirmAll o.semicolon o.current.kids.reverse) (rest : List Token) :
    (o.addLeaf (o.commentDetail locate t) o.semicolon).Firm rest where
  toSteady := h.addLeaf (fun hkind => by cases hkind) (fun hkind => by cases hkind) _
  current := by
    refine Or.inl ?_
    show Draft.FirmAll o.semicolon (.node (o.commentDetail locate t) [] :: o.current.kids).reverse
    rw [List.reverse_cons, Draft.firmAll_concat_comment _ _ (by rfl)]
    refine ⟨hcurrent, ⟨_, _, _, rfl⟩, fun _ => ?_⟩
    exact EndsInLine.append (by decide) (by decide) _

/-- A declaration that no semicolon closes ends with a token of its own, or in front of the end of
the block. -/
theorem nextStatement_open {pending : Option Unclosed} {custom : Bool} {us : List Token}
    (h : nextStatement pending t ts = .ok (.declaration custom us, rest))
    (hopen : us.getLast?.any (fun t => t.kind == .semicolon) = false) :
    EndsNow rest ∨ ∃ front e, us = front ++ [e] ∧ e.isGap = false := by
  have hne := nextStatement_ne_nil h
  cases FirstStatement.of_nextStatement h with
  | closed hk => simp [hk] at hopen
  | custom _ _ hrest => exact Or.inl hrest
  | @plain taken =>
    -- The gaps at the end were cut off.
    refine Or.inr ?_
    obtain ⟨e, he⟩ := Option.isSome_iff_exists.mp (List.getLast?_isSome.mpr hne)
    obtain ⟨front, hfront⟩ := List.getLast?_eq_some_iff.mp he
    refine ⟨front, e, hfront, ?_⟩
    change (cutGaps taken).1.getLast? = some e at he
    rw [cutGaps, List.getLast?_reverse] at he
    have := List.head?_dropWhile_not Token.isGap taken.reverse
    rw [he] at this
    simpa using this

theorem declarationText_ne_empty {raws : Raws} {prop between value : String} {important : Bool}
    (h : ':' ∈ between.toList) :
    Tree.declarationText raws between prop value important ≠ "" := by
  intro hempty
  simp only [Tree.declarationText, String.append_eq_empty_iff] at hempty
  rw [hempty.1.1.2] at h
  cases h

theorem declaration_firm {pending : Option Unclosed} {custom : Bool} {us : List Token}
    (h : o.Steady) (hcurrent : Draft.FirmAll o.semicolon o.current.kids.reverse)
    (hus : ∀ u ∈ us, u.Tidy)
    (hnext : nextStatement pending t ts = .ok (.declaration custom us, rest))
    (hread : o.declaration locate custom us = .ok o') : o'.Firm rest := by
  obtain ⟨closed, hclosed⟩ : ∃ closed, closed = us.getLast?.any fun t => t.kind == .semicolon :=
    ⟨_, rfl⟩
  obtain ⟨parts, d, hparts, rfl, hblock, hcontent, hbefore, hbetween, himportant, hvalue,
    hsource⟩ := declaration_eq_ok hclosed hread
  have hleaf : d.isLeaf = true := by rw [Detail.isLeaf, hcontent]
  have hcomment : Draft.isComment (.node d []) = false := by
    rw [Draft.isComment, Branch.label, Detail.kind, hcontent]
    rfl
  have hkind : d.kind ≠ .rule := by
    rw [Detail.kind, hcontent]
    exact fun h => by cases h
  have hleafText : d.leafText false = Tree.declarationText d.raws parts.between parts.prop
      parts.value parts.important := by
    rw [Detail.leafText, hcontent, hbetween]
    exact String.append_empty
  have htext : d.leafText false ≠ "" := by
    rw [hleafText]
    exact declarationText_ne_empty (colon_mem_between hus hnext hclosed hparts)
  have hended : (∃ e, declarationLast? closed us = some e) → d.Ended := by
    rintro ⟨e, he⟩
    rw [he] at hsource
    exact ⟨_, _, _, hsource⟩
  cases hc : closed with
  | true =>
    refine h.addFirm hcurrent hkind (fun _ => htext) hcomment
      ⟨hended ?_, fun _ => d.endsInLine_closed⟩ rest
    rw [hc, declarationLast?, if_pos rfl]
    cases hlast : us.getLast? with
    | none => rw [hlast, hc] at hclosed; cases hclosed
    | some e => exact ⟨e, rfl⟩
  | false =>
    rw [hc] at hclosed hparts
    rcases nextStatement_open hnext hclosed.symm with hnow | ⟨front, e, rfl, hgap⟩
    · exact ⟨h.addLeaf hkind (fun _ => htext) _,
        Or.inr ⟨openLast_addLeaf hcurrent hleaf hcomment, hnow⟩⟩
    · rw [Token.isGap, Bool.or_eq_false_iff, beq_eq_false_iff_ne] at hgap
      obtain ⟨hspelled, -, -, hline⟩ := hus e (by simp)
      refine h.addFirm hcurrent hkind (fun _ => htext) hcomment ⟨hended ?_, fun _ => ?_⟩ rest
      · rw [hc, declarationLast?, if_neg Bool.false_ne_true, List.reverse_append]
        simp [hgap.1]
      · -- The text of the declaration ends with that of its last token.
        have hjoin := readDeclaration_text hparts hvalue himportant
        rw [if_neg Bool.false_ne_true, Token.join_append, Token.join_singleton] at hjoin
        have hend := (hline hgap.1).append hspelled.text_ne (Token.join front)
        rw [← hjoin] at hend
        show EndsInLine (d.leafText false)
        rw [hleafText]
        exact hend.of_append

/-- Nothing is left behind an at-rule that the end of the text ends. -/
theorem nextStatement_textEnd {pending : Option Unclosed} {name : Token} {params : List Token}
    (hts : ∀ u ∈ t :: ts, u.Spelled)
    (h : nextStatement pending t ts = .ok (.atRule name params .textEnd, rest)) : rest = [] := by
  generalize hs : Statement.atRule name params .textEnd = s at h
  cases FirstStatement.of_nextStatement h with
  | atRule =>
    refine (cutParams_fits fun u hu => hts u (List.mem_cons_of_mem _ hu)).2 ?_
    injection hs with _ _ hend
    exact hend.symm
  | _ => cases hs

theorem atRule_firm {name : Token} {params : List Token} {ending : AtRuleEnd} (hproper : o.Proper)
    (h : o.Steady) (hcurrent : Draft.FirmAll o.semicolon o.current.kids.reverse)
    (hend : ending = .textEnd → rest = [])
    (hread : o.atRule locate name params ending = .ok o') : o'.Firm rest := by
  obtain ⟨d, between, left, hd, -, -, hcase⟩ := atRule_eq_ok hread
  have hkind : d.kind ≠ .rule := by rw [hd.kind]; decide
  have htext : d.kind = .declaration → d.leafText false ≠ "" := by
    intro h
    rw [hd.kind] at h
    cases h
  have hcomment := hd.isComment []
  -- Ended by a brace or by the text, the at-rule has no end of its own; then it is the last child.
  cases ending with
  | semicolon e =>
    rw [atRule] at hread
    cases hread
    refine h.addFirm hcurrent ?_ ?_ ?_ ⟨⟨_, _, _, rfl⟩, fun _ => Detail.endsInLine_closed _⟩ rest
    · exact fun h => by cases h
    · exact fun h => by cases h
    · rfl
  | block e =>
    obtain ⟨-, rfl⟩ := hcase
    obtain ⟨stop, hsource⟩ := hd.starts
    exact h.openBlock hcurrent (by rw [hsource]; rfl) rest
  | close e =>
    exact (h.addLeaf hkind htext false).close (hproper.add hd.takes false)
      (Or.inr (openLast_addLeaf hcurrent hd.isLeaf hcomment)) hcase.2 rest
  | textEnd =>
    dsimp only at hcase
    rw [hcase, hend rfl]
    have hsteady := h.addLeaf hkind htext false
    exact ⟨⟨hsteady.source, hsteady.every, hsteady.around⟩,
      Or.inr ⟨openLast_addLeaf hcurrent hd.isLeaf hcomment, EndsNow.nil⟩⟩

/-- Every statement leaves firm ends. -/
theorem step_firm {css : String} {pending : Option Unclosed} {s : Statement}
    (ho : InFrontOf css o (t :: ts)) (h : o.Firm (t :: ts))
    (hnext : nextStatement pending t ts = .ok (s, rest)) (hstep : step locate o s = .ok o') :
    o'.Firm rest := by
  have hproper := ho.proper
  have hfits := nextStatement_fits ho.spelled hnext
  have hus : ∀ u ∈ s.tokens, u.Tidy := by
    intro u hu
    refine ho.tidy u ?_
    rw [← nextStatement_append hnext]
    exact List.mem_append_left _ hu
  rcases h.current with hcurrent | ⟨hopen, hnow⟩
  · cases s with
    | space u =>
      cases hstep
      exact ⟨⟨h.source, h.every, h.around⟩, Or.inl hcurrent⟩
    | semicolon u =>
      cases hstep
      exact freeSemicolon_firm h.toSteady hcurrent hfits rest
    | close u => exact h.toSteady.close hproper (Or.inl hcurrent) hstep rest
    | comment u =>
      cases hstep
      exact comment_firm h.toSteady hcurrent rest
    | block u =>
      cases hstep
      exact h.toSteady.openBlock hcurrent (by rfl) rest
    | rule head brace =>
      cases hstep
      exact h.toSteady.openBlock hcurrent (by rfl) rest
    | declaration custom us => exact declaration_firm h.toSteady hcurrent hus hnext hstep
    | atRule name params ending =>
      refine atRule_firm hproper h.toSteady hcurrent (fun hend => ?_) hstep
      rw [hend] at hnext
      exact nextStatement_textEnd ho.spelled hnext
  · -- Only the closing brace can come.
    have hkind : t.kind = .closeCurly := hnow t rfl
    rw [nextStatement, hkind] at hnext
    cases hnext
    exact h.toSteady.close hproper (Or.inr hopen) hstep _

theorem firm_empty (ts : List Token) : empty.Firm ts where
  source := List.forall_mem_cons.mpr ⟨rfl, fun _ hf => absurd hf List.not_mem_nil⟩
  every := by
    intro f hf b hb
    rw [show f = empty.current from List.mem_singleton.mp hf] at hb
    cases hb
  around _ hf := absurd hf List.not_mem_nil
  current := Or.inl trivial

end Outline

/-- All that is read has firm ends. -/
theorem outlineText_firm {locate : Nat → Position} {css : String} {b : Draft}
    (h : outlineText locate css = .ok b) : b.Every Detail.Firm := by
  obtain ⟨o, ho, hfirm, hfinish⟩ :=
    outlineText_induction Outline.Firm h (Outline.firm_empty _) Outline.step_firm
  obtain ⟨hparents, rfl⟩ := Outline.finish_eq_ok_iff.mp hfinish
  refine .node (Outline.firm_sealed ho.proper.proper ?_ _) fun c hc => ?_
  · exact hfirm.current.imp_right And.left
  · exact hfirm.every o.current List.mem_cons_self c (List.mem_reverse.mp hc)

end Stylesheet
