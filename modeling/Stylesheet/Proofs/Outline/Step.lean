import Stylesheet.Proofs.Outline.Basic
import Stylesheet.Proofs.Statement.Lookahead
import Stylesheet.Proofs.Statement.Text

/-!
# Reading one statement

Behind a settled outline every statement adds the text of its tokens
(`Outline.step_text_of_settled`), and behind one that is not settled white space, comments and the
end of the block still do (`Outline.step_text_of_isTrailing`).
-/

namespace Stylesheet

open Text

/-- The node was read from a byte offset on. -/
def Detail.StartsAt (locate : Nat → Position) (offset : Nat) (d : Detail) : Prop :=
  ∃ stop, d.source = some ⟨0, some (locate offset), stop⟩

namespace Outline

variable {locate : Nat → Position}

/-! ### Semicolons and comments -/

/-- Formatting that belongs to nothing yet. -/
theorem text_with_spaces (o : Outline) (s : String) :
    text { o with spaces := o.spaces ++ s } = o.text ++ s := by
  rw [text, text]
  simp only [String.append_assoc]

/-- A rule whose own semicolons are captured. -/
theorem takes_ownSemicolon {d : Detail} {kids : List Draft} (h : Frame.Takes (.node d kids))
    (own : String) (stop : Position) :
    Frame.Takes (.node (withStop { d with raws := { d.raws with ownSemicolon := some own } } stop)
      kids) where
  captured :=
    have hd := h.captured.top
    .node ⟨⟨hd.block, hd.canOwn, hd.nested⟩, hd.before, hd.between, hd.after, hd.semicolon,
      hd.marks⟩ h.captured.rest
  before := h.before
  kind := h.kind

/-- Semicolons behind a rule are printed behind it. -/
theorem text_ownSemicolon {d : Detail} {kids : List Draft} (hkind : d.kind = .rule)
    (hown : d.raws.ownSemicolon.getD "" = "") (own : String) (stop : Position) (closed : Bool) :
    Draft.text closed (.node (withStop { d with
      raws := { d.raws with ownSemicolon := some own } } stop) kids) =
      Draft.text closed (.node d kids) ++ own := by
  have hcontent : d.content.kind = .rule := hkind
  obtain ⟨selector, hc⟩ : ∃ selector, d.content = .rule selector := by
    cases hc : d.content <;> rw [hc] at hcontent <;> first | exact ⟨_, rfl⟩ | cases hcontent
  rw [Draft.text, Draft.text]
  simp only [withStop, Detail.isLeaf, Detail.heading, Detail.ending, hc, hown]
  simp [String.append_assoc]

theorem freeSemicolon_text (locate : Nat → Position) {o : Outline} {t : Token} (h : o.Proper)
    (hset : o.Settled) :
    (o.freeSemicolon locate t).Proper ∧ (o.freeSemicolon locate t).Settled ∧
      (o.freeSemicolon locate t).text = o.text ++ t.text := by
  rcases freeSemicolon_cases o locate t with heq | ⟨d, kids, more, hkids, hkind, hown, heq⟩
  · rw [heq]
    exact ⟨h, hset, text_with_spaces o t.text⟩
  · -- The semicolon goes to the rule in front of it, with the white space between them.
    rw [heq]
    set stop : Position := { locate t.start with
      offset := (locate t.start).offset + (o.spaces ++ t.text).utf8ByteSize }
    set d' := withStop { d with raws := { d.raws with
      ownSemicolon := some (o.spaces ++ t.text) } } stop with hd'
    have htakes := h.proper.kids
    rw [hkids] at htakes
    have hleaf : d.isLeaf = false := Detail.isLeaf_of_rule hkind
    have hleaf' : d'.isLeaf = false := hleaf
    have hcomment : Draft.isComment (.node d kids) = false :=
      Draft.isComment_of_isLeaf_false hleaf
    have hcomment' : Draft.isComment (.node d' kids) = false :=
      Draft.isComment_of_isLeaf_false hleaf'
    refine ⟨h.with_kids fun b hb => ?_, settled_of_isLeaf_false rfl hleaf', ?_⟩
    · rcases List.mem_cons.mp hb with rfl | hb
      · exact takes_ownSemicolon (htakes _ List.mem_cons_self) _ _
      · exact htakes b (List.mem_cons_of_mem _ hb)
    · show around o.parents ++ (o.current.detail.before ++ o.current.detail.heading ++
        Draft.textAll o.semicolon (.node d' kids :: more).reverse) ++ "" = o.text ++ t.text
      rw [text, Frame.text, hkids, List.reverse_cons, List.reverse_cons,
        Draft.textAll_concat _ _ hcomment, Draft.textAll_concat _ _ hcomment', hd',
        text_ownSemicolon hkind hown]
      simp only [String.append_assoc, String.append_empty]
      rfl

/-- A comment is printed as it was read. -/
theorem commentDetail_text {o : Outline} {t : Token} (ht : t.Spelled) (hkind : t.kind = .comment) :
    (o.commentDetail locate t).before ++ (o.commentDetail locate t).leafText false =
      o.spaces ++ t.text := by
  rw [Token.Spelled, hkind] at ht
  obtain ⟨body, hbody⟩ := ht
  have hinner := commentBody_of_marks body
  rw [← hbody] at hinner
  have htext : t.text = "/*" ++ (String.ofList body ++ "*/") := by
    rw [← String.toList_inj, hbody]
    simp
  show o.spaces ++ ("/*" ++ String.ofList ((commentBody t.text.toList).takeWhile isBlank) ++
    String.ofList (trim (commentBody t.text.toList)) ++ String.ofList
      (if (trim (commentBody t.text.toList)).isEmpty then []
        else ((commentBody t.text.toList).reverse.takeWhile isBlank).reverse) ++ "*/") = _
  have hparts := congrArg String.ofList (append_trim body)
  rw [String.ofList_append, String.ofList_append] at hparts
  rw [hinner, htext, ← hparts]
  simp only [String.append_assoc]

theorem kind_of_isLeaf {d : Detail} (h : d.isLeaf = true) :
    d.kind = .atRule ∨ d.kind = .declaration ∨ d.kind = .comment := by
  unfold Detail.isLeaf at h
  rw [Detail.kind]
  cases hc : d.content with
  | root => rw [hc] at h; cases h
  | rule selector => rw [hc] at h; cases h
  | atRule name params => exact Or.inl rfl
  | declaration prop value important => exact Or.inr (Or.inl rfl)
  | comment text => exact Or.inr (Or.inr rfl)

/-- A node that is printed in one piece can stand in a block. -/
theorem takes_leaf {d : Detail} (hblock : d.block = false) (hleaf : d.isLeaf = true)
    (hbefore : d.raws.before.isSome = true)
    (hbetween : d.kind = .declaration → d.raws.between.isSome = true)
    (hmarks : d.kind = .comment → d.raws.left.isSome = true ∧ d.raws.right.isSome = true) :
    Frame.Takes (.node d []) := by
  have hkind := kind_of_isLeaf hleaf
  have hrule : d.kind ≠ .rule := by rcases hkind with h | h | h <;> rw [h] <;> decide
  have hroot : d.kind ≠ .root := by rcases hkind with h | h | h <;> rw [h] <;> decide
  have hno : d.block ≠ true := by rw [hblock]; exact Bool.false_ne_true
  refine ⟨.node ?_ fun b hb => absurd hb List.not_mem_nil, hbefore, hroot⟩
  refine ⟨⟨fun h => absurd rfl h, fun h => absurd h hno, fun b hb => absurd hb List.not_mem_nil⟩,
    fun b hb => absurd hb List.not_mem_nil, ?_, ?_, ?_, hmarks⟩
  · rintro (h | h | ⟨-, h⟩)
    · exact absurd h hrule
    · exact hbetween h
    · exact absurd h hno
  · rintro (h | ⟨-, h⟩)
    · exact absurd h hrule
    · exact absurd h hno
  · intro h
    rw [hleaf] at h
    cases h

/-- A comment changes nothing about the semicolons in front of it. -/
theorem comment_text (locate : Nat → Position) {o : Outline} {t : Token} (h : o.Proper)
    (ht : t.Spelled) (hkind : t.kind = .comment) :
    (o.addLeaf (o.commentDetail locate t) o.semicolon).Proper ∧
      (o.Settled → (o.addLeaf (o.commentDetail locate t) o.semicolon).Settled) ∧
      (o.addLeaf (o.commentDetail locate t) o.semicolon).text = o.text ++ t.text := by
  have hcomment : Draft.isComment (.node (o.commentDetail locate t) []) = true := rfl
  have htext : (o.commentDetail locate t).before ++
      Draft.text false (.node (o.commentDetail locate t) []) = o.spaces ++ t.text := by
    rw [Draft.text, if_pos (show (o.commentDetail locate t).isLeaf = true from rfl),
      commentDetail_text ht hkind]
  refine ⟨h.add (takes_leaf rfl rfl rfl ?_ fun _ => ⟨rfl, rfl⟩) _, ?_, ?_⟩
  · intro h
    cases h
  · intro hset
    exact hset.addComment hcomment
  · exact text_addComment hcomment htext

/-! ### Declarations -/

/-- The tokens of a declaration without its semicolon, and the semicolon. -/
theorem join_without_semicolon {ts : List Token} (hts : ∀ t ∈ ts, t.Spelled) (closed : Bool)
    (hclosed : closed = ts.getLast?.any fun t => t.kind == .semicolon) :
    Token.join (if closed then ts.dropLast else ts) ++ (if closed then ";" else "") =
      Token.join ts := by
  cases hc : closed with
  | false => exact String.append_empty
  | true =>
    rw [hc] at hclosed
    cases hlast : ts.getLast? with
    | none => rw [hlast] at hclosed; cases hclosed
    | some t =>
      rw [hlast] at hclosed
      obtain ⟨front, rfl⟩ := List.getLast?_eq_some_iff.mp hlast
      have hkind : t.kind = .semicolon := by simpa using hclosed.symm
      have htext := (hts t (by simp)).text_of_semicolon hkind
      rw [if_pos rfl, if_pos rfl, List.dropLast_concat, Token.join_append, Token.join_cons, htext]
      rfl

/-- The token that a declaration ends with: its semicolon, or the last one that is no white
space. -/
def declarationLast? (closed : Bool) (ts : List Token) : Option Token :=
  if closed then ts.getLast? else (ts.reverse.dropWhile fun t => t.kind == .space).head?

/-- A declaration that was read is one more child, with the parts it was taken apart into. -/
theorem declaration_eq_ok {o o' : Outline} {custom : Bool} {ts : List Token} {closed : Bool}
    (hclosed : closed = ts.getLast?.any fun t => t.kind == .semicolon)
    (h : o.declaration locate custom ts = .ok o') :
    ∃ (parts : DeclarationParts) (d : Detail),
      readDeclaration custom (if closed then ts.dropLast else ts) = .ok parts ∧
      o' = o.addLeaf d closed ∧ d.block = false ∧
      d.content = .declaration parts.prop parts.value parts.important ∧
      d.raws.before = some (o.spaces ++ parts.lead) ∧ d.raws.between = some parts.between ∧
      d.raws.important = parts.rawImportant ∧ d.raws.value = parts.rawValue ∧
      d.source = some ⟨0, some (locate parts.first.start),
        (declarationLast? closed ts).map (stopAt locate)⟩ := by
  rw [declaration, ← hclosed] at h
  cases hparts : readDeclaration custom (if closed then ts.dropLast else ts) with
  | error issue => rw [hparts] at h; cases h
  | ok parts =>
    rw [hparts] at h
    cases h
    refine ⟨parts, _, rfl, rfl, ?_⟩
    -- The end of the declaration matters neither for its contents nor for its formatting.
    rw [declarationLast?]
    cases (if closed then ts.getLast?
      else (ts.reverse.dropWhile fun t => t.kind == .space).head?) with
    | some t => exact ⟨rfl, rfl, rfl, rfl, rfl, rfl, rfl⟩
    | none => exact ⟨rfl, rfl, rfl, rfl, rfl, rfl, rfl⟩

theorem declaration_text {o o' : Outline} {custom : Bool} {ts : List Token} (h : o.Proper)
    (hset : o.Settled) (hts : ∀ t ∈ ts, t.Spelled)
    (hread : o.declaration locate custom ts = .ok o') :
    o'.Proper ∧ (ts.getLast?.any (fun t => t.kind == .semicolon) = true → o'.Settled) ∧
      o'.text = o.text ++ Token.join ts := by
  obtain ⟨closed, hclosed⟩ : ∃ closed, closed = ts.getLast?.any fun t => t.kind == .semicolon :=
    ⟨_, rfl⟩
  obtain ⟨parts, d, hparts, rfl, hblock, hcontent, hbefore, hbetween, himportant, hvalue, -⟩ :=
    declaration_eq_ok hclosed hread
  have hleaf : d.isLeaf = true := by rw [Detail.isLeaf, hcontent]
  have hkind : d.kind = .declaration := by rw [Detail.kind, hcontent]; rfl
  have hcomment : Draft.isComment (.node d []) = false := by
    rw [Draft.isComment, Branch.label, hkind]
    rfl
  -- The semicolon at the end is not part of the node, it is printed by the node around it.
  have hbody := readDeclaration_text hparts hvalue himportant
  have htext : d.before ++ Draft.text closed (.node d []) = o.spaces ++ Token.join ts := by
    rw [Draft.text, if_pos hleaf, Detail.leafText, hcontent, Detail.before, hbefore, hbetween]
    dsimp only [Option.getD_some]
    rw [← join_without_semicolon hts closed hclosed, ← hbody]
    simp only [String.append_assoc]
  refine ⟨h.add (takes_leaf hblock hleaf ?_ ?_ ?_) closed, ?_, text_add hset hcomment closed htext⟩
  · rw [hbefore]; rfl
  · intro _; rw [hbetween]; rfl
  · intro h; rw [hkind] at h; cases h
  · intro htrue
    rw [hclosed, htrue]
    exact settled_add_closed o _

/-! ### At-rules -/

/-- The details of an at-rule that was read behind an outline. -/
structure AtRuleRead (o : Outline) (locate : Nat → Position) (name : Token) (params : List Token)
    (between : String) (d : Detail) : Prop where
  block : d.block = false
  content : d.content = .atRule (String.ofList (name.text.toList.drop 1))
    (cleanField false ((cutGaps params).1.dropWhile Token.isGap)).1
  raws : d.raws = {
    before := some o.spaces
    between := some between
    afterName := some (Token.join ((cutGaps params).1.takeWhile Token.isGap))
    params := (cleanField false ((cutGaps params).1.dropWhile Token.isGap)).2 }
  starts : d.StartsAt locate name.start

namespace AtRuleRead

variable {o : Outline} {name : Token} {params : List Token} {between : String} {d : Detail}

theorem kind (h : o.AtRuleRead locate name params between d) : d.kind = .atRule := by
  rw [Detail.kind, h.content]
  rfl

theorem isLeaf (h : o.AtRuleRead locate name params between d) : d.isLeaf = true := by
  rw [Detail.isLeaf, h.content, h.block]
  rfl

theorem isComment (h : o.AtRuleRead locate name params between d) (kids : List Draft) :
    Draft.isComment (.node d kids) = false := by
  rw [Draft.isComment, Branch.label, h.kind]
  rfl

theorem takes (h : o.AtRuleRead locate name params between d) : Frame.Takes (.node d []) := by
  refine takes_leaf h.block h.isLeaf ?_ ?_ ?_
  · rw [h.raws]; rfl
  · intro hkind; rw [h.kind] at hkind; cases hkind
  · intro hkind; rw [h.kind] at hkind; cases hkind

/-- The name and the parameters are printed as they were read. -/
theorem head_text (h : o.AtRuleRead locate name params between d) (hname : name.Spelled)
    (hkind : name.kind = .atWord) (hparams : ∀ t ∈ params, t.Spelled) :
    Tree.atRuleHead d.raws (String.ofList (name.text.toList.drop 1))
        (cleanField false ((cutGaps params).1.dropWhile Token.isGap)).1 =
      name.text ++ Token.join (cutGaps params).1 := by
  refine atRuleHead_text hname hkind (fun t ht => hparams t ?_) ?_ ?_
  · rw [← cutGaps_append params]
    exact List.mem_append_left _ ht
  · rw [h.raws]
  · rw [h.raws]

/-- An at-rule without a block is printed as it was read. -/
theorem leaf_text (h : o.AtRuleRead locate name params between d) (hname : name.Spelled)
    (hkind : name.kind = .atWord) (hparams : ∀ t ∈ params, t.Spelled) (closed : Bool) :
    d.before ++ Draft.text closed (.node d []) =
      o.spaces ++ (name.text ++ Token.join (cutGaps params).1 ++ between ++
        if closed then ";" else "") := by
  have hbetween : d.raws.between.getD "" = between := by rw [h.raws]; rfl
  have hbefore : d.before = o.spaces := by rw [Detail.before, h.raws]; rfl
  rw [Draft.text, if_pos h.isLeaf, Detail.leafText, h.content, hbefore]
  dsimp only
  rw [h.head_text hname hkind hparams, hbetween]

/-- An at-rule up to its opening brace is printed as it was read. -/
theorem heading_text (h : o.AtRuleRead locate name params between d) (hname : name.Spelled)
    (hkind : name.kind = .atWord) (hparams : ∀ t ∈ params, t.Spelled) :
    d.before ++ d.heading =
      o.spaces ++ (name.text ++ Token.join (cutGaps params).1 ++ between ++ "\x7b") := by
  have hbetween : d.raws.between.getD "" = between := by rw [h.raws]; rfl
  have hbefore : d.before = o.spaces := by rw [Detail.before, h.raws]; rfl
  rw [Detail.heading, h.content, hbefore]
  dsimp only
  rw [h.head_text hname hkind hparams, hbetween]

/-- The block of an at-rule can be opened. -/
theorem proper (h : o.AtRuleRead locate name params between d) :
    Frame.Proper { detail := { d with block := true } } where
  block := rfl
  canOwn := by
    show d.kind.canOwn = true
    rw [h.kind]
    rfl
  after := by rw [h.raws]
  ownSemicolon := by rw [h.raws]
  semicolon := by rw [h.raws]
  before _ := by rw [h.raws]; rfl
  between _ := by rw [h.raws]; rfl
  kids b hb := absurd hb List.not_mem_nil

end AtRuleRead

/-- The token that an at-rule without a block ends with. -/
def atRuleLast? (params : List Token) : AtRuleEnd → Option Token
  | .semicolon t => some t
  | .block _ => none
  | .close _ => (params.reverse.dropWhile fun t => t.kind == .space).head?
  | .textEnd => (cutGaps params).1.getLast?

/-- What becomes of an at-rule that was read. White space at the end of the text can belong to the
at-rule or to the block around it. -/
theorem atRule_eq_ok {o o' : Outline} {name : Token} {params : List Token} {ending : AtRuleEnd}
    (h : o.atRule locate name params ending = .ok o') :
    ∃ (d : Detail) (between left : String),
      o.AtRuleRead locate name params between d ∧ between ++ left = Token.join (cutGaps params).2 ∧
      d.source = some ⟨0, some (locate name.start),
        (atRuleLast? params ending).map (stopAt locate)⟩ ∧
      match ending with
      | .semicolon _ => left = "" ∧ o' = o.addLeaf d true
      | .block _ => left = "" ∧ o' = o.openBlock d
      | .close t => left = "" ∧ (o.addLeaf d false).close locate t = .ok o'
      | .textEnd => o' = { o.addLeaf d false with spaces := left } := by
  rw [atRule] at h
  dsimp only at h
  cases ending with
  | semicolon t =>
    cases h
    exact ⟨_, _, "", ⟨rfl, rfl, rfl, _, rfl⟩, String.append_empty, rfl, rfl, rfl⟩
  | block t =>
    cases h
    exact ⟨_, _, "", ⟨rfl, rfl, rfl, _, rfl⟩, String.append_empty, rfl, rfl, rfl⟩
  | close t =>
    dsimp only at h
    rw [atRuleLast?]
    cases hlast : (params.reverse.dropWhile fun t => t.kind == .space).head? with
    | none =>
      rw [hlast] at h
      exact ⟨_, _, "", ⟨rfl, rfl, rfl, _, rfl⟩, String.append_empty, rfl, rfl, h⟩
    | some p =>
      rw [hlast] at h
      exact ⟨_, _, "", ⟨rfl, rfl, rfl, _, rfl⟩, String.append_empty, rfl, rfl, h⟩
  | textEnd =>
    dsimp only at h
    rw [atRuleLast?]
    cases hlast : (cutGaps params).1.getLast? with
    | none =>
      -- Without parameters, white space belongs to the at-rule.
      rw [List.getLast?_eq_none_iff] at hlast
      rw [hlast] at h
      cases h
      exact ⟨_, _, "", ⟨rfl, by rw [hlast]; rfl, by rw [hlast]; rfl, _, rfl⟩,
        String.append_empty, rfl, rfl⟩
    | some p =>
      have hne : ((AtRuleEnd.textEnd == .textEnd) && !(cutGaps params).1.isEmpty) = true := by
        cases hkept : (cutGaps params).1 with
        | nil => rw [hkept] at hlast; cases hlast
        | cons a as => rfl
      rw [hlast, hne] at h
      cases h
      exact ⟨_, _, _, ⟨rfl, rfl, rfl, _, rfl⟩, String.empty_append, rfl, rfl⟩

theorem atRule_text {o o' : Outline} {name : Token} {params : List Token} {ending : AtRuleEnd}
    (h : o.Proper) (hset : o.Settled) (hfits : (Statement.atRule name params ending).Fits)
    (hread : o.atRule locate name params ending = .ok o') :
    o'.Proper ∧ (ending ≠ .textEnd → o'.Settled) ∧
      o'.text = o.text ++ Token.join (name :: params ++ ending.tokens) := by
  obtain ⟨hname, hkind, hparams, hend⟩ := hfits
  obtain ⟨d, between, left, hd, hgaps, -, hcase⟩ := atRule_eq_ok hread
  have hjoin : ∀ mark : List Token, Token.join (name :: params ++ mark) =
      name.text ++ Token.join (cutGaps params).1 ++ (between ++ left) ++ Token.join mark := by
    intro mark
    rw [Token.join_append, Token.join_cons, hgaps, ← join_cutGaps params]
    simp only [String.append_assoc]
  have hproper := fun closed => h.add hd.takes closed
  have htext := fun closed =>
    text_add hset (hd.isComment []) closed (hd.leaf_text hname hkind hparams closed)
  cases ending with
  | semicolon t =>
    obtain ⟨rfl, rfl⟩ := hcase
    refine ⟨hproper true, fun _ => settled_add_closed o _, ?_⟩
    rw [addLeaf, htext, hjoin, AtRuleEnd.tokens, Token.join_singleton, (hend : t.text = ";"),
      String.append_empty, if_pos rfl]
  | block t =>
    obtain ⟨rfl, rfl⟩ := hcase
    refine ⟨h.openBlock hd.proper (by rw [hd.kind]; decide), fun _ => settled_openBlock o d, ?_⟩
    rw [text_openBlock hset (hd.heading_text hname hkind hparams), hjoin, AtRuleEnd.tokens,
      Token.join_singleton, (hend : t.text = "\x7b"), String.append_empty]
  | close t =>
    -- The brace ends the at-rule and the block that it is in.
    obtain ⟨rfl, hclose⟩ := hcase
    obtain ⟨hproper', hset', htext'⟩ := close_eq_ok (hproper false) hend hclose
    refine ⟨hproper', fun _ => hset', ?_⟩
    rw [htext', htext, hjoin, AtRuleEnd.tokens, Token.join_singleton]
    simp [String.append_assoc]
  | textEnd =>
    rw [hcase]
    refine ⟨hproper false, fun hne => absurd rfl hne, ?_⟩
    have hspaces : text { o.addLeaf d false with spaces := left } =
        (o.addLeaf d false).text ++ left := by
      have := text_with_spaces (o.addLeaf d false) left
      rwa [show (o.addLeaf d false).spaces ++ left = left from String.empty_append] at this
    rw [hspaces, addLeaf, htext, hjoin]
    simp [AtRuleEnd.tokens, Token.join, String.append_assoc]

/-! ### Rules -/

/-- A rule up to its opening brace is printed as it was read. -/
theorem ruleDetail_text (o : Outline) (head : List Token) {brace : Token}
    (hbrace : brace.text = "\x7b") :
    (o.ruleDetail locate head brace).before ++ (o.ruleDetail locate head brace).heading =
      o.spaces ++ Token.join (head ++ [brace]) := by
  show o.spaces ++ (RawValue.apply (cleanField false (cutGaps head).1).2
    (cleanField false (cutGaps head).1).1 ++ Token.join (cutGaps head).2 ++ "\x7b") = _
  rw [RawValue.apply_cleanField, join_cutGaps, Token.join_append, Token.join_singleton, hbrace]

/-- The block of a rule can be opened. -/
theorem proper_rule {d : Detail} {selector between before : String} {raw : Option RawValue}
    (hcontent : d.content = .rule selector)
    (hraws : d.raws = { before := some before, between := some between, selector := raw }) :
    Frame.Proper { detail := { d with block := true } } where
  block := rfl
  canOwn := by
    show d.content.kind.canOwn = true
    rw [hcontent]
    rfl
  after := by rw [hraws]
  ownSemicolon := by rw [hraws]
  semicolon := by rw [hraws]
  before _ := by rw [hraws]; rfl
  between _ := by rw [hraws]; rfl
  kids b hb := absurd hb List.not_mem_nil

/-! ### All statements -/

/-- Behind a settled outline every statement adds the text of its tokens. -/
theorem step_text_of_settled {o o' : Outline} {s : Statement} (h : o.Proper) (hset : o.Settled)
    (hfits : s.Fits) (hstep : step locate o s = .ok o') :
    o'.Proper ∧ (s.endsOpen = false → o'.Settled) ∧ o'.text = o.text ++ Token.join s.tokens := by
  have hrule : NodeKind.rule ≠ .root := by decide
  -- Each case is the lemma about its method; what is left is to spell out the tokens.
  cases s with
  | space t =>
    cases hstep
    refine ⟨h, fun _ => hset, ?_⟩
    rw [text_with_spaces, Statement.tokens, Token.join_singleton]
  | semicolon t =>
    cases hstep
    obtain ⟨hproper, hset', htext⟩ := freeSemicolon_text locate (t := t) h hset
    refine ⟨hproper, fun _ => hset', ?_⟩
    rw [htext, Statement.tokens, Token.join_singleton]
  | close t =>
    obtain ⟨hproper, hset', htext⟩ := close_eq_ok h hfits hstep
    refine ⟨hproper, fun _ => hset', ?_⟩
    rw [htext, Statement.tokens, Token.join_singleton]
  | comment t =>
    cases hstep
    obtain ⟨hproper, hset', htext⟩ := comment_text locate h hfits.1 hfits.2
    refine ⟨hproper, fun _ => hset' hset, ?_⟩
    rw [htext, Statement.tokens, Token.join_singleton]
  | block t =>
    cases hstep
    refine ⟨h.openBlock (proper_rule rfl rfl) hrule, fun _ => settled_openBlock o _, ?_⟩
    refine text_openBlock hset ?_
    show o.spaces ++ ("" ++ "" ++ "\x7b") = _
    rw [Statement.tokens, Token.join_singleton, (hfits : t.text = "\x7b"), String.append_empty,
      String.empty_append]
  | rule head brace =>
    cases hstep
    refine ⟨h.openBlock (proper_rule rfl rfl) hrule, fun _ => settled_openBlock o _, ?_⟩
    exact text_openBlock hset (ruleDetail_text o head hfits)
  | declaration custom ts =>
    obtain ⟨hproper, hset', htext⟩ := declaration_text h hset hfits hstep
    refine ⟨hproper, fun hopen => hset' ?_, htext⟩
    rw [Statement.endsOpen, Bool.not_eq_false'] at hopen
    exact hopen
  | atRule name params ending =>
    obtain ⟨hproper, hset', htext⟩ := atRule_text h hset hfits hstep
    refine ⟨hproper, fun hopen => hset' ?_, htext⟩
    rintro rfl
    cases hopen

/-- Behind any outline, white space, comments and the end of the block add the text of their
tokens. -/
theorem step_text_of_isTrailing {o o' : Outline} {s : Statement} (h : o.Proper)
    (htrailing : s.isTrailing = true) (hfits : s.Fits) (hstep : step locate o s = .ok o') :
    o'.Proper ∧ ((∃ t, s = .close t) → o'.Settled) ∧
      o'.text = o.text ++ Token.join s.tokens := by
  cases s with
  | space t =>
    cases hstep
    refine ⟨h, by simp, ?_⟩
    rw [text_with_spaces, Statement.tokens, Token.join_singleton]
  | comment t =>
    cases hstep
    obtain ⟨hproper, -, htext⟩ := comment_text locate h hfits.1 hfits.2
    refine ⟨hproper, by simp, ?_⟩
    rw [htext, Statement.tokens, Token.join_singleton]
  | close t =>
    obtain ⟨hproper, hset', htext⟩ := close_eq_ok h hfits hstep
    refine ⟨hproper, fun _ => hset', ?_⟩
    rw [htext, Statement.tokens, Token.join_singleton]
  | _ => cases htrailing

end Outline

end Stylesheet
