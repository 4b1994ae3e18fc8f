import Stylesheet.Proofs.Reading.Declarations
import Stylesheet.Proofs.Text.Cut

/-!
# Careful reading of nodes

What is read becomes nodes of the outline: a comment, a rule, a declaration, an at-rule, or the end
of a block. For each of them careful reading comes to the outline that plain reading comes to. The
positions it asks for are the starts and the last characters of tokens of the text, so a character
starts there.

* `Careful.stopBehind_start`: a token of one byte ends behind the character that it starts with.
* `Careful.commentParts_eq`: a comment is sliced behind its mark and where the blanks at its ends
  stop, which is inside of its text.
* `Careful.declaration_eq`, `Careful.rule_eq`, `Careful.atRule_eq`: tokens that make a statement
  are not an empty list, so there is a first one.
-/

namespace Stylesheet

open Text

namespace Careful

section Definitions

variable (css : String) (locate : Nat → Position)

/-- The details of a node that starts at a byte offset, with the formatting in front of it. -/
def detail (o : Outline) (content : Content) (offset : Nat) : Careful Detail := do
  let start ← position css locate offset
  return { content, raws := { before := some o.spaces }
           source := some { input := 0, start := some start } }

/-- The details with an end at a token. -/
def stopAt (d : Detail) (t : Token) : Careful Detail := do
  let stop ← stopBehind css locate (← lastOf css t)
  return Outline.withStop d stop

/-- The details with an end at the last one of the tokens that is no white space. -/
def stopAtLast (d : Detail) (ts : List Token) : Careful Detail :=
  match ts.reverse.find? fun t => t.kind != .space with
  | some t => stopAt css locate d t
  | none => return d

/-- Closes the current block. -/
def close (o : Outline) (t : Token) : Careful Outline :=
  match o.parents with
  | [] => refuse css ⟨.unexpectedClose, t.start, some (t.start + 1)⟩
  | parent :: parents => do
    let stop ← stopBehind css locate t.start
    let branch := Branch.node (Outline.withStop o.sealed stop) o.current.kids.reverse
    return { current := { parent with kids := branch :: parent.kids }, parents }

/-- A semicolon that ends nothing. -/
def freeSemicolon (o : Outline) (t : Token) : Careful Outline := do
  let spaces := o.spaces ++ (← textOf css t)
  match o.current.kids with
  | .node d kids :: more =>
    if d.content.kind == .rule && (d.raws.ownSemicolon.getD "").isEmpty then
      let stop ← position css locate t.start
      let d := Outline.withStop { d with raws := { d.raws with ownSemicolon := some spaces } }
        { stop with offset := stop.offset + spaces.utf8ByteSize }
      return { o with
        current := { o.current with kids := .node d kids :: more }, spaces := "" }
    else return { o with spaces }
  | [] => return { o with spaces }

/-- The text of a comment, between the blanks at both of its ends. -/
def commentParts (full : String) : Careful (String × String × String) := do
  let rest ← slice full (min full.utf8ByteSize 2) full.utf8ByteSize
  let inner := String.ofList <|
    match after? ['/', '*'] rest.toList.reverse with
    | some body => body.reverse
    | none => rest.toList
  let trimmed := String.ofList (trimStart inner.toList)
  let text := String.ofList (trimEnd trimmed.toList)
  if text.isEmpty then return (inner, "", "")
  else
    let left ← slice inner 0 (inner.utf8ByteSize - trimmed.utf8ByteSize)
    let right ← slice trimmed text.utf8ByteSize trimmed.utf8ByteSize
    return (left, text, right)

/-- A comment. -/
def comment (o : Outline) (t : Token) : Careful Outline := do
  let d ← detail css locate o (.comment "") t.start
  let d ← stopAt css locate d t
  let (left, text, right) ← commentParts (← textOf css t)
  return o.addLeaf
    { d with
      content := .comment text
      raws := { d.raws with left := some left, right := some right } }
    o.semicolon

/-- A block without a selector. -/
def emptyRule (o : Outline) (t : Token) : Careful Outline := do
  let d ← detail css locate o (.rule "") t.start
  return o.openBlock { d with raws := { d.raws with between := some "" } }

/-- A rule with the tokens in front of its block. -/
def rule (o : Outline) (head : List Token) : Careful Outline := do
  let first ← item head 0
  let d ← detail css locate o (.rule "") first.start
  let (kept, between) ← cutEnd css Token.isGap head
  let (selector, raw) ← field css false kept
  return o.openBlock { d with
    content := .rule selector, raws := { d.raws with between := some between, selector := raw } }

/-- A declaration, with the semicolon that ends it. -/
def declaration (o : Outline) (custom : Bool) (ts : List Token) : Careful Outline := do
  let first ← item ts 0
  let d ← detail css locate o (.declaration "" "" false) first.start
  let closed := ts.getLast?.any fun t => t.kind == .semicolon
  let d ← stopAtLast css locate d ts
  let parts ← parts css custom (if closed then ts.dropLast else ts)
  let start ← position css locate parts.first.start
  return o.addLeaf
    { d with
      content := .declaration parts.prop parts.value parts.important
      source := d.source.map fun s => { s with start := some start }
      raws := { d.raws with
        before := some (o.spaces ++ parts.lead)
        between := some parts.between
        important := parts.rawImportant
        value := parts.rawValue } }
    closed

/-- An at-rule that is called `name`, with the tokens behind its name and what ends it. -/
def atRule (o : Outline) (name : String) (t : Token) (params : List Token) (ending : AtRuleEnd) :
    Careful Outline := do
  let d ← detail css locate o (.atRule name "") t.start
  let (kept, between) ← cutEnd css Token.isGap params
  let (lead, body) ← cutStart css kept
  let (text, raw) ← field css false body
  let left := ending == .textEnd && !kept.isEmpty
  let d := { d with
    content := .atRule name text
    raws := { d.raws with
      between := some (if left then "" else between), afterName := some lead, params := raw } }
  match ending with
  | .semicolon e => do
    let stop ← stopBehind css locate e.start
    return o.addLeaf (Outline.withStop d stop) true
  | .block _ => return o.openBlock d
  | .close e => do
    let d ← stopAtLast css locate d params
    close css locate (o.addLeaf d false) e
  | .textEnd => do
    let d ← (match body.getLast? with
      | some t => stopAt css locate d t
      | none => return d)
    return { o.addLeaf d false with spaces := if left then between else "" }

end Definitions

variable {css : String} {locate : Nat → Position} {t : Token} {ts : List Token}

theorem detail_eq {o : Outline} {content : Content} (h : t.From css) :
    detail css locate o content t.start = .ok (o.detail locate content t.start) := by
  rw [detail, position_eq h.standsIn.start_boundary]
  rfl

theorem stopAt_eq {d : Detail} (h : t.From css) :
    stopAt css locate d t = .ok (Outline.withStop d (Outline.stopAt locate t)) := by
  rw [stopAt, lastOf_eq h, ok_bind, stopBehind_last h]
  rfl

theorem stopAtLast_eq {d : Detail} (h : ∀ t ∈ ts, t.From css) :
    stopAtLast css locate d ts =
      .ok (match (ts.reverse.dropWhile fun t => t.kind == .space).head? with
        | some t => Outline.withStop d (Outline.stopAt locate t)
        | none => d) := by
  have hfind : (ts.reverse.find? fun t => t.kind != .space) =
      (ts.reverse.dropWhile fun t => t.kind == .space).head? := by
    rw [List.find?_eq_head?_dropWhile_not]
    simp only [bne, Bool.not_not]
  rw [stopAtLast, hfind]
  cases hlast : (ts.reverse.dropWhile fun t => t.kind == .space).head? with
  | none => rfl
  | some t =>
    exact stopAt_eq (h t (List.mem_reverse.mp (List.dropWhile_subset _ (List.mem_of_head? hlast))))

/-- The end of a token of one byte. -/
theorem stopBehind_start (h : t.From css) (htext : t.text = "\x7d" ∨ t.text = ";") :
    stopBehind css locate t.start = .ok (Outline.stopAt locate t) := by
  have hlast : t.last = t.start := by
    rw [Token.last, Token.stop]
    rcases htext with htext | htext <;> rw [htext] <;> rfl
  rw [← stopBehind_last h, hlast]

theorem close_eq {o : Outline} (h : t.From css) (hkind : t.kind = .closeCurly) :
    close css locate o t = lift (o.close locate t) := by
  have htext : t.text = "\x7d" := h.tidy.spelled.text_of_closeCurly hkind
  have hstop : t.stop = t.start + 1 := by
    rw [Token.stop, htext]
    rfl
  rw [close, Outline.close]
  cases o.parents with
  | nil =>
    -- A brace too many; the complaint is about one byte, the brace.
    refine refuse_eq ?_ fun stop hend => ?_
    · exact h.standsIn.start_boundary
    · cases hend
      rw [← hstop]
      exact h.standsIn.stop_boundary
  | cons parent parents =>
    dsimp only
    rw [stopBehind_start h (.inl htext)]
    rfl

theorem freeSemicolon_eq {o : Outline} (h : t.From css) :
    freeSemicolon css locate o t = .ok (o.freeSemicolon locate t) := by
  rw [freeSemicolon, textOf_eq h, ok_bind, position_eq h.standsIn.start_boundary,
    Outline.freeSemicolon]
  cases o.current.kids with
  | nil => rfl
  | cons b more =>
    obtain ⟨d, kids⟩ := b
    dsimp only [ok_bind]
    split <;> rfl

theorem emptyRule_eq {o : Outline} (h : t.From css) :
    emptyRule css locate o t = lift (o.step locate (.block t)) := by
  rw [emptyRule, detail_eq h]
  rfl

theorem rule_eq {o : Outline} {head : List Token} {brace : Token} (hne : head ≠ [])
    (h : ∀ t ∈ head, t.From css) :
    rule css locate o head = lift (o.step locate (.rule head brace)) := by
  obtain ⟨first, more, rfl⟩ := List.exists_cons_of_ne_nil hne
  have hkept : ∀ t ∈ (cutGaps (first :: more)).1, t.From css := fun t ht =>
    h t (reverse_dropWhile_subset _ _ ht)
  show (detail css locate o (.rule "") first.start >>= fun d => _) = _
  rw [detail_eq (h first List.mem_cons_self), ok_bind, cutEnd_eq h, ok_bind]
  show (field css false (cutGaps (first :: more)).1 >>= fun x => _) = _
  rw [field_eq hkept]
  rfl

/-- A semicolon is no white space, so it is the last token that is none. -/
theorem getLast?_of_closed {closed : Bool}
    (h : (ts.getLast?.any fun t => t.kind == .semicolon) = closed) :
    (if closed then ts.getLast? else (ts.reverse.dropWhile fun t => t.kind == .space).head?) =
      (ts.reverse.dropWhile fun t => t.kind == .space).head? := by
  cases closed with
  | false => rfl
  | true =>
    obtain ⟨e, he, hkind⟩ := (Option.any_eq_true _ _).mp h
    obtain ⟨front, hfront⟩ := List.getLast?_eq_some_iff.mp he
    rw [beq_iff_eq] at hkind
    rw [if_pos rfl, he, hfront, List.reverse_concat, List.dropWhile_cons, hkind]
    rfl

/-- Tokens that do not start with a semicolon are not all gone with the one at their end. -/
theorem ne_nil_without_semicolon {closed : Bool} {first : Token} {more : List Token}
    (hfirst : first.kind ≠ .semicolon)
    (h : ((first :: more).getLast?.any fun t => t.kind == .semicolon) = closed) :
    (if closed then (first :: more).dropLast else first :: more) ≠ [] := by
  cases closed with
  | false => exact List.cons_ne_nil first more
  | true =>
    cases more with
    | nil =>
      rw [List.getLast?_singleton, Option.any_some, beq_iff_eq] at h
      exact absurd h hfirst
    | cons u us => exact List.cons_ne_nil first _

theorem declaration_eq {o : Outline} {custom : Bool} {first : Token} {more : List Token}
    (hfirst : first.kind ≠ .semicolon) (h : ∀ t ∈ first :: more, t.From css) :
    declaration css locate o custom (first :: more) =
      lift (o.declaration locate custom (first :: more)) := by
  generalize hclosed : ((first :: more).getLast?.any fun t => t.kind == .semicolon) = closed
  have hlast := getLast?_of_closed hclosed
  have hbody := ne_nil_without_semicolon hfirst hclosed
  have hitem : item (first :: more) 0 = .ok first := rfl
  have hstart : first.From css := h first List.mem_cons_self
  generalize first :: more = ts at h hclosed hlast hbody hitem
  -- Without its semicolon the declaration still consists of tokens of the text.
  have hkept : ∀ t ∈ (if closed then ts.dropLast else ts), t.From css := by
    split
    · exact fun t ht => h t (List.dropLast_subset _ ht)
    · exact h
  rw [declaration, Outline.declaration, hitem, ok_bind, detail_eq hstart, ok_bind,
    stopAtLast_eq h, ok_bind, hclosed, hlast, parts_eq hbody hkept]
  dsimp only
  cases hread : readDeclaration custom (if closed then ts.dropLast else ts) with
  | error issue => rfl
  | ok parts =>
    obtain ⟨lead, rest, -, -, hlead, -⟩ := readDeclaration_eq_ok hread
    have hword : parts.first.From css := hkept _ (by
      rw [← append_cutLead hlead]
      exact List.mem_append_right lead List.mem_cons_self)
    rw [lift_ok, ok_bind, position_eq hword.standsIn.start_boundary]
    cases (ts.reverse.dropWhile fun t => t.kind == .space).head? <;> rfl

/-- The blanks in front of a text are as many bytes as it loses when they are taken off. -/
theorem slice_trimStart (cs : List Char) :
    slice (String.ofList cs) 0
        ((String.ofList cs).utf8ByteSize - (String.ofList (trimStart cs)).utf8ByteSize) =
      .ok (String.ofList (cs.takeWhile isBlank)) := by
  have hsplit : cs.takeWhile isBlank ++ trimStart cs = cs := List.takeWhile_append_dropWhile
  have hsize : (String.ofList cs).utf8ByteSize - (String.ofList (trimStart cs)).utf8ByteSize =
      (String.ofList (cs.takeWhile isBlank)).utf8ByteSize := by
    have hbytes := congrArg bytes hsplit
    rw [bytes_append] at hbytes
    rw [utf8ByteSize_ofList, utf8ByteSize_ofList, utf8ByteSize_ofList, ← hbytes]
    exact Nat.add_sub_cancel _ _
  have hslice := slice_front (String.ofList (cs.takeWhile isBlank)) (String.ofList (trimStart cs))
  rw [← String.ofList_append, hsplit] at hslice
  rw [hsize, hslice]

theorem commentParts_eq {full body : List Char} (hfull : full = '/' :: '*' :: body ++ ['*', '/']) :
    commentParts (String.ofList full) =
      let inner := Outline.commentBody full
      .ok (String.ofList (inner.takeWhile isBlank), String.ofList (trim inner),
        String.ofList (if (trim inner).isEmpty then []
          else (inner.reverse.takeWhile isBlank).reverse)) := by
  have hmark : String.ofList full = "/*" ++ String.ofList (body ++ ['*', '/']) := by
    rw [hfull, show "/*" = String.ofList ['/', '*'] from rfl, ← String.ofList_append]
    rfl
  have hrest : slice (String.ofList full) (min (String.ofList full).utf8ByteSize 2)
      (String.ofList full).utf8ByteSize = .ok (String.ofList (body ++ ['*', '/'])) := by
    have htwo : min (String.ofList full).utf8ByteSize 2 = "/*".utf8ByteSize := by
      rw [hmark, String.utf8ByteSize_append]
      exact Nat.min_eq_right (Nat.le_add_right 2 _)
    rw [htwo, hmark, slice_rest]
  have hbody : Outline.commentBody full = body := by
    rw [hfull]
    exact commentBody_of_marks body
  have hstrip : after? ['/', '*'] (body ++ ['*', '/']).reverse = some body.reverse := by
    rw [List.reverse_append]
    exact after?_append ['/', '*'] body.reverse
  rw [hbody, commentParts, hrest, ok_bind, String.toList_ofList, hstrip]
  dsimp only
  rw [List.reverse_reverse, String.toList_ofList, String.toList_ofList,
    show trimEnd (trimStart body) = trim body from rfl, isEmpty_ofList]
  cases hempty : (trim body).isEmpty with
  | true =>
    -- All of the comment is blanks, and they count as those in front.
    rw [List.isEmpty_iff] at hempty
    have happend := append_trim body
    rw [hempty] at happend
    have hblank : body.takeWhile isBlank = body := by simpa using happend
    rw [hempty, hblank]
    rfl
  | false =>
    have htrim : trim body ≠ [] := fun hnil => by
      rw [hnil] at hempty
      cases hempty
    rw [slice_trimStart, trimStart_eq_append htrim, String.ofList_append, slice_rest]
    rfl

theorem comment_eq {o : Outline} (h : t.From css) (hkind : t.kind = .comment) :
    comment css locate o t = lift (o.step locate (.comment t)) := by
  have hspelled := h.tidy.spelled
  rw [Token.Spelled, hkind] at hspelled
  obtain ⟨body, hbody⟩ := hspelled
  have hparts := commentParts_eq hbody
  rw [String.ofList_toList] at hparts
  rw [comment, detail_eq h, ok_bind, stopAt_eq h, ok_bind, textOf_eq h, ok_bind, hparts, ok_bind,
    Outline.step, Outline.commentDetail]
  dsimp only
  generalize String.ofList (trim (Outline.commentBody t.text.toList)) = text
  rfl

/-- What ends the head of an at-rule is a token of the text, and of its kind. -/
def Ends (css : String) : AtRuleEnd → Prop
  | .semicolon t => t.From css ∧ t.kind = .semicolon
  | .close t => t.From css ∧ t.kind = .closeCurly
  | _ => True

theorem atRule_eq {o : Outline} {params : List Token} (ending : AtRuleEnd) (h : t.From css)
    (hparams : ∀ p ∈ params, p.From css) (hending : Ends css ending) :
    atRule css locate o (String.ofList (t.text.toList.drop 1)) t params ending =
      lift (o.atRule locate t params ending) := by
  have hkept : ∀ p ∈ (cutGaps params).1, p.From css := fun p hp =>
    hparams p (reverse_dropWhile_subset _ _ hp)
  have hbody : ∀ p ∈ (cutGaps params).1.dropWhile Token.isGap, p.From css := fun p hp =>
    hkept p (List.dropWhile_subset _ hp)
  rw [atRule, detail_eq h, ok_bind, cutEnd_eq hparams, ok_bind]
  show (cutStart css (cutGaps params).1 >>= fun x => _) = _
  rw [cutStart_eq hkept, ok_bind]
  dsimp only
  rw [field_eq hbody, ok_bind, getLast?_dropWhile_cutGaps, Outline.atRule]
  -- Where the end is looked up differs; everything in front of it is read alike.
  cases ending with
  | semicolon e =>
    dsimp only
    rw [stopBehind_start hending.1 (.inr (hending.1.tidy.spelled.text_of_semicolon hending.2))]
    rfl
  | block e => rfl
  | close e =>
    dsimp only
    rw [stopAtLast_eq hparams, ok_bind, close_eq hending.1 hending.2]
    cases (params.reverse.dropWhile fun t => t.kind == .space).head? <;> rfl
  | textEnd =>
    dsimp only
    cases hend : (cutGaps params).1.getLast? with
    | none => rfl
    | some p =>
      dsimp only
      rw [stopAt_eq (hkept p (List.mem_of_getLast? hend))]
      rfl

end Careful

end Stylesheet
