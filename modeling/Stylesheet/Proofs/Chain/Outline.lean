import Stylesheet.Proofs.Chain.Statements
import Stylesheet.Proofs.Chain.Tokens

/-!
# The branch of a text that a comment follows

When a line break and a comment are put behind a stylesheet, what was read of it is read again: the
same children of the root, with the comment as one more (`Draft.Extends.comment`), or with the last
child having taken the comment in (`Draft.Extends.leaf`). All nodes start where they started
(`outlineText_append`).
-/

namespace Stylesheet

open Text

/-! ### Positions that agree -/

/-- The token stands in the text. -/
def Token.On (css : String) (t : Token) : Prop :=
  ∃ front behind, css = front ++ (t.text ++ behind) ∧ t.start = front.utf8ByteSize

/-- Two ways to locate offsets agree at the characters of a text. -/
def AgreeOn (css : String) (locate locate' : Nat → Position) : Prop :=
  ∀ front behind, css = front ++ behind →
    locate front.utf8ByteSize = locate' front.utf8ByteSize

/-- Tokens that follow each other stand in their text. -/
theorem Token.on_of_follow (front : String) {ts : List Token}
    (h : Token.Follow front.utf8ByteSize ts) : ∀ t ∈ ts, t.On (front ++ Token.join ts) := by
  induction ts generalizing front with
  | nil =>
    intro t ht
    cases ht
  | cons u ts ih =>
    obtain ⟨hstart, hrest⟩ := h
    rw [← String.utf8ByteSize_append] at hrest
    rw [Token.join_cons]
    refine List.forall_mem_cons.mpr ⟨⟨front, Token.join ts, rfl, hstart⟩, fun t ht => ?_⟩
    have := ih _ hrest t ht
    rwa [String.append_assoc] at this

namespace AgreeOn

variable {css : String} {locate locate' : Nat → Position} {t : Token}

theorem symm (h : AgreeOn css locate locate') : AgreeOn css locate' locate :=
  fun front behind hsplit => (h front behind hsplit).symm

theorem start (h : AgreeOn css locate locate') (ht : t.On css) :
    locate t.start = locate' t.start := by
  obtain ⟨front, behind, hcss, hstart⟩ := ht
  rw [hstart]
  exact h front _ hcss

theorem last (h : AgreeOn css locate locate') (ht : t.On css) :
    locate t.last = locate' t.last := by
  have hfirst := h.start ht
  obtain ⟨front, behind, hcss, hstart⟩ := ht
  rw [Token.last]
  cases hlast : t.text.toList.getLast? with
  | none => exact hfirst
  | some c =>
    -- The last character stands behind the others.
    obtain ⟨init, hinit⟩ := List.getLast?_eq_some_iff.mp hlast
    have htext : t.text = String.ofList init ++ String.ofList [c] := by
      rw [← String.ofList_append, ← hinit, String.ofList_toList]
    have hsize : t.stop - c.utf8Size = (front ++ String.ofList init).utf8ByteSize := by
      rw [Token.stop, hstart, htext, String.utf8ByteSize_append, String.utf8ByteSize_append,
        utf8ByteSize_ofList [c], bytes_cons, bytes_nil]
      omega
    dsimp only
    rw [hsize]
    refine h _ (String.ofList [c] ++ behind) ?_
    rw [hcss, htext]
    simp only [String.append_assoc]

theorem stopAt (h : AgreeOn css locate locate') (ht : t.On css) :
    Outline.stopAt locate t = Outline.stopAt locate' t := by
  rw [Outline.stopAt, Outline.stopAt, h.last ht]

end AgreeOn

/-! ### Reading alike -/

namespace Outline

variable {css : String} {locate locate' : Nat → Position}

theorem detail_congr (o : Outline) (content : Content) {offset : Nat}
    (h : locate offset = locate' offset) :
    o.detail locate content offset = o.detail locate' content offset := by
  rw [detail, detail, h]

theorem close_congr (h : AgreeOn css locate locate') (o : Outline) {t : Token} (ht : t.On css) :
    o.close locate t = o.close locate' t := by
  rw [close, close, h.stopAt ht]

theorem declaration_congr (h : AgreeOn css locate locate') (o : Outline) (custom : Bool)
    {ts : List Token} (hts : ∀ t ∈ ts, t.On css) :
    o.declaration locate custom ts = o.declaration locate' custom ts := by
  rw [declaration, declaration]
  dsimp only
  cases hparts : readDeclaration custom
      (if ts.getLast?.any (fun t => t.kind == .semicolon) then ts.dropLast else ts) with
  | error issue => rfl
  | ok parts =>
    -- The first token of the property is one of the declaration, and so is the last one.
    have hfirst : parts.first ∈ ts := by
      obtain ⟨lead, rest, body, between, hlead, -⟩ := readDeclaration_eq_ok hparts
      have hmem : parts.first ∈
          (if ts.getLast?.any (fun t => t.kind == .semicolon) then ts.dropLast else ts) := by
        rw [← append_cutLead hlead]
        simp
      split_ifs at hmem
      · exact List.dropLast_subset ts hmem
      · exact hmem
    have hlast : ∀ t ∈ (if ts.getLast?.any (fun t => t.kind == .semicolon) then ts.getLast?
        else (ts.reverse.dropWhile fun t => t.kind == .space).head?), t ∈ ts := by
      intro t ht
      split_ifs at ht
      · exact List.mem_of_getLast? ht
      · exact List.mem_reverse.mp ((List.dropWhile_sublist _).subset (List.mem_of_mem_head? ht))
    simp only [bind, Except.bind]
    rw [detail_congr o _ (h.start (hts _ hfirst))]
    cases hlast' : (if ts.getLast?.any (fun t => t.kind == .semicolon) then ts.getLast?
        else (ts.reverse.dropWhile fun t => t.kind == .space).head?) with
    | none => rfl
    | some t =>
      dsimp only
      rw [h.stopAt (hts t (hlast t (by rw [hlast']; rfl)))]

theorem atRule_congr (h : AgreeOn css locate locate') (o : Outline) {name : Token}
    {params : List Token} {ending : AtRuleEnd} (hname : name.On css)
    (hparams : ∀ t ∈ params, t.On css) (hending : ∀ t ∈ ending.tokens, t.On css) :
    o.atRule locate name params ending = o.atRule locate' name params ending := by
  rw [atRule, atRule]
  dsimp only
  rw [detail_congr o _ (h.start hname)]
  -- The place where the node stops depends on how it ends; each is the place of a token of the
  -- text.
  cases ending with
  | semicolon t =>
    dsimp only
    rw [h.stopAt (hending t (by simp [AtRuleEnd.tokens]))]
  | block t => rfl
  | close t =>
    have ht := hending t (by simp [AtRuleEnd.tokens])
    dsimp only
    rw [close_congr h _ ht]
    cases hlast : (params.reverse.dropWhile fun t => t.kind == .space).head? with
    | none => rfl
    | some p =>
      dsimp only
      rw [h.stopAt (hparams p (List.mem_reverse.mp
        ((List.dropWhile_sublist _).subset (List.mem_of_mem_head? hlast))))]
  | textEnd =>
    dsimp only
    cases hlast : (cutGaps params).1.getLast? with
    | none => rfl
    | some p =>
      have hp : p ∈ params := by
        rw [← cutGaps_append params]
        exact List.mem_append_left _ (List.mem_of_getLast? hlast)
      dsimp only
      rw [h.stopAt (hparams p hp)]

/-- A statement is read alike when the positions of its tokens agree. -/
theorem step_congr (h : AgreeOn css locate locate') (o : Outline) {s : Statement}
    (hs : ∀ t ∈ s.tokens, t.On css) : step locate o s = step locate' o s := by
  cases s with
  | space t => rfl
  | semicolon t =>
    have ht := hs t List.mem_cons_self
    rw [step, step, freeSemicolon, freeSemicolon, h.start ht]
  | close t => exact close_congr h o (hs t List.mem_cons_self)
  | comment t =>
    have ht := hs t List.mem_cons_self
    rw [step, step, commentDetail, commentDetail, detail_congr o _ (h.start ht), h.stopAt ht]
  | block t => rw [step, step, detail_congr o _ (h.start (hs t List.mem_cons_self))]
  | rule head brace =>
    have hfirst : head.headD brace ∈ head ++ [brace] := by
      cases head with
      | nil => exact List.mem_cons_self
      | cons t ts => exact List.mem_cons_self
    rw [step, step, ruleDetail, ruleDetail]
    dsimp only
    rw [detail_congr o _ (h.start (hs _ hfirst))]
  | declaration custom ts => exact declaration_congr h o custom hs
  | atRule name params ending =>
    refine atRule_congr h o (hs name ?_) (fun t ht => hs t ?_) fun t ht => hs t ?_
    · exact List.mem_cons_self
    · exact List.mem_cons_of_mem _ (List.mem_append_left _ ht)
    · exact List.mem_cons_of_mem _ (List.mem_append_right _ ht)

theorem foldlM_step_congr (h : AgreeOn css locate locate') {ss : List Statement}
    (hss : ∀ s ∈ ss, ∀ t ∈ s.tokens, t.On css) (o : Outline) :
    ss.foldlM (step locate) o = ss.foldlM (step locate') o := by
  induction ss generalizing o with
  | nil => rfl
  | cons s ss ih =>
    obtain ⟨hs, hss⟩ := List.forall_mem_cons.mp hss
    rw [List.foldlM_cons, List.foldlM_cons, step_congr h o hs]
    simp only [ih hss]

end Outline

/-! ### Declarations that go on -/

theorem cutLead_swap {us ws lead rest : List Token} {first : Token}
    (hws : ∀ t ∈ ws, t.kind ≠ .word) (h : cutLead (us ++ ws) = .ok (lead, first, rest)) :
    ∃ more, rest = more ++ ws ∧ first ∈ us ∧
      ∀ ws', cutLead (us ++ ws') = .ok (lead, first, more ++ ws') := by
  induction us generalizing lead with
  | nil =>
    rw [List.nil_append] at h
    -- The word has to come from the front part, as there is none behind it.
    have hmem : first ∈ ws := by
      rw [← append_cutLead h]
      simp
    exact absurd (kind_of_cutLead h) (hws first hmem)
  | cons t us ih =>
    rw [List.cons_append, cutLead] at h
    by_cases hword : (t.kind == .word) = true
    · rw [if_pos hword] at h
      cases h
      refine ⟨us, rfl, List.mem_cons_self, fun ws' => ?_⟩
      rw [List.cons_append, cutLead, if_pos hword]
    · rw [if_neg hword] at h
      split_ifs at h with hempty
      cases htail : cutLead (us ++ ws) with
      | error issue => rw [htail] at h; cases h
      | ok parts =>
        obtain ⟨lead', first', rest'⟩ := parts
        rw [htail] at h
        cases h
        obtain ⟨more, hrest, hfirst, hall⟩ := ih htail
        refine ⟨more, hrest, List.mem_cons_of_mem _ hfirst, fun ws' => ?_⟩
        have hne : (us ++ ws').isEmpty = false := by
          rw [List.isEmpty_eq_false_iff_exists_mem]
          exact ⟨_, List.mem_append_left _ hfirst⟩
        rw [List.cons_append, cutLead, if_neg hword, hne, if_neg Bool.false_ne_true, hall]
        rfl

theorem cutBetween_of_no_word {ws : List Token} (hws : ∀ t ∈ ws, t.kind ≠ .word)
    (between : String) : ∃ parts, cutBetween between ws = .ok parts := by
  induction ws generalizing between with
  | nil => exact ⟨_, rfl⟩
  | cons t ws ih =>
    obtain ⟨ht, hws⟩ := List.forall_mem_cons.mp hws
    rw [cutBetween, beq_false_of_ne ht, Bool.false_and, if_neg Bool.false_ne_true]
    split_ifs
    · exact ⟨_, rfl⟩
    · exact ih hws _

theorem cutBetween_swap {us ws ws' : List Token} {between : String} {parts : String × List Token}
    (hws' : ∀ t ∈ ws', t.kind ≠ .word) (h : cutBetween between (us ++ ws) = .ok parts) :
    ∃ parts', cutBetween between (us ++ ws') = .ok parts' := by
  induction us generalizing between with
  | nil => exact cutBetween_of_no_word hws' between
  | cons t us ih =>
    rw [List.cons_append, cutBetween] at h ⊢
    split_ifs at h ⊢
    · exact ⟨_, rfl⟩
    · exact ih h

theorem cutBetween_dropWhile_swap {us ws ws' : List Token} {p : Token → Bool}
    {parts : String × List Token} (hws' : ∀ t ∈ ws', t.kind ≠ .word)
    (h : cutBetween "" ((us ++ ws).dropWhile p) = .ok parts) :
    ∃ parts', cutBetween "" ((us ++ ws').dropWhile p) = .ok parts' := by
  rw [List.dropWhile_append] at h ⊢
  split_ifs at h ⊢
  · exact cutBetween_of_no_word (fun t ht => hws' t ((List.dropWhile_sublist p).subset ht)) ""
  · exact cutBetween_swap hws' h

/-- A custom property has the same name whatever follows its tokens, as long as that holds no
word. -/
theorem readDeclaration_swap {us ws ws' : List Token} {parts : DeclarationParts}
    (hus : ∀ t ∈ us, t.Spelled) (hws : ∀ t ∈ ws, t.kind ≠ .word)
    (hws' : ∀ t ∈ ws', t.kind ≠ .word) (h : readDeclaration true (us ++ ws) = .ok parts) :
    ∃ parts', readDeclaration true (us ++ ws') = .ok parts' ∧ parts'.first = parts.first ∧
      parts'.lead = parts.lead := by
  obtain ⟨lead, rest, body, between, hlead, hbetween, hmark, -⟩ := readDeclaration_eq_ok h
  obtain ⟨more, rfl, hfirst, hlead'⟩ := cutLead_swap hws hlead
  rw [← List.cons_append] at hbetween
  obtain ⟨⟨between', body'⟩, hbetween'⟩ := cutBetween_dropWhile_swap hws' hbetween
  have hread : ∃ parts', readDeclaration true (us ++ ws') = .ok parts' ∧
      parts'.first = parts.first := by
    rw [readDeclaration, hlead']
    simp only [bind, Except.bind]
    rw [← List.cons_append, hbetween']
    simp only [Bool.not_true, Bool.and_false, Bool.false_eq_true, ↓reduceIte]
    exact ⟨_, rfl, rfl⟩
  obtain ⟨parts', hparts', hsame⟩ := hread
  refine ⟨parts', hparts', hsame, ?_⟩
  obtain ⟨lead'', rest'', _, _, hlead'', -, hmark'', -⟩ := readDeclaration_eq_ok hparts'
  rw [hlead' ws', Except.ok.injEq, Prod.mk.injEq, Prod.mk.injEq] at hlead''
  obtain ⟨rfl, -, rfl⟩ := hlead''
  -- The mark of old browsers is the first character of the first token.
  have hproperty : ∀ ts, Token.join ((parts.first :: ts).takeWhile fun t => !endsProperty t) =
      parts.first.text ++ Token.join (ts.takeWhile fun t => !endsProperty t) := by
    intro ts
    rw [List.takeWhile_cons_of_pos, Token.join_cons]
    rw [endsProperty, Token.isGap, kind_of_cutLead hlead]
    rfl
  have hne := (hus _ hfirst).text_ne
  rw [hmark, hmark'', hsame, hproperty, hproperty, cutHack_append_fst hne, cutHack_append_fst hne]

/-! ### Branches that go on -/

/-- A node without a block that starts like another one. -/
structure Detail.Resumes (d d' : Detail) : Prop where
  kind : d'.kind = d.kind
  noComment : d.kind ≠ .comment
  before : d'.raws.before = d.raws.before
  starts : ∃ start stop stop', d.source = some ⟨0, some start, stop⟩ ∧
    d'.source = some ⟨0, some start, stop'⟩

/-- A branch whose last child goes on in another branch. -/
inductive Draft.Resumes : Draft → Draft → Prop
  | leaf {d d' e e' : Detail} {kids : List Draft} (resumes : e.Resumes e') :
    Resumes (.node d (kids ++ [.node e []])) (.node d' (kids ++ [.node e' []]))

/-- A branch that was read from a longer text, at the end of which a comment stands: the comment is
one more child, or a part of the last child. -/
inductive Draft.Extends (comment : String) : Draft → Draft → Prop
  | comment {d d' c : Detail} {kids : List Draft} (content : c.content = .comment comment)
    (semicolon : kids ≠ [] → d'.raws.semicolon = d.raws.semicolon) :
    Extends comment (.node d kids) (.node d' (kids ++ [.node c []]))
  | leaf {b b' : Draft} (resumes : b.Resumes b') : Extends comment b b'

namespace Outline

variable {css : String} {locate locate' : Nat → Position}

/-- White space is only remembered. -/
theorem foldlM_spaces (locate : Nat → Position) {ts : List Token}
    (hts : ∀ t ∈ ts, t.kind = .space) (o : Outline) :
    ∃ spaces, (ts.map gapStatement).foldlM (step locate) o = .ok { o with spaces } := by
  induction ts generalizing o with
  | nil => exact ⟨o.spaces, rfl⟩
  | cons t ts ih =>
    obtain ⟨ht, hts⟩ := List.forall_mem_cons.mp hts
    rw [List.map_cons, List.foldlM_cons, gapStatement, if_pos ht]
    exact ih hts _

/-- A comment behind white space is one more child of the open block. -/
theorem foldlM_gap_comment (locate : Nat → Position) (o : Outline) {gap cm : Token} {body : String}
    (hgap : gap.kind = .space) (hkind : cm.kind = .comment)
    (htext : cm.text = "/*" ++ body ++ "*/") :
    ∃ spaces c, (TextEnd.free.statements [gap, cm]).foldlM (step locate) o =
        .ok (Outline.addLeaf { o with spaces } c o.semicolon) ∧
      c.content = .comment (trimmed body) := by
  have hcm : cm.kind ≠ .space := by rw [hkind]; decide
  refine ⟨o.spaces ++ gap.text,
    Outline.commentDetail { o with spaces := o.spaces ++ gap.text } locate cm, ?_, ?_⟩
  · rw [TextEnd.statements, List.map_cons, List.map_cons, gapStatement, gapStatement, if_pos hgap,
      if_neg hcm]
    rfl
  · have hbody := commentBody_of_marks body.toList
    show Content.comment (String.ofList (trim (commentBody cm.text.toList))) = _
    rw [htext, String.toList_append, String.toList_append]
    exact congrArg (fun cs => Content.comment (String.ofList (trim cs))) hbody

/-- The comment is one more child of the root. -/
theorem extends_free {o o' : Outline} {gap cm : Token} {trail : List Token} {b : Draft}
    {stop : Position} {body : String} (htrail : ∀ t ∈ trail, t.kind = .space)
    (hgap : gap.kind = .space) (hkind : cm.kind = .comment) (htext : cm.text = "/*" ++ body ++ "*/")
    (hread : (TextEnd.free.statements trail).foldlM (step locate) o = .ok o')
    (hfinish : o'.finish stop = .ok b) (stop' : Position) :
    ∃ o'' b', (TextEnd.free.statements [gap, cm]).foldlM (step locate') o = .ok o'' ∧
      o''.finish stop' = .ok b' ∧ Draft.Extends (trimmed body) b b' := by
  obtain ⟨spaces, hspaces⟩ := foldlM_spaces locate htrail o
  rw [TextEnd.statements, hspaces] at hread
  cases hread
  obtain ⟨hparents, rfl⟩ := finish_eq_ok_iff.mp hfinish
  obtain ⟨spaces', c, hstep, hcontent⟩ := foldlM_gap_comment locate' o hgap hkind htext
  refine ⟨_, _, hstep, finish_eq_ok_iff.mpr ⟨hparents, rfl⟩, ?_⟩
  rw [show (Outline.addLeaf { o with spaces := spaces' } c o.semicolon).current.kids.reverse =
    o.current.kids.reverse ++ [.node c []] from List.reverse_cons ..]
  refine .comment hcontent fun hne => ?_
  have hkids : o.current.kids.isEmpty = false := by
    rw [List.isEmpty_eq_false_iff]
    exact fun hnil => hne (by rw [hnil]; rfl)
  show some o.semicolon = if o.current.kids.isEmpty then _ else some o.semicolon
  rw [hkids]
  rfl

/-- Two outlines that differ in their last child end as branches that do. -/
theorem extends_leaf {o o' : Outline} {d d' : Detail} {b : Draft} {stop : Position}
    (hparents : o'.parents = o.parents) (hkids : o'.current.kids = .node d [] :: o.current.kids)
    (hresumes : d.Resumes d') (hfinish : o'.finish stop = .ok b) (o'' : Outline)
    (hparents' : o''.parents = o.parents)
    (hkids' : o''.current.kids = .node d' [] :: o.current.kids) (stop' : Position) :
    ∃ b', o''.finish stop' = .ok b' ∧ b.Resumes b' := by
  obtain ⟨hnil, rfl⟩ := finish_eq_ok_iff.mp hfinish
  rw [hparents] at hnil
  refine ⟨_, finish_eq_ok_iff.mpr ⟨hparents'.trans hnil, rfl⟩, ?_⟩
  rw [hkids, hkids', List.reverse_cons, List.reverse_cons]
  exact .leaf hresumes

/-- The tokens of a custom property at the end of a text, without a semicolon. -/
theorem body_of_custom (ts : List Token) {trail : List Token} (htrail : Gaps trail) {closed : Bool}
    (hclosed : closed = (ts ++ trail).getLast?.any fun t => t.kind == .semicolon) :
    ∃ us ws vs, (if closed then (ts ++ trail).dropLast else ts ++ trail) = us ++ ws ∧
      ts = us ++ vs ∧ (∀ t ∈ ws, t.kind ≠ .word) ∧ ∀ t ∈ vs, t.kind ≠ .word := by
  have hgap : ∀ t ∈ trail, t.kind ≠ .word := by
    intro t ht
    rcases Token.isGap_iff.mp (htrail t ht) with h | h <;> rw [h] <;> decide
  cases hc : closed with
  | false => exact ⟨ts, trail, [], rfl, (List.append_nil ts).symm, hgap, by simp⟩
  | true =>
    rw [hc] at hclosed
    cases hlast : (ts ++ trail).getLast? with
    | none => rw [hlast] at hclosed; cases hclosed
    | some e =>
      rw [hlast] at hclosed
      have hkind : e.kind = .semicolon := by simpa using hclosed.symm
      obtain ⟨front, hfront⟩ := List.getLast?_eq_some_iff.mp hlast
      -- The last token is no gap, so nothing trails.
      obtain rfl : trail = [] := by
        by_contra hne
        rw [List.getLast?_append_of_ne_nil _ hne] at hlast
        rcases Token.isGap_iff.mp (htrail e (List.mem_of_getLast? hlast)) with h | h <;>
          rw [hkind] at h <;> cases h
      rw [List.append_nil] at hfront ⊢
      refine ⟨front, [], [e], by rw [hfront]; simp, hfront, by simp, fun t ht => ?_⟩
      rw [List.mem_singleton.mp ht, hkind]
      decide

/-- The comment is a part of a custom property. -/
theorem extends_declaration {o o' : Outline} {ts trail tail : List Token} {b : Draft}
    {stop : Position} (hagree : AgreeOn css locate locate') (hts : ∀ t ∈ ts, t.Spelled)
    (hon : ∀ t ∈ ts, t.On css) (htrail : Gaps trail) (htail : Gaps tail)
    (hne : tail ≠ []) (hread : o.declaration locate true (ts ++ trail) = .ok o')
    (hfinish : o'.finish stop = .ok b) (stop' : Position) :
    ∃ o'' b', o.declaration locate' true (ts ++ tail) = .ok o'' ∧
      o''.finish stop' = .ok b' ∧ b.Resumes b' := by
  obtain ⟨closed, hclosed⟩ : ∃ closed, closed =
    (ts ++ trail).getLast?.any fun t => t.kind == .semicolon := ⟨_, rfl⟩
  obtain ⟨parts, d, hparts, rfl, -, hcontent, hbefore, -, -, -, hstarts⟩ :=
    declaration_eq_ok hclosed hread
  obtain ⟨us, ws, vs, hbody, rfl, hws, hvs⟩ := body_of_custom ts htrail hclosed
  rw [hbody] at hparts
  -- With the comment behind it, the declaration is not closed.
  have hopen : ((us ++ vs ++ tail).getLast?.any fun t => t.kind == .semicolon) = false := by
    obtain ⟨e, he⟩ := Option.isSome_iff_exists.mp (List.getLast?_isSome.mpr hne)
    rw [List.getLast?_append_of_ne_nil _ hne, he]
    rcases Token.isGap_iff.mp (htail e (List.mem_of_getLast? he)) with h | h <;> simp [h]
  have hgap : ∀ t ∈ vs ++ tail, t.kind ≠ .word := by
    intro t ht
    rcases List.mem_append.mp ht with ht | ht
    · exact hvs t ht
    · rcases Token.isGap_iff.mp (htail t ht) with h | h <;> rw [h] <;> decide
  obtain ⟨parts', hparts', hfirst, hlead⟩ := readDeclaration_swap
    (fun t ht => hts t (List.mem_append_left _ ht)) hws hgap hparts
  have hread' : ∃ o'', o.declaration locate' true (us ++ vs ++ tail) = .ok o'' := by
    rw [declaration, hopen, if_neg Bool.false_ne_true, List.append_assoc, hparts']
    exact ⟨_, rfl⟩
  obtain ⟨o'', hread''⟩ := hread'
  obtain ⟨parts'', d', hparts'', rfl, -, hcontent', hbefore', -, -, -, hstarts'⟩ :=
    declaration_eq_ok hopen.symm hread''
  rw [if_neg Bool.false_ne_true, List.append_assoc, hparts'] at hparts''
  cases hparts''
  have hmem : parts.first ∈ us ++ vs := by
    obtain ⟨lead, rest, body, between, hcut, -⟩ := readDeclaration_eq_ok hparts
    obtain ⟨more, -, hmem, -⟩ := cutLead_swap hws hcut
    exact List.mem_append_left _ hmem
  rw [hfirst, ← hagree.start (hon _ hmem)] at hstarts'
  have hresumes : d.Resumes d' := by
    refine ⟨?_, ?_, ?_, _, _, _, hstarts, hstarts'⟩
    · rw [Detail.kind, Detail.kind, hcontent, hcontent']
      rfl
    · rw [Detail.kind, hcontent]
      exact fun h => by cases h
    · rw [hbefore, hbefore', hlead]
  obtain ⟨b', hfinish', hresumes'⟩ := extends_leaf (o := o) (by rfl) (by rfl) hresumes hfinish
    (o.addLeaf d' false) rfl rfl stop'
  exact ⟨_, b', hread'', hfinish', hresumes'⟩

/-- The comment is a part of the parameters of an at-rule. -/
theorem extends_atRule {o o' : Outline} {name : Token} {params : List Token} {b : Draft}
    {stop : Position} (hagree : AgreeOn css locate locate') (hon : name.On css)
    (hread : o.atRule locate name params .textEnd = .ok o') (hfinish : o'.finish stop = .ok b)
    (params' : List Token) (stop' : Position) :
    ∃ o'' b', o.atRule locate' name params' .textEnd = .ok o'' ∧
      o''.finish stop' = .ok b' ∧ b.Resumes b' := by
  obtain ⟨d, between, left, hd, -, -, hcase⟩ := atRule_eq_ok hread
  -- An at-rule that runs to the end of the text is read whatever its params are.
  have hread' : ∃ o'', o.atRule locate' name params' .textEnd = .ok o'' := by
    rw [atRule]
    exact ⟨_, rfl⟩
  obtain ⟨o'', hread''⟩ := hread'
  obtain ⟨d', between', left', hd', -, -, hcase'⟩ := atRule_eq_ok hread''
  dsimp only at hcase hcase'
  rw [hcase] at hfinish
  rw [hcase'] at hread''
  obtain ⟨stops, hstarts⟩ := hd.starts
  obtain ⟨stops', hstarts'⟩ := hd'.starts
  have hresumes : d.Resumes d' := by
    refine ⟨hd'.kind.trans hd.kind.symm, by rw [hd.kind]; decide, ?_, _, stops, stops', hstarts, ?_⟩
    · rw [hd.raws, hd'.raws]
    · rw [hstarts', hagree.start hon]
  obtain ⟨b', hfinish', hresumes'⟩ := extends_leaf (o := o) (by rfl) (by rfl) hresumes hfinish
    { o.addLeaf d' false with spaces := left' } rfl rfl stop'
  exact ⟨_, b', hread'', hfinish', hresumes'⟩

end Outline

/-- What the tokens and statements of a text have in common with those of the text with a trailer:
the white space at its end gives way to the trailer. -/
structure Trailed (r : Trailer) (css : String) (kept trail : List Token) (gap cm : Token)
    (ss : List Statement) (last : TextEnd) : Prop where
  lex : lex false css = (kept ++ trail, none)
  statements : statementsFrom none (kept ++ trail) = (ss ++ last.statements trail, none)
  lex_text : Stylesheet.lex false (css ++ r.text) = (kept ++ [gap, cm], none)
  statements_text : statementsFrom none (kept ++ [gap, cm]) =
    (ss ++ last.statements [gap, cm], none)
  trail_kind : ∀ t ∈ trail, t.kind = .space
  gap_kind : gap.kind = .space
  comment_kind : cm.kind = .comment
  comment_text : cm.text = r.comment
  mem_kept : ∀ s ∈ ss, ∀ t ∈ s.tokens, t ∈ kept
  mem_kept_last : ∀ t ∈ last.tokens, t ∈ kept
  takesRest : last ≠ .free → ∀ gs, Gaps gs → ∀ s ∈ last.statements gs, s.takesRest = true

theorem exists_trailed (r : Trailer) {css : String} {tokens : List Token} {ss₀ : List Statement}
    (hlex : lex false css = (tokens, none)) (hss₀ : statementsFrom none tokens = (ss₀, none)) :
    ∃ kept trail gap cm ss last, Trailed r css kept trail gap cm ss last ∧
      tokens = kept ++ trail ∧ ss₀ = ss ++ last.statements trail := by
  have hend : (lexFrom false [] 0 css.toList).2 = none := congrArg Prod.snd hlex
  obtain ⟨kept, trail, gap, cm, htokens, htrail, hlex', hgap, hcm, htext⟩ :=
    lexFrom_append r [] 0 css.toList hend
  rw [← String.toList_append] at hlex'
  obtain rfl : tokens = kept ++ trail := by rw [← htokens]; exact (congrArg Prod.fst hlex).symm
  have hgaps : Gaps trail := fun t ht => Token.isGap_iff.mpr (Or.inl (htrail t ht))
  have hgaps' : Gaps [gap, cm] := by
    simp [Gaps, Token.isGap_iff, hgap, hcm]
  obtain ⟨ss, last, hss, hlast, htakes, hall⟩ :=
    statementsFrom_append_gaps kept hgaps (by rw [hss₀])
  refine ⟨kept, trail, gap, cm, ss, last, ⟨hlex, hall trail hgaps, hlex', hall _ hgaps', htrail,
    hgap, hcm, htext, hss, hlast, htakes⟩, rfl, ?_⟩
  exact (congrArg Prod.fst hss₀).symm.trans (congrArg Prod.fst (hall trail hgaps))

namespace Trailed

variable {r : Trailer} {css : String} {kept trail : List Token} {gap cm : Token}
  {ss : List Statement} {last : TextEnd} (h : Trailed r css kept trail gap cm ss last)

include h

theorem gaps_trail : Gaps trail :=
  fun t ht => Token.isGap_iff.mpr (Or.inl (h.trail_kind t ht))

theorem gaps_text : Gaps [gap, cm] := by
  simp [Gaps, Token.isGap_iff, h.gap_kind, h.comment_kind]

/-- The tokens of the shorter text stand in it. -/
theorem on_kept : ∀ t ∈ kept, t.On css := by
  intro t ht
  have hfollow := lex_follow false css
  have hjoin : Token.join (Stylesheet.lex false css).1 = css := join_lex (by rw [h.lex])
  rw [h.lex] at hfollow hjoin
  have := Token.on_of_follow "" hfollow t (List.mem_append_left _ ht)
  rwa [hjoin, String.empty_append] at this

/-- The statements in front of the end are read alike in both texts. -/
theorem foldlM_congr {locate locate' : Nat → Position} (hagree : AgreeOn css locate locate')
    (o : Outline) :
    ss.foldlM (Outline.step locate) o = ss.foldlM (Outline.step locate') o :=
  Outline.foldlM_step_congr hagree (fun s hs t ht => h.on_kept t (h.mem_kept s hs t ht)) o

/-- A text whose last statement takes in what follows is read with the trailer in its last node. -/
theorem outlineText_resumes {locate locate' : Nat → Position} (hagree : AgreeOn css locate locate')
    {b : Draft} (hb : outlineText locate css = .ok b) (hlast : last ≠ .free) :
    ∃ b', outlineText locate' (css ++ r.text) = .ok b' ∧ b.Resumes b' := by
  have hspelled : ∀ t ∈ kept, t.Spelled := fun t ht =>
    lex_spelled css t (by rw [h.lex]; exact List.mem_append_left _ ht)
  obtain ⟨o', hread, hfinish⟩ := (outlineText_eq_ok_iff h.lex h.statements).mp hb
  rw [List.foldlM_append, h.foldlM_congr hagree] at hread
  obtain ⟨o, hcommon, hread⟩ := Except.bind_eq_ok hread
  -- What the end of the text becomes is all that is left.
  suffices hsuffices : ∃ o'' b', (last.statements [gap, cm]).foldlM (Outline.step locate') o =
      .ok o'' ∧ o''.finish (locate' (css ++ r.text).utf8ByteSize) = .ok b' ∧ b.Resumes b' by
    obtain ⟨o'', b', hread', hfinish', hresumes⟩ := hsuffices
    refine ⟨b', (outlineText_eq_ok_iff h.lex_text h.statements_text).mpr ⟨o'', ?_, hfinish'⟩,
      hresumes⟩
    rw [List.foldlM_append, hcommon]
    exact hread'
  cases hend : last with
  | free => exact absurd hend hlast
  | declaration ts =>
    subst hend
    simp only [TextEnd.statements, List.foldlM_cons, List.foldlM_nil, bind_pure] at hread ⊢
    exact Outline.extends_declaration hagree (fun t ht => hspelled t (h.mem_kept_last t ht))
      (fun t ht => h.on_kept t (h.mem_kept_last t ht)) h.gaps_trail h.gaps_text (by simp) hread
      hfinish _
  | atRule name params =>
    subst hend
    simp only [TextEnd.statements, List.foldlM_cons, List.foldlM_nil, bind_pure] at hread ⊢
    exact Outline.extends_atRule hagree
      (h.on_kept name (h.mem_kept_last name List.mem_cons_self)) hread hfinish _ _

end Trailed

/-- Behind a stylesheet that can be read, a line break and a comment can be read as well. -/
theorem outlineText_append (r : Trailer) {css : String} {locate locate' : Nat → Position}
    (hagree : AgreeOn css locate locate') {b : Draft} (h : outlineText locate css = .ok b) :
    ∃ b', outlineText locate' (css ++ r.text) = .ok b' ∧
      Draft.Extends (trimmed r.body) b b' := by
  obtain ⟨tokens, ss₀, hlex, hss₀⟩ := lex_of_outlineText h
  obtain ⟨kept, trail, gap, cm, ss, last, htrailed, rfl, rfl⟩ := exists_trailed r hlex hss₀
  by_cases hlast : last = .free
  · subst hlast
    obtain ⟨o', hread, hfinish⟩ := (outlineText_eq_ok_iff hlex hss₀).mp h
    rw [List.foldlM_append, htrailed.foldlM_congr hagree] at hread
    obtain ⟨o, hcommon, hread⟩ := Except.bind_eq_ok hread
    obtain ⟨o'', b', hread', hfinish', hextends⟩ := Outline.extends_free htrailed.trail_kind
      htrailed.gap_kind htrailed.comment_kind htrailed.comment_text hread hfinish _
    refine ⟨b', (outlineText_eq_ok_iff htrailed.lex_text htrailed.statements_text).mpr
      ⟨o'', ?_, hfinish'⟩, hextends⟩
    rw [List.foldlM_append, hcommon]
    exact hread'
  · obtain ⟨b', hb', hresumes⟩ := htrailed.outlineText_resumes hagree h hlast
    exact ⟨b', hb', .leaf hresumes⟩

end Stylesheet
