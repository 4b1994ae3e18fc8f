import Stylesheet.Proofs.Draft.Print
import Stylesheet.Proofs.Outline.Places
import Stylesheet.Proofs.Text.Position
import Stylesheet.Proofs.Token.Ends
import Stylesheet.Tree.Parse

/-!
# Reading a whole text

Statement by statement, the text of the outline grows by the text of the tokens
(`Outline.InFrontOf.step`): the outline stays settled, or what is left ends the block. At the end of
the text no block is open, and the branch is what the outline ends as. `outlineText_induction` says
so, together with whatever else each statement keeps.

The branch that was read is printed as the text (`outlineText_eq_ok`), with every node where it was
read (`outlineText_read`). A stylesheet that was read and not changed is printed as it was,
character by character (`print_parse`).
-/

namespace Stylesheet

theorem Except.bind_eq_ok {ε α β : Type} {x : Except ε α} {f : α → Except ε β} {b : β}
    (h : (x >>= f) = .ok b) : ∃ a, x = .ok a ∧ f a = .ok b := by
  cases x with
  | error e => cases h
  | ok a => exact ⟨a, rfl, h⟩

theorem statementsFrom_of_error {pending : Option Unclosed} {t : Token} {ts : List Token}
    {issue : Issue} (h : nextStatement pending t ts = .error issue) :
    statementsFrom pending (t :: ts) = ([], some issue) := by
  rw [statementsFrom]
  split
  · rename_i issue' h'
    rw [h] at h'
    cases h'
    rfl
  · rename_i h'
    rw [h] at h'
    cases h'

theorem statementsFrom_of_ok {pending : Option Unclosed} {t : Token} {ts rest : List Token}
    {s : Statement} (h : nextStatement pending t ts = .ok (s, rest)) :
    statementsFrom pending (t :: ts) =
      (s :: (statementsFrom pending rest).1, (statementsFrom pending rest).2) := by
  rw [statementsFrom]
  split
  · rename_i h'
    rw [h] at h'
    cases h'
  · rename_i h'
    rw [h] at h'
    cases h'
    rfl

/-- Each statement was read from tokens at the end of the list. -/
theorem exists_nextStatement {pending : Option Unclosed} {ts : List Token} {s : Statement}
    (h : s ∈ (statementsFrom pending ts).1) :
    ∃ t us rest, nextStatement pending t us = .ok (s, rest) ∧ t :: us <:+ ts := by
  induction ts using statementsFrom.induct pending with
  | case1 =>
    rw [statementsFrom] at h
    cases h
  | case2 t ts issue hnext =>
    rw [statementsFrom_of_error hnext] at h
    cases h
  | case3 t ts s' rest hnext _ _ _ _ ih =>
    rw [statementsFrom_of_ok hnext] at h
    rcases List.mem_cons.mp h with rfl | h
    · exact ⟨t, ts, rest, hnext, List.suffix_rfl⟩
    · obtain ⟨u, us, left, hread, hsuffix⟩ := ih h
      exact ⟨u, us, left, hread, hsuffix.trans ⟨s'.tokens, nextStatement_append hnext⟩⟩

/-- Something that does not end is an issue at the latest at the end of the tokens. -/
theorem pending_eq_none {pending : Option Unclosed} {ts : List Token}
    (h : (statementsFrom pending ts).2 = none) : pending = none := by
  induction ts using statementsFrom.induct pending with
  | case1 =>
    rw [statementsFrom] at h
    exact Option.map_eq_none_iff.mp h
  | case2 t ts issue hnext =>
    rw [statementsFrom_of_error hnext] at h
    cases h
  | case3 t ts s rest hnext _ _ _ _ ih =>
    rw [statementsFrom_of_ok hnext] at h
    exact ih h

/-- What reading a text means, when nothing stops it. -/
theorem outlineText_eq_ok_iff {locate : Nat → Position} {css : String} {b : Draft}
    {tokens : List Token} {ss : List Statement} (hlex : lex false css = (tokens, none))
    (hss : statementsFrom none tokens = (ss, none)) :
    outlineText locate css = .ok b ↔
      ∃ o, ss.foldlM (Outline.step locate) .empty = .ok o ∧
        o.finish (locate css.utf8ByteSize) = .ok b := by
  rw [outlineText, hlex]
  dsimp only
  rw [hss]
  dsimp only
  -- With nothing unclosed and no issue the reading is the fold and its finish.
  cases ss.foldlM (Outline.step locate) .empty with
  | error issue =>
    constructor
    · intro h
      cases h
    · rintro ⟨o, h, -⟩
      cases h
  | ok o =>
    constructor
    · intro h
      exact ⟨o, rfl, h⟩
    · rintro ⟨o', h, hfinish⟩
      cases h
      exact hfinish

theorem lex_of_outlineText {locate : Nat → Position} {css : String} {b : Draft}
    (h : outlineText locate css = .ok b) :
    ∃ tokens ss, lex false css = (tokens, none) ∧ statementsFrom none tokens = (ss, none) := by
  rw [outlineText] at h
  rcases hlex : lex false css with ⟨tokens, unclosed⟩
  rw [hlex] at h
  obtain ⟨o, -, hfinish⟩ := Except.bind_eq_ok h
  rcases hss : statementsFrom unclosed tokens with ⟨ss, issue⟩
  rw [hss] at hfinish
  cases issue with
  | some issue => cases hfinish
  | none =>
    obtain rfl : unclosed = none := pending_eq_none (by rw [hss])
    exact ⟨tokens, ss, rfl, hss⟩

namespace Outline

variable {locate : Nat → Position} {css : String} {pending : Option Unclosed} {o o' : Outline}
  {t : Token} {ts rest : List Token} {s : Statement}

/-! ### Behind some of the statements -/

/-- The outline of the front part of a text, and the tokens that are left of it. -/
structure InFrontOf (css : String) (o : Outline) (ts : List Token) : Prop where
  proper : o.Proper
  opens : o.Settled ∨ EndsBlock ts
  tidy : ∀ t ∈ ts, t.Tidy
  follow : Token.Follow o.text.utf8ByteSize ts
  whole : o.text ++ Token.join ts = css

theorem proper_empty : empty.Proper := by
  refine ⟨⟨rfl, rfl, rfl, rfl, rfl, ?_, ?_, nofun⟩, rfl, rfl⟩
  · intro hkind
    exact absurd rfl hkind
  · intro hkind
    exact absurd rfl hkind

/-- Before anything is read, all tokens are left. -/
theorem inFrontOf_empty (hlex : (lex false css).2 = none) :
    InFrontOf css empty (lex false css).1 where
  proper := proper_empty
  opens := Or.inl rfl
  tidy := lex_tidy css
  follow := lex_follow false css
  whole := (congrArg (empty.text ++ ·) (join_lex hlex)).trans String.empty_append

namespace InFrontOf

theorem spelled (h : InFrontOf css o ts) : ∀ t ∈ ts, t.Spelled :=
  fun t ht => (h.tidy t ht).spelled

theorem text_eq (h : InFrontOf css o []) : o.text = css :=
  String.append_empty.symm.trans h.whole

/-- One statement: the outline is settled again, or what is left ends the block. -/
theorem step_text (h : InFrontOf css o (t :: ts))
    (hnext : nextStatement pending t ts = .ok (s, rest)) (hstep : step locate o s = .ok o') :
    o'.Proper ∧ (o'.Settled ∨ EndsBlock rest) ∧ o'.text = o.text ++ Token.join s.tokens ∧
      (o.Read locate → o'.Read locate) := by
  have hfits := nextStatement_fits h.spelled hnext
  have hfollow := h.follow
  rw [← nextStatement_append hnext, Token.follow_append] at hfollow
  rcases h.opens with hset | hend
  · obtain ⟨hproper, hset', htext⟩ := step_text_of_settled h.proper hset hfits hstep
    refine ⟨hproper, ?_, htext, fun hread =>
      step_read_of_settled hread h.proper hset hfits hfollow.1 hstep⟩
    cases hs : s.endsOpen with
    | false => exact Or.inl (hset' hs)
    | true => exact Or.inr (endsBlock_of_endsOpen h.spelled hnext hs)
  · obtain ⟨htrailing, hrest⟩ := hend.next hnext
    obtain ⟨hproper, hclose, htext⟩ := step_text_of_isTrailing h.proper htrailing hfits hstep
    refine ⟨hproper, ?_, htext, fun hread =>
      step_read_of_isTrailing hread h.proper htrailing hfollow.1 hstep⟩
    rcases hrest with hs | hrest
    · exact Or.inl (hclose hs)
    · exact Or.inr hrest

/-- Behind a statement, the outline is that of a longer front part. -/
theorem step (h : InFrontOf css o (t :: ts))
    (hnext : nextStatement pending t ts = .ok (s, rest)) (hstep : step locate o s = .ok o') :
    InFrontOf css o' rest := by
  obtain ⟨hproper, hopens, htext, -⟩ := h.step_text hnext hstep
  have htidy := h.tidy
  have hfollow := h.follow
  have hwhole := h.whole
  rw [← nextStatement_append hnext] at htidy hfollow hwhole
  refine ⟨hproper, hopens, (List.forall_mem_append.mp htidy).2, ?_, ?_⟩
  · rw [htext, String.utf8ByteSize_append]
    exact (Token.follow_append.mp hfollow).2
  · rw [htext, String.append_assoc, ← Token.join_append]
    exact hwhole

/-- What each statement keeps, of the outline and the tokens that are left, holds behind all of
them. -/
theorem foldlM_induction (Inv : Outline → List Token → Prop)
    (hkeeps : ∀ {o o' t ts s rest}, InFrontOf css o (t :: ts) → Inv o (t :: ts) →
      nextStatement pending t ts = .ok (s, rest) → Outline.step locate o s = .ok o' → Inv o' rest)
    (h : InFrontOf css o ts) (hinv : Inv o ts) (hissue : (statementsFrom pending ts).2 = none)
    (hread : (statementsFrom pending ts).1.foldlM (Outline.step locate) o = .ok o') :
    InFrontOf css o' [] ∧ Inv o' [] := by
  induction ts using statementsFrom.induct pending generalizing o with
  | case1 =>
    rw [statementsFrom] at hread
    cases hread
    exact ⟨h, hinv⟩
  | case2 t ts issue hnext =>
    rw [statementsFrom_of_error hnext] at hissue
    cases hissue
  | case3 t ts s rest hnext _ _ _ _ ih =>
    -- The first statement leaves an outline behind which the rest can be read in turn.
    rw [statementsFrom_of_ok hnext] at hissue hread
    rw [List.foldlM_cons] at hread
    obtain ⟨o₁, hstep, hread⟩ := Except.bind_eq_ok hread
    exact ih (h.step hnext hstep) (hkeeps h hinv hnext hstep) hissue hread

end InFrontOf

theorem read_empty (h : locate 0 = ⟨0, 1, 1⟩) : empty.Read locate := by
  intro p hp
  rw [show empty.places = [⟨"", empty.current.detail, ""⟩] from rfl, List.mem_singleton] at hp
  rw [hp]
  refine Draft.Place.read_of_startsAt (by decide) (fun _ => rfl) ⟨none, ?_⟩
  rw [show "".utf8ByteSize = 0 from rfl, h]
  rfl

/-! ### At the end of the text -/

theorem finish_eq_ok_iff {o : Outline} {stop : Position} {b : Draft} :
    o.finish stop = .ok b ↔
      o.parents = [] ∧ b = .node (withStop o.sealed stop) o.current.kids.reverse := by
  rw [finish]
  cases o.parents with
  | nil => simp [eq_comm]
  | cons f fs => simp

/-- The branch at the end of the text. -/
theorem finish_eq_ok (locate : Nat → Position) {o : Outline} {b : Draft} {stop : Position}
    (h : o.Proper) (hfinish : o.finish stop = .ok b) :
    b.Every Detail.Captured ∧ b.label.kind = .root ∧ Draft.text false b = o.text ∧
      (o.Read locate → ∀ p ∈ Draft.places "" false b, p.Read locate) := by
  obtain ⟨hparents, rfl⟩ := finish_eq_ok_iff.mp hfinish
  rw [Proper, hparents] at h
  obtain ⟨hproper, hroot, hbefore⟩ := h
  have hfront : o.current.detail.before = "" := by rw [Detail.before, hbefore]; rfl
  refine ⟨.node (captured_sealed hproper stop) fun b hb => ?_, hroot, ?_, fun hread => ?_⟩
  · exact (hproper.kids b (List.mem_reverse.mp hb)).captured
  · rw [text_sealed hproper, ending_sealed_of_root hproper hroot, text, hparents, around,
      Frame.text, hfront, String.empty_append, String.empty_append]
  · rw [Read, places, hparents] at hread
    have hsealed := read_sealed hproper hread false stop
    rwa [hfront] at hsealed

end Outline

/-- The branch of a text is what an outline of the whole text ends as. What each statement keeps
holds of that outline. -/
theorem outlineText_induction {locate : Nat → Position} {css : String} {b : Draft}
    (Inv : Outline → List Token → Prop) (hb : outlineText locate css = .ok b)
    (hempty : Inv .empty (lex false css).1)
    (hkeeps : ∀ {o o' t ts s rest}, Outline.InFrontOf css o (t :: ts) → Inv o (t :: ts) →
      nextStatement none t ts = .ok (s, rest) → Outline.step locate o s = .ok o' → Inv o' rest) :
    ∃ o, Outline.InFrontOf css o [] ∧ Inv o [] ∧ o.finish (locate css.utf8ByteSize) = .ok b := by
  obtain ⟨tokens, ss, hlex, hss⟩ := lex_of_outlineText hb
  obtain ⟨o, hread, hfinish⟩ := (outlineText_eq_ok_iff hlex hss).mp hb
  have hfront : Outline.InFrontOf css .empty (lex false css).1 :=
    Outline.inFrontOf_empty (by rw [hlex])
  rw [hlex] at hempty hfront
  obtain ⟨hend, hinv⟩ :=
    hfront.foldlM_induction Inv hkeeps hempty (by rw [hss]) (by rw [hss, hread])
  exact ⟨o, hend, hinv, hfinish⟩

/-- The branch of a text is printed as the text, and nothing has to be guessed for that. -/
theorem outlineText_eq_ok {locate : Nat → Position} {css : String} {b : Draft}
    (h : outlineText locate css = .ok b) :
    b.Every Detail.Captured ∧ b.label.kind = .root ∧ Draft.text false b = css := by
  obtain ⟨o, ho, -, hfinish⟩ :=
    outlineText_induction (fun _ _ => True) h trivial fun _ _ _ _ => trivial
  obtain ⟨hcaptured, hroot, htext, -⟩ := Outline.finish_eq_ok locate ho.proper hfinish
  exact ⟨hcaptured, hroot, htext.trans ho.text_eq⟩

/-- Every node of the branch of a text was read where it is printed. -/
theorem outlineText_read {locate : Nat → Position} {css : String} {b : Draft}
    (hlocate : locate 0 = ⟨0, 1, 1⟩) (h : outlineText locate css = .ok b) :
    ∀ p ∈ Draft.places "" false b, p.Read locate := by
  obtain ⟨o, ho, hread, hfinish⟩ := outlineText_induction (fun o _ => o.Read locate) h
    (Outline.read_empty hlocate) fun ho hread hnext hstep =>
      (ho.step_text hnext hstep).2.2.2 hread
  exact (Outline.finish_eq_ok locate ho.proper hfinish).2.2.2 hread

theorem Input.stripBom_eq_self_iff {css : String} :
    (stripBom css).2 = false ↔ css.toList.head? ≠ some '\uFEFF' := by
  rw [stripBom]
  split
  · rename_i cs hcs
    simp [hcs]
  · rename_i hcs
    cases hlist : css.toList with
    | nil => simp
    | cons c cs =>
      have hne : c ≠ '\uFEFF' := by
        rintro rfl
        exact hcs cs hlist
      simpa using hne

theorem Input.stripBom_of_false {css : String} (h : (stripBom css).2 = false) :
    stripBom css = (css, false) := by
  rw [stripBom] at h ⊢
  split
  · rename_i cs hcs
    rw [hcs] at h
    cases h
  · rfl

/-- What an input is made of. -/
theorem create_eq_ok {w w' : Workspace} {css : String} {options : ParseOptions} {input : Input}
    (h : Input.create w css options = (.ok input, w')) :
    ∃ file id map, PreviousMap.load w.toEnvironment (Input.stripBom css).1 options = .ok map ∧
      input = Input.assemble (Input.stripBom css).1 (Input.stripBom css).2 file id map := by
  rw [Input.create] at h
  dsimp only at h
  cases hmap : PreviousMap.load w.toEnvironment (Input.stripBom css).1 options with
  | error e => rw [hmap] at h; cases h
  | ok map =>
    rw [hmap] at h
    cases hfile : options.source.map (Input.resolveFile w.directory) with
    | some file => rw [hfile] at h; cases h; exact ⟨_, _, _, rfl, rfl⟩
    | none => rw [hfile] at h; cases h; exact ⟨_, _, _, rfl, rfl⟩

theorem Input.position_zero {i : Input} (hlines : i.lines = Text.LineIndex.ofText i.css.toList) :
    i.position 0 = ⟨0, 1, 1⟩ := by
  have hfront := Text.LineIndex.position_front [] i.css.toList
  rw [position, place, hlines]
  exact congrArg (fun place => Position.mk 0 place.1 place.2) hfront

/-- A stylesheet that was read is the branch of the text of an input. -/
theorem parse_eq_ofDraft {w : Workspace} {css : String} {options : ParseOptions} {t : Tree}
    (h : (parse w css options).1 = .ok t) :
    ∃ (input : Input) (w' : Workspace) (b : Draft), Input.create w css options = (.ok input, w') ∧
      outlineText input.position input.css = .ok b ∧ t = Tree.ofDraft input b := by
  rw [parse] at h
  rcases hcreate : Input.create w css options with ⟨created, w'⟩
  rw [hcreate] at h
  cases created with
  | error e => cases h
  | ok input =>
    dsimp only at h
    rw [Input.tree] at h
    cases hb : outlineText input.position input.css with
    | error issue => rw [hb] at h; cases h
    | ok b =>
      rw [hb] at h
      cases h
      exact ⟨input, w', b, rfl, hb, rfl⟩

/-- A stylesheet that was read is the branch of its text, without the byte order mark. -/
theorem parse_eq_ok {w : Workspace} {css : String} {options : ParseOptions} {t : Tree}
    (h : (parse w css options).1 = .ok t) :
    ∃ (input : Input) (b : Draft), input.css = (Input.stripBom css).1 ∧
      outlineText input.position input.css = .ok b ∧ t = Tree.ofDraft input b := by
  obtain ⟨input, w', b, hcreate, hb, rfl⟩ := parse_eq_ofDraft h
  obtain ⟨_, _, _, -, hinput⟩ := create_eq_ok hcreate
  exact ⟨input, b, by rw [hinput]; rfl, hb, rfl⟩

/-! ### Printing what was read -/

theorem toList_stripBom (css : String) :
    (Input.stripBom css).1.toList =
      if css.toList.head? = some '\uFEFF' then css.toList.tail else css.toList := by
  rw [Input.stripBom]
  split
  · rename_i cs hcs
    rw [hcs, if_pos List.head?_cons]
    exact String.toList_ofList
  · rename_i hcs
    rw [if_neg]
    intro hhead
    obtain ⟨cs, hcons⟩ := List.head?_eq_some_iff.mp hhead
    exact hcs cs hcons

theorem print_of_parse {w : Workspace} {css : String} {options : ParseOptions} {t : Tree}
    (h : (parse w css options).1 = .ok t) : t.print = (Input.stripBom css).1 := by
  obtain ⟨input, b, hcss, hb, rfl⟩ := parse_eq_ok h
  obtain ⟨hcaptured, -, htext⟩ := outlineText_eq_ok hb
  rw [Tree.print_ofDraft input hcaptured, htext, hcss]

/-- Whatever text could be read is printed again, without the byte order mark it started with. -/
theorem print_parse {w : Workspace} {css : String} {options : ParseOptions} {t : Tree}
    (h : (parse w css options).1 = .ok t) :
    t.print.toList =
      if css.toList.head? = some '\uFEFF' then css.toList.tail else css.toList := by
  rw [print_of_parse h, toList_stripBom]

/-- A byte order mark, comments and white space in odd places, a hack, an unusual mark, free
semicolons, a custom property with a block and an at-rule that the text breaks off. -/
theorem print_parse_oddities :
    ∃ t, (parse {} "\uFEFFa/**/b \x7b*zoom : 1! IMPORTANT;;--x:\x7ba:b\x7d\x7d; @media x " {}).1 =
        .ok t ∧
      t.print.toList =
        "a/**/b \x7b*zoom : 1! IMPORTANT;;--x:\x7ba:b\x7d\x7d; @media x ".toList := by
  have hread : (parse {} "\uFEFFa/**/b \x7b*zoom : 1! IMPORTANT;;--x:\x7ba:b\x7d\x7d; @media x "
      {}).1.isOk = true := by
    decide +kernel
  cases ht : (parse {} "\uFEFFa/**/b \x7b*zoom : 1! IMPORTANT;;--x:\x7ba:b\x7d\x7d; @media x "
      {}).1 with
  | error e => rw [ht] at hread; cases hread
  | ok t => exact ⟨t, rfl, (print_parse ht).trans (by decide +kernel)⟩

end Stylesheet
