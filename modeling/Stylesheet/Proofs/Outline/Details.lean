import Stylesheet.Proofs.Outline.Read
import Stylesheet.Proofs.Text.Position
import Stylesheet.Proofs.Tree.Shape

/-!
# What holds of all nodes that are read

While a text is read, the details of a node are set when its statement is read; later only its end
and formatting around it are added. So a condition on details that this does not break
(`Detail.Recorded`) holds of all nodes in the end, if it does when they are made
(`outlineText_all`). Declarations are the nodes about which most can be said, so they have a
hypothesis of their own.

One such condition is about positions. Whatever the tokens of a text are, the lines and columns that
are recorded for its nodes are those that `locate` gives for some offsets (`outlineText_placed`). In
particular, no line or column of a stylesheet is larger than its text is long (`placed_of_parse`).
-/

namespace Stylesheet

/-- A condition on details that holds of all nodes but declarations, and outlives what is added to
the details of a node after they were made. -/
structure Detail.Recorded (locate : Nat → Position) (Q : Detail → Prop) : Prop where
  /-- The end of a node is found, and formatting that is not between its parts. -/
  stop {d : Detail} (h : Q d) (raws : Raws) (hbetween : raws.between = d.raws.between)
    (offset n : Nat) : Q (Outline.withStop { d with raws } { locate offset with offset := n })
  other {d : Detail} (hkind : d.kind ≠ .declaration) {start : Nat} {last : Option Token}
    (hsource : d.source = some ⟨0, some (locate start), last.map (Outline.stopAt locate)⟩) : Q d

namespace Outline

variable {Q : Detail → Prop} {locate : Nat → Position} {o o' : Outline}

/-- A condition holds of all nodes of the outline. -/
def All (Q : Detail → Prop) (o : Outline) : Prop :=
  ∀ f ∈ o.current :: o.parents, Q f.detail ∧ ∀ d ∈ Branch.listAll f.kids, Q d

namespace All

theorem add (h : o.All Q) {b : Draft} (hb : ∀ d ∈ b.toList, Q d) (semicolon : Bool) :
    (o.add b semicolon).All Q := by
  obtain ⟨hcurrent, hparents⟩ := List.forall_mem_cons.mp h
  refine List.forall_mem_cons.mpr ⟨⟨hcurrent.1, ?_⟩, hparents⟩
  exact List.forall_mem_append.mpr ⟨hb, hcurrent.2⟩

theorem addLeaf (h : o.All Q) {d : Detail} (hd : Q d) (semicolon : Bool) :
    (o.addLeaf d semicolon).All Q :=
  h.add (b := .node d []) (List.forall_mem_singleton.mpr hd) semicolon

theorem openBlock (h : o.All Q) {d : Detail} (hd : Q { d with block := true }) :
    (o.openBlock d).All Q :=
  List.forall_mem_cons.mpr ⟨⟨hd, fun _ hd => absurd hd List.not_mem_nil⟩, h⟩

variable (hQ : Detail.Recorded locate Q)

include hQ

/-- The current block as a branch. -/
theorem toList_sealed (h : o.All Q) (offset n : Nat) :
    ∀ d ∈ (Branch.node (withStop o.sealed { locate offset with offset := n })
      o.current.kids.reverse : Draft).toList, Q d := by
  obtain ⟨hd, hkids⟩ := h o.current List.mem_cons_self
  refine List.forall_mem_cons.mpr ⟨hQ.stop hd o.sealed.raws rfl offset n, fun d hd => ?_⟩
  obtain ⟨b, hb, hd⟩ := Branch.mem_listAll.mp hd
  exact hkids d (Branch.mem_listAll.mpr ⟨b, List.mem_reverse.mp hb, hd⟩)

theorem close (h : o.All Q) {t : Token} (hclose : o.close locate t = .ok o') : o'.All Q := by
  have hblock := h.toList_sealed hQ t.last t.stop
  obtain ⟨parent, parents, hp, rfl⟩ := exists_of_close hclose
  have hparents := (List.forall_mem_cons.mp h).2
  rw [hp, List.forall_mem_cons] at hparents
  refine List.forall_mem_cons.mpr ⟨⟨hparents.1.1, ?_⟩, hparents.2⟩
  exact List.forall_mem_append.mpr ⟨hblock, hparents.1.2⟩

theorem freeSemicolon (h : o.All Q) (t : Token) : (o.freeSemicolon locate t).All Q := by
  rcases freeSemicolon_cases o locate t with heq | ⟨d, kids, more, hkids, -, -, heq⟩
  · rw [heq]
    exact h
  · rw [heq]
    obtain ⟨⟨hcurrent, hlist⟩, hparents⟩ := List.forall_mem_cons.mp h
    rw [hkids] at hlist
    obtain ⟨hbranch, hmore⟩ := List.forall_mem_append.mp hlist
    obtain ⟨hd, hbelow⟩ := List.forall_mem_cons.mp hbranch
    refine List.forall_mem_cons.mpr ⟨⟨hcurrent, ?_⟩, hparents⟩
    refine List.forall_mem_append.mpr ⟨List.forall_mem_cons.mpr ⟨?_, hbelow⟩, hmore⟩
    exact hQ.stop hd { d.raws with ownSemicolon := some (o.spaces ++ t.text) } rfl t.start _

/-- One statement, when what is said of a declaration holds. -/
theorem step (h : o.All Q) {s : Statement}
    (hdeclaration : ∀ custom ts, s = .declaration custom ts →
      o.declaration locate custom ts = .ok o' → ∃ d closed, o' = o.addLeaf d closed ∧ Q d)
    (hstep : step locate o s = .ok o') : o'.All Q := by
  have hother : ∀ {d : Detail} {start : Nat} {last : Option Token}, d.kind ≠ .declaration →
      d.source = some ⟨0, some (locate start), last.map (stopAt locate)⟩ → Q d :=
    fun hkind => hQ.other hkind
  -- Every node that a statement adds is covered by the hypothesis about its kind.
  cases s with
  | space t =>
    cases hstep
    exact h
  | semicolon t =>
    cases hstep
    exact h.freeSemicolon hQ t
  | close t => exact h.close hQ hstep
  | comment t =>
    cases hstep
    exact h.addLeaf (@hother (o.commentDetail locate t) _ (some t) nofun rfl) _
  | block t =>
    cases hstep
    exact h.openBlock (@hother _ _ none nofun rfl)
  | rule head brace =>
    cases hstep
    exact h.openBlock (@hother { o.ruleDetail locate head brace with block := true } _ none nofun
      rfl)
  | declaration custom ts =>
    obtain ⟨d, closed, rfl, hd⟩ := hdeclaration custom ts rfl hstep
    exact h.addLeaf hd closed
  | atRule name params ending =>
    obtain ⟨d, _, left, hread, -, hd, hcase⟩ := atRule_eq_ok hstep
    have hkind : d.kind ≠ .declaration := by rw [hread.kind]; decide
    cases ending with
    | semicolon t =>
      rw [hcase.2]
      exact h.addLeaf (hother hkind hd) true
    | block t =>
      rw [hcase.2]
      exact h.openBlock (@hother { d with block := true } _ _ hkind hd)
    | close t => exact (h.addLeaf (hother hkind hd) false).close hQ hcase.2
    | textEnd =>
      rw [hcase]
      exact h.addLeaf (hother hkind hd) false

theorem foldlM {ss : List Statement} (h : o.All Q)
    (hdeclaration : ∀ custom ts, .declaration custom ts ∈ ss → ∀ o o' : Outline,
      o.declaration locate custom ts = .ok o' → ∃ d closed, o' = o.addLeaf d closed ∧ Q d)
    (hread : ss.foldlM (Outline.step locate) o = .ok o') : o'.All Q := by
  induction ss generalizing o with
  | nil =>
    cases hread
    exact h
  | cons s ss ih =>
    rw [List.foldlM_cons] at hread
    obtain ⟨o₁, hstep, hread⟩ := Except.bind_eq_ok hread
    refine ih (h.step hQ (fun custom ts hs => ?_) hstep) (fun custom ts hs => ?_) hread
    · exact hdeclaration custom ts (hs ▸ List.mem_cons_self) o o₁
    · exact hdeclaration custom ts (List.mem_cons_of_mem _ hs)

end All

end Outline

/-- A condition on all nodes that are read from a text. -/
theorem outlineText_all {Q : Detail → Prop} {locate : Nat → Position} {css : String} {b : Draft}
    (hQ : Detail.Recorded locate Q) (hroot : Q Outline.empty.current.detail)
    (hdeclaration : ∀ custom ts,
      .declaration custom ts ∈ (statementsFrom (lex false css).2 (lex false css).1).1 →
      ∀ o o' : Outline, o.declaration locate custom ts = .ok o' →
        ∃ d closed, o' = o.addLeaf d closed ∧ Q d)
    (h : outlineText locate css = .ok b) : ∀ d ∈ b.toList, Q d := by
  have hempty : Outline.empty.All Q :=
    List.forall_mem_singleton.mpr ⟨hroot, fun _ hd => absurd hd List.not_mem_nil⟩
  obtain ⟨tokens, ss, hlex, hss⟩ := lex_of_outlineText h
  obtain ⟨o, hread, hfinish⟩ := (outlineText_eq_ok_iff hlex hss).mp h
  obtain ⟨-, rfl⟩ := Outline.finish_eq_ok_iff.mp hfinish
  rw [hlex, hss] at hdeclaration
  exact (hempty.foldlM hQ hdeclaration hread).toList_sealed hQ css.utf8ByteSize _

/-! ### Positions -/

/-- The recorded positions have a property. -/
def Detail.Placed (P : Position → Prop) (d : Detail) : Prop :=
  ∀ s ∈ d.source, (∀ p ∈ s.start, P p) ∧ ∀ p ∈ s.stop, P p

theorem Detail.Placed.mono {P Q : Position → Prop} {d : Detail} (h : d.Placed P)
    (hpq : ∀ p, P p → Q p) : d.Placed Q :=
  fun s hs => ⟨fun p hp => hpq p ((h s hs).1 p hp), fun p hp => hpq p ((h s hs).2 p hp)⟩

theorem Detail.placed_withStop {P : Position → Prop} {d : Detail} (hd : d.Placed P)
    {stop : Position} (hstop : P stop) : (Outline.withStop d stop).Placed P := by
  intro s hs
  obtain ⟨s', hs', rfl⟩ := Option.map_eq_some_iff.mp hs
  refine ⟨(hd s' hs').1, ?_⟩
  rintro _ ⟨⟩
  exact hstop

/-- The place of a node, with or without a token that ends it. -/
theorem Detail.placed_of_source {P : Position → Prop} {locate : Nat → Position}
    (hlocate : ∀ offset n, P { locate offset with offset := n }) {d : Detail} {start : Nat}
    {last : Option Token}
    (hsource : d.source = some ⟨0, some (locate start), last.map (Outline.stopAt locate)⟩) :
    d.Placed P := by
  intro s hs
  rw [hsource] at hs
  cases hs
  refine ⟨?_, fun p hp => ?_⟩
  · rintro _ ⟨⟩
    exact hlocate start (locate start).offset
  · obtain ⟨t, -, rfl⟩ := Option.map_eq_some_iff.mp hp
    exact hlocate t.last t.stop

/-- What holds of the positions that `locate` gives holds of all that are recorded. -/
theorem outlineText_placed {P : Position → Prop} {locate : Nat → Position} {css : String}
    {b : Draft} (hzero : P ⟨0, 1, 1⟩) (hlocate : ∀ offset n, P { locate offset with offset := n })
    (h : outlineText locate css = .ok b) : ∀ d ∈ b.toList, d.Placed P := by
  have hrecorded : Detail.Recorded locate (Detail.Placed P) :=
    ⟨fun hd _ _ offset n => Detail.placed_withStop hd (hlocate offset n),
      fun _ _ _ hsource => Detail.placed_of_source hlocate hsource⟩
  refine outlineText_all hrecorded ?_ (fun custom ts _ o o' hread => ?_) h
  · rintro _ ⟨⟩
    refine ⟨?_, nofun⟩
    rintro _ ⟨⟩
    exact hzero
  · obtain ⟨parts, d, -, rfl, -, -, -, -, -, -, hd⟩ := Outline.declaration_eq_ok rfl hread
    exact ⟨d, _, rfl, Detail.placed_of_source hlocate hd⟩

theorem Input.stripBom_le (css : String) : (stripBom css).1.utf8ByteSize ≤ css.utf8ByteSize := by
  rw [stripBom]
  split
  · rename_i cs hcs
    rw [Text.utf8ByteSize_ofList, Text.utf8ByteSize_eq_bytes, hcs, Text.bytes_cons]
    exact Nat.le_add_left _ _
  · exact Nat.le_refl _

/-- No line or column is larger than the text is long. -/
theorem Input.position_le {i : Input} (h : i.lines = Text.LineIndex.ofText i.css.toList)
    (offset : Nat) : (i.position offset).line ≤ i.css.utf8ByteSize + 1 ∧
      (i.position offset).column ≤ i.css.utf8ByteSize + 1 := by
  rw [Text.utf8ByteSize_eq_bytes, position, place, h]
  exact Text.LineIndex.position_le i.css.toList offset

theorem placed_of_parse {w : Workspace} {css : String} {options : ParseOptions} {t : Tree}
    (h : (parse w css options).1 = .ok t) {x : NodeId} {n : Node} (hn : t.get? x = some n) :
    n.detail.Placed fun p => p.line ≤ css.utf8ByteSize + 1 ∧ p.column ≤ css.utf8ByteSize + 1 := by
  obtain ⟨input, w', b, hcreate, hb, rfl⟩ := parse_eq_ofDraft h
  obtain ⟨hlines, hcss⟩ : input.lines = Text.LineIndex.ofText input.css.toList ∧
      input.css = (Input.stripBom css).1 := by
    obtain ⟨_, _, _, -, rfl⟩ := create_eq_ok hcreate
    exact ⟨rfl, rfl⟩
  refine outlineText_placed ?_ (fun offset _ => ?_) hb _
    (Tree.detail_mem_of_mem_layout (Tree.mem_layout_of_get? hn))
  · exact ⟨Nat.le_add_left 1 _, Nat.le_add_left 1 _⟩
  · have hle : input.css.utf8ByteSize + 1 ≤ css.utf8ByteSize + 1 := by
      rw [hcss]
      exact Nat.succ_le_succ (Input.stripBom_le css)
    obtain ⟨hline, hcolumn⟩ := Input.position_le hlines offset
    exact ⟨hline.trans hle, hcolumn.trans hle⟩

end Stylesheet
