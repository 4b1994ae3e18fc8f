import Stylesheet.Proofs.Outline.Effect

/-!
# Where the nodes of a text start

A node starts where the statement starts that makes it, a declaration behind the marks in front of
its property (`Statement.start?`). So the starts of the nodes can be read off the statements, in the
order of the document (`start_of_outlineText`).

Later statements add nodes and close blocks. They move no start.
-/

namespace Stylesheet

/-- Where the node starts. -/
def Detail.position? (d : Detail) : Option Position :=
  d.source.bind Source.start

/-- The byte offset at which the node starts that the statement makes. -/
def Statement.start? : Statement → Option Nat
  | space _ | semicolon _ | close _ => none
  | comment t | block t => some t.start
  | rule head brace => some (head.headD brace).start
  | declaration custom ts =>
    match readDeclaration custom (withoutSemicolon ts) with
    | .ok parts => some parts.first.start
    | .error _ => none
  | atRule name _ _ => some name.start

/-- A statement makes a node when it has a start to give to it. -/
theorem Statement.isSome_start? (s : Statement) : s.start?.isSome = s.made?.isSome := by
  cases s with
  | declaration custom ts =>
    rw [start?, made?, effect]
    cases readDeclaration custom (withoutSemicolon ts) <;> rfl
  | atRule name params ending => cases ending <;> rfl
  | _ => rfl

theorem Statement.length_filterMap_start? (ss : List Statement) :
    (ss.filterMap start?).length = (ss.filterMap made?).length := by
  induction ss with
  | nil => rfl
  | cons s ss ih =>
    have hsome := s.isSome_start?
    rw [List.filterMap_cons, List.filterMap_cons]
    cases hstart : s.start? <;> cases hmade : s.made? <;> rw [hstart, hmade] at hsome <;>
      first | exact ih | exact congrArg (· + 1) ih | cases hsome

namespace Outline

variable {locate : Nat → Position} {o o' : Outline} {s : Statement}

/-- Where the nodes start that were read so far. -/
def starts (o : Outline) : List (Option Position) :=
  (Trunk.listFrames (o.current :: o.parents)).map Detail.position?

theorem starts_addLeaf (o : Outline) (d : Detail) (semicolon : Bool) :
    (o.addLeaf d semicolon).starts = o.starts ++ [d.position?] := by
  rw [starts, starts, ← List.map_singleton, ← List.map_append]
  exact congrArg _ (Trunk.toList_add ⟨o.current, o.parents⟩ (.node d []))

theorem starts_openBlock (o : Outline) (d : Detail) :
    (o.openBlock d).starts = o.starts ++ [d.position?] := by
  have hlist := Trunk.toList_openBlock ⟨o.current, o.parents⟩ { d with block := true }
  refine (congrArg (List.map Detail.position?) hlist).trans ?_
  rw [List.map_append]
  rfl

theorem position?_withStop (d : Detail) (stop : Position) :
    (withStop d stop).position? = d.position? := by
  rw [Detail.position?, Detail.position?, withStop]
  cases d.source <;> rfl

theorem starts_close {t : Token} (h : o.close locate t = .ok o') : o'.starts = o.starts := by
  obtain ⟨parent, parents, hparents, rfl⟩ := exists_of_close h
  -- The block is closed after its own node was completed.
  have hlist := @Trunk.toList_close?
    ⟨{ o.current with detail := withStop o.sealed (stopAt locate t) }, parent :: parents⟩ _ rfl
  refine (congrArg (List.map Detail.position?) hlist).trans ?_
  have hstart := position?_withStop o.sealed (stopAt locate t)
  rw [Trunk.toList, starts, hparents]
  simp only [Trunk.listFrames, List.map_append, List.map_cons]
  rw [hstart]
  rfl

theorem starts_freeSemicolon (o : Outline) (locate : Nat → Position) (t : Token) :
    (o.freeSemicolon locate t).starts = o.starts := by
  rcases freeSemicolon_cases o locate t with heq | ⟨d, kids, more, hkids, -, -, heq⟩
  · rw [heq]
    rfl
  · rw [heq, starts, starts, Trunk.listFrames, Trunk.listFrames, hkids]
    simp only [List.reverse_cons, Branch.listAll_append, Branch.listAll, Branch.toList,
      List.map_append, List.map_cons, position?_withStop]
    rfl

theorem starts_step (h : step locate o s = .ok o') :
    o'.starts = o.starts ++ s.start?.toList.map fun n => some (locate n) := by
  -- A statement adds one start or none; closing and loose semicolons add none.
  cases s with
  | space t =>
    cases h
    exact (List.append_nil _).symm
  | semicolon t =>
    cases h
    exact (starts_freeSemicolon o locate t).trans (List.append_nil _).symm
  | close t => exact (starts_close h).trans (List.append_nil _).symm
  | comment t =>
    cases h
    exact starts_addLeaf o _ _
  | block t =>
    cases h
    exact starts_openBlock o _
  | rule head brace =>
    cases h
    exact starts_openBlock o _
  | declaration custom ts =>
    obtain ⟨parts, d, hparts, rfl, -, -, -, -, -, -, hsource⟩ := declaration_eq_ok rfl h
    rw [starts_addLeaf, Statement.start?, Statement.withoutSemicolon, hparts, Detail.position?,
      hsource]
    rfl
  | atRule name params ending =>
    obtain ⟨d, -, left, -, -, hsource, hcase⟩ := atRule_eq_ok h
    have hstart : [d.position?] = (Statement.atRule name params ending).start?.toList.map
        fun n => some (locate n) := by
      rw [Detail.position?, hsource]
      rfl
    rw [← hstart]
    cases ending with
    | semicolon t =>
      rw [hcase.2]
      exact starts_addLeaf o d true
    | block t =>
      rw [hcase.2]
      exact starts_openBlock o d
    | close t =>
      rw [starts_close hcase.2]
      exact starts_addLeaf o d false
    | textEnd =>
      rw [hcase]
      exact starts_addLeaf o d false

theorem starts_foldlM {ss : List Statement} (h : ss.foldlM (step locate) o = .ok o') :
    o'.starts = o.starts ++ (ss.filterMap Statement.start?).map fun n => some (locate n) := by
  induction ss generalizing o with
  | nil =>
    cases h
    exact (List.append_nil _).symm
  | cons s ss ih =>
    rw [List.foldlM_cons] at h
    obtain ⟨o₁, hstep, h⟩ := Except.bind_eq_ok h
    rw [ih h, starts_step hstep, List.append_assoc, ← List.map_append]
    cases hs : s.start? with
    | none => rw [List.filterMap_cons_none hs]; rfl
    | some n => rw [List.filterMap_cons_some hs]; rfl

end Outline

/-- The nodes of a text start where the statements start that make them. -/
theorem start_of_outlineText {locate : Nat → Position} {css : String} {b : Draft}
    {tokens : List Token} {ss : List Statement} (hlex : lex false css = (tokens, none))
    (hss : statementsFrom none tokens = (ss, none)) (hb : outlineText locate css = .ok b) :
    b.toList.map Detail.position? =
      some ⟨0, 1, 1⟩ :: (ss.filterMap Statement.start?).map fun n => some (locate n) := by
  obtain ⟨o, hread, hfinish⟩ := (outlineText_eq_ok_iff hlex hss).mp hb
  obtain ⟨hparents, rfl⟩ := Outline.finish_eq_ok_iff.mp hfinish
  have hstarts := Outline.starts_foldlM hread
  rw [Branch.toList, List.map_cons, Outline.position?_withStop]
  rw [Outline.starts, hparents, Trunk.listFrames, Trunk.listFrames, List.nil_append,
    List.map_cons] at hstarts
  exact hstarts

end Stylesheet
