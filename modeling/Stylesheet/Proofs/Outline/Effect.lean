import Stylesheet.Proofs.Chain.Outline
import Stylesheet.Proofs.Tree.Shape

/-!
# What a statement does to an outline

Apart from formatting around nodes and from positions, a statement does the same to every outline:
it adds a node, opens a block, closes one, or does nothing (`Statement.effect`). The effects build
the blocks that are open (`Trunk`), and the reader, when formatting and positions are forgotten,
does what they say (`Outline.trunk_step`).

* `outlineText_trunk`: what is read of a text is what the effects build.
* `isOk_outlineText_iff`: a text can be read when each statement has an effect and each block that
  is opened is closed, and no other.
* `toList_of_outlineText`: the nodes that are read are those that the statements make, in their
  order. The nodes of a stylesheet are numbered in this order (`core_of_parse`).
-/

namespace Stylesheet

/-- A node without its place and without the formatting that the nodes around it have a part in. -/
def Detail.core (d : Detail) : Detail :=
  { d with
    raws := { d.raws with before := none, after := none, semicolon := none, ownSemicolon := none }
    source := none }

/-! ### Open blocks -/

/-- Blocks that are open, one inside the other. -/
structure Trunk where
  current : Frame
  /-- The blocks around the current one, the nearest first. -/
  parents : List Frame := []

namespace Trunk

/-- One more node in the current block. -/
def add (k : Trunk) (b : Draft) : Trunk :=
  { k with current := { k.current with kids := b :: k.current.kids } }

/-- A block that opens. -/
def openBlock (k : Trunk) (d : Detail) : Trunk :=
  { current := { detail := d }, parents := k.current :: k.parents }

/-- The current block as a node of the block around it. -/
def close? (k : Trunk) : Option Trunk :=
  match k.parents with
  | [] => none
  | parent :: parents =>
    some { current := { parent with kids := .node k.current.detail k.current.kids.reverse ::
      parent.kids }, parents }

/-- The whole branch, when no block but the outermost is open. -/
def finish? (k : Trunk) : Option Draft :=
  match k.parents with
  | [] => some (.node k.current.detail k.current.kids.reverse)
  | _ :: _ => none

end Trunk

/-! ### Effects -/

/-- What a statement does. -/
inductive Effect
  | nothing
  | leaf (d : Detail)
  | opens (d : Detail)
  | closes
  /-- Adds a node to the current block and closes the block. -/
  | last (d : Detail)

namespace Effect

/-- Does to blocks what the effect says. -/
def apply (k : Trunk) : Effect → Option Trunk
  | nothing => some k
  | leaf d => some (k.add (.node d []))
  | opens d => some (k.openBlock d)
  | closes => k.close?
  | last d => (k.add (.node d [])).close?

/-- The node that is made. -/
def made? : Effect → Option Detail
  | nothing => none
  | leaf d => some d
  | opens d => some d
  | closes => none
  | last d => some d

end Effect

namespace Statement

/-- What is known of an at-rule by its tokens. -/
def atRuleCore (name : Token) (params : List Token) (ending : AtRuleEnd) : Detail :=
  let (kept, gaps) := cutGaps params
  let (text, raw) := cleanField false (kept.dropWhile Token.isGap)
  { content := .atRule (String.ofList (name.text.toList.drop 1)) text
    raws := {
      between := some (if ending == .textEnd && !kept.isEmpty then "" else Token.join gaps)
      afterName := some (Token.join (kept.takeWhile Token.isGap))
      params := raw } }

/-- What is known of a declaration by its parts. -/
def declarationCore (parts : DeclarationParts) : Detail :=
  { content := .declaration parts.prop parts.value parts.important
    raws := {
      between := some parts.between
      important := parts.rawImportant
      value := parts.rawValue } }

/-- The tokens of a declaration without the semicolon that ends it. -/
def withoutSemicolon (ts : List Token) : List Token :=
  if ts.getLast?.any (fun t => t.kind == .semicolon) then ts.dropLast else ts

/-- What the statement does to any outline. A declaration that cannot be read does nothing. -/
def effect : Statement → Option Effect
  | space _ | semicolon _ => some .nothing
  | close _ => some .closes
  | comment t => some (.leaf (Outline.empty.commentDetail (fun _ => default) t).core)
  | block _ => some (.opens { content := .rule "", raws := { between := some "" } })
  | rule head brace =>
    some (.opens (Outline.empty.ruleDetail (fun _ => default) head brace).core)
  | declaration custom ts =>
    match readDeclaration custom (withoutSemicolon ts) with
    | .ok parts => some (.leaf (declarationCore parts))
    | .error _ => none
  | atRule name params ending =>
    let d := atRuleCore name params ending
    match ending with
    | .semicolon _ | .textEnd => some (.leaf d)
    | .block _ => some (.opens { d with block := true })
    | .close _ => some (.last d)

/-- The node that the statement makes. -/
def made? (s : Statement) : Option Detail :=
  s.effect.bind Effect.made?

end Statement

/-! ### The reader -/

/-- The block, with the cores of its nodes. -/
def Frame.core (f : Frame) : Frame :=
  { detail := f.detail.core, kids := f.kids.map (Branch.map Detail.core) }

namespace Outline

/-- The blocks that are open, with the cores of their nodes. -/
def trunk (o : Outline) : Trunk :=
  { current := o.current.core, parents := o.parents.map Frame.core }

variable {locate : Nat → Position} {o o' : Outline}

theorem trunk_close (o : Outline) (locate : Nat → Position) (t : Token) :
    (o.close locate t).toOption.map trunk = o.trunk.close? := by
  rw [close, Trunk.close?, trunk]
  cases hparents : o.parents with
  | nil => rfl
  | cons parent parents =>
    have hbranch : Branch.map Detail.core
        (.node (withStop o.sealed (stopAt locate t)) o.current.kids.reverse) =
          .node o.current.core.detail o.current.core.kids.reverse := by
      rw [Branch.map, Branch.mapAll_eq, List.map_reverse]
      rfl
    show some _ = some _
    rw [trunk, Frame.core, List.map_cons, hbranch]
    rfl

theorem trunk_freeSemicolon (o : Outline) (locate : Nat → Position) (t : Token) :
    (o.freeSemicolon locate t).trunk = o.trunk := by
  rcases freeSemicolon_cases o locate t with heq | ⟨d, kids, more, hkids, -, -, heq⟩
  · rw [heq]
    rfl
  · rw [heq, trunk, trunk, Frame.core, Frame.core, hkids]
    rfl

theorem trunk_declaration (o : Outline) (locate : Nat → Position) (custom : Bool)
    (ts : List Token) :
    (o.declaration locate custom ts).toOption.map trunk =
      (Statement.declaration custom ts).effect.bind (·.apply o.trunk) := by
  rw [Statement.effect, declaration]
  dsimp only
  rw [← Statement.withoutSemicolon]
  cases readDeclaration custom (Statement.withoutSemicolon ts) with
  | error issue => rfl
  | ok parts =>
    -- The end of the declaration is no part of its core.
    cases (if ts.getLast?.any (fun t => t.kind == .semicolon) then ts.getLast?
      else (ts.reverse.dropWhile fun t => t.kind == .space).head?) with
    | none => rfl
    | some t => rfl

theorem trunk_atRule (o : Outline) (locate : Nat → Position) (name : Token)
    (params : List Token) (ending : AtRuleEnd) :
    (o.atRule locate name params ending).toOption.map trunk =
      (Statement.atRule name params ending).effect.bind (·.apply o.trunk) := by
  cases ending with
  | semicolon t => rfl
  | block t => rfl
  | close t =>
    rw [atRule]
    dsimp only
    cases (params.reverse.dropWhile fun t => t.kind == .space).head? with
    | none => exact trunk_close _ locate t
    | some p => exact trunk_close _ locate t
  | textEnd =>
    rw [atRule]
    dsimp only
    cases (cutGaps params).1.getLast? with
    | none => rfl
    | some p => rfl

/-- When formatting and positions are forgotten, a step of the reader is the effect of its
statement. -/
theorem trunk_step (locate : Nat → Position) (o : Outline) (s : Statement) :
    (step locate o s).toOption.map trunk = s.effect.bind (·.apply o.trunk) := by
  cases s with
  | space t => rfl
  | semicolon t => exact congrArg some (trunk_freeSemicolon o locate t)
  | close t => exact trunk_close o locate t
  | comment t => rfl
  | block t => rfl
  | rule head brace => rfl
  | declaration custom ts => exact trunk_declaration o locate custom ts
  | atRule name params ending => exact trunk_atRule o locate name params ending

end Outline

namespace Trunk

/-- Does what the statements do. -/
def run (k : Trunk) (ss : List Statement) : Option Trunk :=
  ss.foldlM (fun k s => s.effect.bind (·.apply k)) k

end Trunk

namespace Outline

theorem trunk_foldlM (locate : Nat → Position) (o : Outline) (ss : List Statement) :
    (ss.foldlM (step locate) o).toOption.map trunk = o.trunk.run ss := by
  induction ss generalizing o with
  | nil => rfl
  | cons s ss ih =>
    rw [Trunk.run, List.foldlM_cons, List.foldlM_cons, ← trunk_step locate]
    cases step locate o s with
    | error issue => rfl
    | ok o' => exact ih o'

theorem trunk_finish (o : Outline) (stop : Position) :
    (o.finish stop).toOption.map (Branch.map Detail.core) = o.trunk.finish? := by
  rw [finish, Trunk.finish?, trunk]
  cases o.parents with
  | nil =>
    show some (Branch.map _ _) = some _
    rw [Branch.map, Branch.mapAll_eq, List.map_reverse]
    rfl
  | cons parent parents => rfl

end Outline

/-! ### Whole texts -/

/-- Before anything is read. -/
def Trunk.empty : Trunk where
  current.detail := { content := .root }

/-- What is read of a text, when formatting and positions are forgotten, is what its statements
do. -/
theorem outlineText_trunk {locate : Nat → Position} {css : String} {tokens : List Token}
    {ss : List Statement} (hlex : lex false css = (tokens, none))
    (hss : statementsFrom none tokens = (ss, none)) :
    (outlineText locate css).toOption.map (Branch.map Detail.core) =
      (Trunk.empty.run ss).bind Trunk.finish? := by
  have hrun : (ss.foldlM (Outline.step locate) .empty).toOption.map Outline.trunk =
      Trunk.empty.run ss := Outline.trunk_foldlM locate .empty ss
  rw [outlineText, hlex, ← hrun]
  dsimp only
  rw [hss]
  cases ss.foldlM (Outline.step locate) .empty with
  | error issue => rfl
  | ok o => exact o.trunk_finish _

/-! ### Levels -/

namespace Effect

/-- How many blocks are open then, when `n` were open inside the outermost one. -/
def level? (n : Nat) : Effect → Option Nat
  | nothing | leaf _ => some n
  | opens _ => some (n + 1)
  | closes | last _ =>
    match n with
    | 0 => none
    | n + 1 => some n

theorem map_length_apply (e : Effect) (k : Trunk) :
    (e.apply k).map (·.parents.length) = e.level? k.parents.length := by
  obtain ⟨current, parents⟩ := k
  cases e with
  | nothing | leaf _ | opens _ => rfl
  | closes | last _ => cases parents <;> rfl

end Effect

/-- How many blocks are open behind the statement, when `n` are open in front of it. -/
def Statement.level? (n : Nat) (s : Statement) : Option Nat :=
  s.effect.bind (·.level? n)

theorem Trunk.map_length_run (k : Trunk) (ss : List Statement) :
    (k.run ss).map (·.parents.length) = ss.foldlM Statement.level? k.parents.length := by
  induction ss generalizing k with
  | nil => rfl
  | cons s ss ih =>
    rw [run, List.foldlM_cons, List.foldlM_cons, Statement.level?]
    cases s.effect with
    | none => rfl
    | some e =>
      have happly := e.map_length_apply k
      rw [Option.bind_some, Option.bind_some, ← happly]
      cases e.apply k with
      | none => rfl
      | some k' => exact ih k'

/-- A text can be read when each statement has an effect and each block that is opened is closed,
and no other. -/
theorem isOk_outlineText_iff {locate : Nat → Position} {css : String} {tokens : List Token}
    {ss : List Statement} (hlex : lex false css = (tokens, none))
    (hss : statementsFrom none tokens = (ss, none)) :
    (∃ b, outlineText locate css = .ok b) ↔ ss.foldlM Statement.level? 0 = some 0 := by
  have htrunk := @outlineText_trunk locate _ _ _ hlex hss
  have hlevel : (Trunk.empty.run ss).map (·.parents.length) = ss.foldlM Statement.level? 0 :=
    Trunk.map_length_run Trunk.empty ss
  -- A reading fails at a brace that closes nothing, or at the end when a block is open: both are
  -- seen by the depth alone.
  have hfinish : ∀ k : Trunk, k.finish?.isSome = true ↔ k.parents.length = 0 := by
    intro k
    rw [Trunk.finish?]
    cases k.parents <;> simp
  rw [← hlevel]
  cases houtline : outlineText locate css with
  | error issue =>
    rw [houtline] at htrunk
    refine iff_of_false (fun ⟨b, hb⟩ => by cases hb) fun hlength => ?_
    obtain ⟨k, hk, hzero⟩ := Option.map_eq_some_iff.mp hlength
    rw [hk] at htrunk
    have hsome := (hfinish k).mpr hzero
    rw [show k.finish? = none from htrunk.symm] at hsome
    cases hsome
  | ok b =>
    rw [houtline] at htrunk
    obtain ⟨k, hk, hfinished⟩ := Option.bind_eq_some_iff.mp htrunk.symm
    refine iff_of_true ⟨b, rfl⟩ (Option.map_eq_some_iff.mpr ⟨k, hk, (hfinish k).mp ?_⟩)
    rw [hfinished]
    rfl

/-! ### Nodes in their order -/

namespace Branch

theorem listAll_append (as bs : List (Branch α)) :
    listAll (as ++ bs) = listAll as ++ listAll bs := by
  induction as with
  | nil => rfl
  | cons a as ih => rw [List.cons_append, listAll, listAll, ih, List.append_assoc]

end Branch

namespace Trunk

/-- The nodes of the blocks, from the innermost to the outermost block, each block before what is
in it. -/
def listFrames : List Frame → List Detail
  | [] => []
  | f :: fs => listFrames fs ++ f.detail :: Branch.listAll f.kids.reverse

/-- The nodes, in the order in which they were made. -/
def toList (k : Trunk) : List Detail :=
  listFrames (k.current :: k.parents)

variable {k k' : Trunk}

theorem toList_add (k : Trunk) (b : Draft) : (k.add b).toList = k.toList ++ b.toList := by
  rw [toList, toList, add, listFrames, listFrames, List.reverse_cons, Branch.listAll_append,
    Branch.listAll, Branch.listAll, List.append_nil, ← List.cons_append, ← List.append_assoc]

theorem toList_openBlock (k : Trunk) (d : Detail) : (k.openBlock d).toList = k.toList ++ [d] :=
  rfl

theorem toList_close? (h : k.close? = some k') : k'.toList = k.toList := by
  rw [close?] at h
  cases hparents : k.parents with
  | nil => rw [hparents] at h; cases h
  | cons parent parents =>
    rw [hparents] at h
    cases h
    rw [toList, toList, hparents, listFrames, listFrames, listFrames, List.reverse_cons,
      Branch.listAll_append, Branch.listAll, Branch.listAll, List.append_nil, Branch.toList,
      ← List.cons_append, ← List.append_assoc]

theorem toList_apply {e : Effect} (h : e.apply k = some k') :
    k'.toList = k.toList ++ e.made?.toList := by
  cases e with
  | nothing =>
    cases h
    exact (List.append_nil _).symm
  | leaf d =>
    cases h
    exact toList_add k _
  | opens d =>
    cases h
    exact toList_openBlock k d
  | closes =>
    rw [toList_close? h]
    exact (List.append_nil _).symm
  | last d =>
    rw [toList_close? h]
    exact toList_add k _

theorem toList_run {ss : List Statement} (h : k.run ss = some k') :
    k'.toList = k.toList ++ ss.filterMap Statement.made? := by
  induction ss generalizing k with
  | nil =>
    cases h
    exact (List.append_nil _).symm
  | cons s ss ih =>
    rw [run, List.foldlM_cons] at h
    obtain ⟨k₁, hstep, hrun⟩ := Option.bind_eq_some_iff.mp h
    obtain ⟨e, he, happly⟩ := Option.bind_eq_some_iff.mp hstep
    have hmade : s.made? = e.made? := by rw [Statement.made?, he]; rfl
    rw [ih hrun, toList_apply happly, List.append_assoc, ← hmade]
    cases hs : s.made? with
    | none => rw [List.filterMap_cons_none hs]; rfl
    | some d => rw [List.filterMap_cons_some hs]; rfl

theorem toList_finish? {b : Draft} (h : k.finish? = some b) : b.toList = k.toList := by
  rw [finish?] at h
  cases hparents : k.parents with
  | cons parent parents => rw [hparents] at h; cases h
  | nil =>
    rw [hparents] at h
    cases h
    rw [toList, hparents, Branch.toList, listFrames, listFrames, List.nil_append]

end Trunk

/-- The nodes of a text, in the order of the document: the root, and one for each statement that
makes a node. -/
theorem toList_of_outlineText {locate : Nat → Position} {css : String} {b : Draft}
    {tokens : List Token} {ss : List Statement} (hlex : lex false css = (tokens, none))
    (hss : statementsFrom none tokens = (ss, none)) (hb : outlineText locate css = .ok b) :
    b.toList.map Detail.core = { content := .root } :: ss.filterMap Statement.made? := by
  have htrunk := @outlineText_trunk locate _ _ _ hlex hss
  rw [hb] at htrunk
  obtain ⟨k, hrun, hfinish⟩ := Option.bind_eq_some_iff.mp htrunk.symm
  rw [← Branch.toList_map, Trunk.toList_finish? hfinish, Trunk.toList_run hrun]
  rfl

theorem Tree.map_detail_ofDraft (input : Input) (b : Draft) (x : NodeId) :
    ((ofDraft input b).get? x).map Node.detail = b.toList[x.index]? := by
  show (layout 0 none b).toArray[x.index]?.map Node.detail = _
  rw [List.getElem?_toArray, ← List.getElem?_map, map_detail_layout]

/-- The nodes of a stylesheet are numbered in the order in which its statements make them. -/
theorem core_of_parse {w : Workspace} {css : String} {options : ParseOptions} {t : Tree}
    (h : (parse w css options).1 = .ok t) :
    ∃ tokens ss, lex false (Input.stripBom css).1 = (tokens, none) ∧
      statementsFrom none tokens = (ss, none) ∧
      ∀ x : NodeId, (t.get? x).map (·.detail.core) =
        ({ content := .root } :: ss.filterMap Statement.made?)[x.index]? := by
  obtain ⟨input, b, hcss, hb, rfl⟩ := parse_eq_ok h
  rw [← hcss]
  obtain ⟨tokens, ss, hlex, hss⟩ := lex_of_outlineText hb
  refine ⟨tokens, ss, hlex, hss, fun x => ?_⟩
  rw [← toList_of_outlineText hlex hss hb, List.getElem?_map, ← Tree.map_detail_ofDraft input,
    Option.map_map]
  rfl

/-- A stylesheet is read when its statements open and close blocks as they should, and its nodes are
those that they make. -/
theorem exists_parse_of_statements {w w' : Workspace} {css : String} {options : ParseOptions}
    {input : Input} (hinput : Input.create w css options = (.ok input, w')) {tokens : List Token}
    {ss : List Statement} (hlex : lex false input.css = (tokens, none))
    (hss : statementsFrom none tokens = (ss, none))
    (hlevels : ss.foldlM Statement.level? 0 = some 0) :
    ∃ t, (parse w css options).1 = .ok t ∧ ∀ x : NodeId, (t.get? x).map (·.detail.core) =
      ({ content := .root } :: ss.filterMap Statement.made?)[x.index]? := by
  obtain ⟨b, hb⟩ := (@isOk_outlineText_iff input.position _ _ _ hlex hss).mpr hlevels
  have hparse : (parse w css options).1 = .ok (Tree.ofDraft input b) := by
    rw [parse, hinput]
    dsimp only
    rw [Input.tree, hb]
  refine ⟨_, hparse, ?_⟩
  obtain ⟨_, _, _, -, hcss⟩ := create_eq_ok hinput
  obtain ⟨tokens', ss', hlex', hss', hcore⟩ := core_of_parse hparse
  rw [show (Input.stripBom css).1 = input.css by rw [hcss]; rfl, hlex] at hlex'
  obtain ⟨rfl, -⟩ := Prod.mk.inj hlex'
  obtain ⟨rfl, -⟩ := Prod.mk.inj (hss.symm.trans hss')
  exact hcore

end Stylesheet
