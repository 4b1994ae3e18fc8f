import Stylesheet.Proofs.Draft.Print
import Stylesheet.Proofs.Print.Remembered
import Stylesheet.Proofs.Usual.Statements

/-!
# Printing without captured formatting

A tree in which no node has captured formatting (`Tree.Bare`) shows no trait of a style, so that
every slot gets its usual text. What the printer notes on its way is usual too (`Notes.Usual`), and
`Gives` says what an action results in as long as that holds. The tree prints as the forms of what
its nodes say.

* `Tree.Bare.print_eq`: the text of a bare tree.
-/

namespace Stylesheet

open Text Form

/-- The node is plain and has nothing captured, and it has a block if its kind can have one. -/
structure Detail.Bare (d : Detail) : Prop where
  raws : d.raws = {}
  block : d.block = d.kind.canOwn
  plain : d.kind ≠ .root → d.content.Plain

namespace Tree

variable {t : Tree} {x p : NodeId} {n : Node}

/-- No node has captured formatting, and all are plain. -/
def Bare (t : Tree) : Prop :=
  ∀ id n, t.get? id = some n → n.detail.Bare

/-! ### Nothing shows a trait -/

theorem findBelow?_eq_none {f : NodeId → Node → Option α}
    (hf : ∀ id n, t.get? id = some n → f id n = none) (top : NodeId) :
    t.findBelow? top f = none := by
  rw [findBelow?, List.findSome?_eq_none_iff]
  intro id _
  cases hn : t.get? id with
  | none => rfl
  | some n => exact hf id n hn

theorem Bare.raws (h : t.Bare) (hn : t.get? x = some n) : n.raws = {} :=
  (h x n hn).raws

theorem Bare.sample? (h : t.Bare) (top : NodeId) (trait : Trait) : t.sample? top trait = none := by
  -- No node has raws, so no search finds a sample. Indentation is searched for in its own way.
  cases trait with
  | indent =>
    have hindent : (t.get? top).bind (·.raws.indent) = none := by
      cases hn : t.get? top with
      | none => rfl
      | some n => rw [Option.bind_some, h.raws hn]
    rw [Tree.sample?, sampleIndent?, hindent]
    refine findBelow?_eq_none (fun id n hn => ?_) top
    rw [h.raws hn]
    split
    · rfl
    · exact ite_self _
  | _ =>
    refine findBelow?_eq_none (fun id n hn => ?_) top
    rw [h.raws hn]
    first | done | exact ite_self _

theorem Bare.sampleSemicolon? (h : t.Bare) (top : NodeId) : t.sampleSemicolon? top = none := by
  refine findBelow?_eq_none (fun id n hn => ?_) top
  rw [h.raws hn]
  split
  · exact ite_self _
  · rfl

end Tree

/-! ### What the printer notes -/

/-- The notes say what is usual. -/
structure Notes.Usual (notes : Notes) : Prop where
  traits : ∀ known ∈ notes.traits, known.2 = known.1.usual
  semicolon : ∀ closed ∈ notes.semicolon, closed = false

/-- From notes that say what is usual, the action has a result with `P` and leaves such notes. -/
def Gives (action : StateM Notes α) (P : α → Prop) : Prop :=
  ∀ notes : Notes, notes.Usual → P (action.run notes).1 ∧ (action.run notes).2.Usual

namespace Gives

variable {α β : Type} {P : α → Prop} {Q : β → Prop}

theorem pure {a : α} (h : P a) : Gives (pure a) P :=
  fun _ hnotes => ⟨h, hnotes⟩

theorem bind {action : StateM Notes α} {f : α → StateM Notes β} (h : Gives action P)
    (hf : ∀ a, P a → Gives (f a) Q) : Gives (action >>= f) Q := by
  intro notes hnotes
  obtain ⟨ha, hnotes'⟩ := h notes hnotes
  exact hf _ ha _ hnotes'

theorem mono {Q : α → Prop} {action : StateM Notes α} (h : Gives action P)
    (hPQ : ∀ a, P a → Q a) : Gives action Q :=
  fun notes hnotes => (h notes hnotes).imp_left (hPQ _)

theorem know {trait : Trait} {find : StateM Notes String} (h : Gives find (· = trait.usual)) :
    Gives (Memory.notes.know trait find) (· = trait.usual) := by
  intro notes hnotes
  cases hknown : notes.traits.lookup trait with
  | some text =>
    obtain ⟨front, back, hsplit, -⟩ := List.lookup_eq_some_iff.mp hknown
    rw [Notes.run_know_of_noted hknown]
    exact ⟨hnotes.traits (trait, text) (by rw [hsplit]; simp), hnotes⟩
  | none =>
    obtain ⟨htext, hnotes'⟩ := h notes hnotes
    rw [Notes.run_know_of_not_noted hknown]
    refine ⟨htext, ⟨?_, hnotes'.semicolon⟩⟩
    rw [List.forall_mem_cons]
    exact ⟨htext, hnotes'.traits⟩

theorem knowSemicolon {find : StateM Notes Bool} (h : Gives find (· = false)) :
    Gives (Memory.notes.knowSemicolon find) (· = false) := by
  intro notes hnotes
  cases hknown : notes.semicolon with
  | some closed =>
    rw [Notes.run_knowSemicolon_of_noted hknown]
    exact ⟨hnotes.semicolon closed hknown, hnotes⟩
  | none =>
    obtain ⟨hclosed, hnotes'⟩ := h notes hnotes
    rw [Notes.run_knowSemicolon_of_not_noted hknown]
    refine ⟨hclosed, ⟨hnotes'.traits, ?_⟩⟩
    intro closed h
    cases h
    exact hclosed

end Gives

namespace Tree

variable {t : Tree} {x p : NodeId} {n : Node}

/-! ### Slots -/

theorem Bare.gives_ownTrait (h : t.Bare) (x : NodeId) (trait : Trait) :
    Gives (t.ownTrait .notes x trait) (· = trait.usual) := by
  refine .know (.pure ?_)
  rw [h.sample?]
  rfl

theorem Bare.gives_traitOr (h : t.Bare) (x : NodeId) {trait : Trait}
    {otherwise : StateM Notes String} (hother : Gives otherwise (· = trait.usual)) :
    Gives (t.traitOr .notes x trait otherwise) (· = trait.usual) := by
  refine .know ?_
  rw [h.sample?]
  exact hother

/-- Every trait is the usual one. -/
theorem Bare.gives_trait (h : t.Bare) (x : NodeId) (trait : Trait) :
    Gives (t.trait .notes x trait) (· = trait.usual) := by
  cases trait with
  | beforeDeclaration => exact h.gives_traitOr x (h.gives_ownTrait x .beforeRule)
  | beforeComment => exact h.gives_traitOr x (h.gives_traitOr x (h.gives_ownTrait x .beforeRule))
  | _ => exact h.gives_ownTrait x _

theorem Bare.gives_slot (h : t.Bare) (x : NodeId) (trait : Trait) :
    Gives (t.slot .notes x none trait) (· = trait.usual) := by
  rw [slot]
  split_ifs
  · exact .pure rfl
  · exact h.gives_trait x trait

/-- A line break in front of a node or at its end is one with the usual indentation. -/
theorem Bare.gives_lineBreak (h : t.Bare) (x : NodeId) {trait : Trait}
    (htrait : trait.usual = "\n") :
    Gives (t.lineBreak .notes x trait) (· = (Form.lineBreak (t.depth x)).text) := by
  refine (h.gives_trait x trait).bind ?_
  rintro _ rfl
  rw [htrait, if_pos (by decide)]
  refine (h.gives_trait x .indent).bind ?_
  rintro _ rfl
  exact .pure rfl

theorem usual_divider (kind : NodeKind) {otherwise : Trait} (h : otherwise.usual = "\n") :
    (divider kind otherwise).usual = "\n" := by
  cases kind with
  | declaration => rfl
  | comment => rfl
  | _ => exact h

theorem Bare.gives_beforeText (h : t.Bare) (hn : t.get? x = some n) :
    Gives (t.beforeText .notes x n)
      (· = if t.startsText x then "" else (Form.lineBreak (t.depth x)).text) := by
  rw [beforeText, h.raws hn]
  dsimp only
  split_ifs
  · exact .pure rfl
  · exact h.gives_lineBreak x (usual_divider n.kind rfl)

theorem Bare.gives_closesLast (h : t.Bare) (hn : t.get? x = some n) :
    Gives (t.closesLast .notes x n) (· = false) := by
  rw [closesLast, h.raws hn]
  dsimp only
  split_ifs
  · exact .pure rfl
  · refine .knowSemicolon (.pure ?_)
    rw [h.sampleSemicolon?]
    rfl

theorem Bare.gives_closesKids (h : t.Bare) (hn : t.get? x = some n) :
    Gives (t.closesKids .notes x n) (· = false) := by
  rw [closesKids]
  split_ifs
  · exact .pure rfl
  · exact h.gives_closesLast hn

/-! ### Depth -/

theorem depth_of_detached (hparent : t.parent? x = none) : t.depth x = 0 := by
  rw [depth, lineage]
  cases t.nodes.size with
  | zero => rfl
  | succ fuel =>
    rw [lineageWithin, hparent]
    rfl

/-- Nothing below the root is indented; other nodes are, one level more than their parent. -/
theorem Consistent.depth_eq (ht : t.Consistent) (hparent : t.parent? x = some p) :
    t.depth x = if t.kind? p = some .root then 0 else t.depth p + 1 := by
  have htail : t.lineage p = p :: (t.lineage p).tail := by
    rw [lineage]
    cases t.nodes.size <;> rfl
  rw [depth, ht.lineage_eq_cons hparent, List.tail_cons, htail]
  split_ifs with hroot
  · rw [List.takeWhile_cons_of_neg (by simp [hroot])]
    rfl
  · rw [List.takeWhile_cons_of_pos (by simp [hroot]), List.length_cons]
    rfl

theorem Bare.gives_afterText (h : t.Bare) (hn : t.get? x = some n) :
    Gives (t.afterText .notes x n)
      (· = if n.children.isEmpty then "" else (Form.lineBreak (t.depth x)).text) := by
  rw [afterText, h.raws hn]
  dsimp only
  split_ifs with hempty hdetached
  · exact h.gives_slot x .emptyBody
  · have hparent : t.parent? x = none := by
      rw [parent?, hn, Option.bind_some]
      exact Option.isNone_iff_eq_none.mp hdetached
    rw [depth_of_detached hparent]
    exact .pure rfl
  · exact h.gives_lineBreak x (usual_divider n.kind rfl)

/-! ### Nodes -/

theorem Consistent.induction {motive : NodeId → Prop} (ht : t.Consistent)
    (step : ∀ x, (∀ c ∈ t.children x, motive c) → motive x) (x : NodeId) : motive x := by
  have hwithin : ∀ fuel x, (∀ z n, t.Rise z n x → n ≤ fuel) → motive x := by
    intro fuel
    induction fuel with
    | zero =>
      intro x hrise
      refine step x fun c hc => ?_
      rw [ht.children_eq_nil hrise] at hc
      cases hc
    | succ fuel ih =>
      intro x hrise
      exact step x fun c hc => ih c (ht.le_of_rise_child hrise hc)
  exact hwithin t.nodes.size x fun _ _ h => ht.le_of_rise h

theorem Consistent.saying_eq (ht : t.Consistent) (x : NodeId) :
    t.saying x = .node (t.detail x).content ((t.children x).map t.saying) := by
  rw [saying, ht.shape_eq_node, Branch.map, Branch.mapAll_eq, List.map_map]
  rfl

theorem label_saying (t : Tree) (x : NodeId) : (t.saying x).label = (t.detail x).content := by
  rw [saying, Branch.label_map, shape, label_shapeWithin]

theorem content_of_root (h : t.kind? x = some .root) : (t.detail x).content = .root := by
  have hkind := kind_detail (contains_of_kind? h)
  rw [h, Option.some.injEq, Detail.kind] at hkind
  cases hcontent : (t.detail x).content with
  | root => rfl
  | _ =>
    rw [hcontent] at hkind
    cases hkind

/-- What a node that is no root says is plain, with all that is below it. -/
theorem Bare.plain_saying (h : t.Bare) (ht : t.Consistent) (x : NodeId)
    (hx : t.contains x = true) (hroot : t.kind? x ≠ some .root) : (t.saying x).Plain := by
  -- By induction along the child lists, which a consistent tree allows.
  induction x using ht.induction with
  | step x ih =>
    obtain ⟨n, hn⟩ := Option.isSome_iff_exists.mp hx
    have hkind : t.kind? x = some n.detail.kind := by rw [kind?, hn]; rfl
    have hbare := h x n hn
    rw [ht.saying_eq, detail_of_get? hn]
    refine .node ⟨hbare.plain fun hr => hroot (by rw [hkind, hr]), fun hleaf => ?_⟩ ?_
    · have hempty : t.children x = [] := by
        by_contra hne
        obtain ⟨kind, hkind', hown⟩ := ht.canOwn x (ht.block x hne)
        rw [hkind] at hkind'
        cases hkind'
        exact Bool.false_ne_true (hleaf.symm.trans hown)
      rw [hempty]
      rfl
    · intro b hb
      obtain ⟨c, hc, rfl⟩ := List.mem_map.mp hb
      exact ih c hc (ht.contains x c hc) (ht.nested x c hc)

/-- A semicolon makes a difference for declarations only. -/
theorem spell_of_ne_declaration {b : Branch Content} (hb : b.label.kind ≠ .declaration)
    (depth : Nat) (closed closed' : Bool) : spell depth closed b = spell depth closed' b := by
  obtain ⟨content, kids⟩ := b
  cases content with
  | declaration prop value important => exact absurd rfl hb
  | _ => rw [spell, spell]

theorem any_not_comment_saying {ids : List NodeId} (hids : ∀ c ∈ ids, t.contains c = true) :
    ids.any (fun c => !(t.kind? c == some .comment)) =
      (ids.map t.saying).any (fun b => !isComment b) := by
  induction ids with
  | nil => rfl
  | cons c ids ih =>
    rw [List.forall_mem_cons] at hids
    rw [List.map_cons, List.any_cons, List.any_cons, ih hids.2, isComment, label_saying,
      kind_detail hids.1]
    rfl

/-- Only the first child of a root has nothing in front of it. -/
theorem Consistent.startsText_iff (ht : t.Consistent) {before cs : List NodeId} {c : NodeId}
    (hsplit : t.children p = before ++ c :: cs) :
    t.startsText c = true ↔ t.kind? p = some .root ∧ before = [] := by
  have hparent : t.parent? c = some p := ht.listed p c (by rw [hsplit]; simp)
  have hfirst : t.first? p = some c ↔ before = [] := by
    rw [first?, hsplit]
    cases before with
    | nil => simp
    | cons b before =>
      have hne : b ≠ c := by
        have hnodup := ht.nodup_children p
        rw [hsplit, List.cons_append, List.nodup_cons] at hnodup
        rintro rfl
        exact hnodup.1 (by simp)
      simpa using hne
  rw [startsText, hparent]
  simp [hfirst]

/-- What is printed for a node is the text of its forms. -/
def Spells (t : Tree) (x : NodeId) : Prop :=
  ∀ closed, Gives (t.printNode .notes closed (t.shape x)) fun chunks =>
    Chunk.textOf chunks = join (spell (t.depth x) closed (t.saying x))

/-- The children of a node are printed on lines of their own; the first line of a text has no line
break in front of it. -/
theorem Bare.gives_printKids (h : t.Bare) (ht : t.Consistent) {depth : Nat}
    (hdepth : ∀ c ∈ t.children p, t.depth c = depth) (hspells : ∀ c ∈ t.children p, t.Spells c)
    (before cs : List NodeId) (hsplit : t.children p = before ++ cs) :
    Gives (t.printKids .notes false (t.lastClosed (t.children p)) before.length (cs.map t.shape))
      fun chunks => Chunk.textOf chunks =
        join (if t.kind? p = some .root ∧ before = [] then (spellAll depth (cs.map t.saying)).tail
          else spellAll depth (cs.map t.saying)) := by
  -- By induction on the children that are left; those in front decide about the first line break.
  induction cs generalizing before with
  | nil =>
    refine .pure ?_
    rw [List.map_nil, spellAll, List.tail_nil, ite_self]
    rfl
  | cons c cs ih =>
    have hmem : c ∈ t.children p := by rw [hsplit]; simp
    have hcs : ∀ c ∈ cs, t.contains c = true := fun c hc =>
      ht.contains p c (by rw [hsplit]; simp [hc])
    obtain ⟨n, hn⟩ := Option.isSome_iff_exists.mp (ht.contains p c hmem)
    have hstart := ht.startsText_iff hsplit
    have hclosed :
        spell depth (t.lastClosed (t.children p) != before.length || false) (t.saying c) =
        spell depth ((cs.map t.saying).any fun b => !isComment b) (t.saying c) := by
      by_cases hcomment : t.kind? c = some .comment
      · refine spell_of_ne_declaration (fun hdecl => ?_) depth _ _
        rw [label_saying] at hdecl
        rw [kind_detail (ht.contains p c hmem), Detail.kind, hdecl] at hcomment
        cases hcomment
      · rw [Bool.or_false, hsplit, t.lastClosed_ne_iff before cs (by simpa using hcomment),
          any_not_comment_saying hcs]
    have hrest := ih (before ++ [c]) (by rw [hsplit]; simp)
    rw [List.length_append, List.length_singleton, if_neg (by simp)] at hrest
    rw [List.map_cons, printKids, shape, label_shapeWithin, hn]
    refine (h.gives_beforeText hn).bind ?_
    rintro _ rfl
    refine (hspells c hmem _).bind fun chunks hchunks => ?_
    refine hrest.bind fun more hmore => .pure ?_
    rw [hdepth c hmem, hclosed] at hchunks
    rw [Chunk.textOf_append, Chunk.textOf_append, Chunk.textOf_formatting, hchunks, hmore,
      List.map_cons, spellAll, List.tail_cons, hdepth c hmem]
    -- Only the very first child of the root is printed with nothing in front.
    by_cases hfirst : t.kind? p = some .root ∧ before = []
    · rw [if_pos hfirst, if_pos (hstart.mpr hfirst), join_append, String.empty_append]
    · rw [if_neg hfirst, if_neg (hstart.not.mpr hfirst), join_cons, join_append,
        String.append_assoc]

/-- The text of a block, behind its head. -/
theorem Bare.gives_block (h : t.Bare) (ht : t.Consistent) (hn : t.get? x = some n)
    (hroot : t.kind? x ≠ some .root) (hspells : ∀ c ∈ t.children x, t.Spells c) (head : String) :
    Gives (t.printBlock .notes x n ((t.children x).map t.shape) head) fun chunks =>
      Chunk.textOf chunks = head ++ join (blank :: openCurly ::
        (spellAll (t.depth x + 1) ((t.children x).map t.saying) ++
          ending (t.depth x) ((t.children x).map t.saying).isEmpty)) := by
  have hchildren : n.children = t.children x := by
    rw [children, hn]
    rfl
  have hdepth : ∀ c ∈ t.children x, t.depth c = t.depth x + 1 := by
    intro c hc
    rw [ht.depth_eq (ht.listed x c hc), if_neg hroot]
  have hkids := h.gives_printKids ht hdepth hspells [] (t.children x) rfl
  rw [if_neg (fun hfirst => hroot hfirst.1), ← hchildren] at hkids
  have hending : (if n.children.isEmpty then "" else (Form.lineBreak (t.depth x)).text) ++ "\x7d" =
      join (ending (t.depth x) (n.children.map t.saying).isEmpty) := by
    rw [List.isEmpty_map, ending]
    split_ifs <;> simp [closeCurly]
  rw [printBlock, h.raws hn, ← hchildren]
  -- The parts in the order of printing: in front of the brace, the children, behind the last one.
  refine (h.gives_slot x .beforeOpen).bind ?_
  rintro _ rfl
  refine (h.gives_closesKids hn).bind ?_
  rintro _ rfl
  refine hkids.bind fun body hbody => ?_
  refine (h.gives_afterText hn).bind ?_
  rintro _ rfl
  refine .pure ?_
  simp only [List.cons_append, Chunk.textOf_cons, Chunk.textOf_append, Chunk.textOf_formatting,
    Chunk.text_of, Chunk.textOf_nil, String.append_empty, hbody, join_cons, join_append,
    ← hending, String.append_assoc]
  rfl

theorem atRuleHead_bare {name params : String} (hparams : params = "" ∨ IsPhrase params) :
    atRuleHead {} name params = join (atWord name :: trail (words params)) := by
  rw [join_cons, join_trail]
  rcases hparams with rfl | hparams
  · simp [atRuleHead, atWord, words]
  · rw [← hparams.blank_append, atRuleHead]
    simp [hparams.ne_empty, RawValue.apply, atWord, String.append_assoc]

theorem declarationText_bare {value : String} (hvalue : IsPhrase value) (prop : String)
    (important : Bool) :
    declarationText {} Trait.colon.usual prop value important =
      join (word prop :: colon :: trail (words value ++ Form.mark important)) := by
  have hmark : (if important then " !important" else "") = behindBlanks (Form.mark important) := by
    cases important <;> rfl
  rw [join_cons, join_cons, join_trail, behindBlanks_append, ← hvalue.blank_append, ← hmark,
    declarationText, show Trait.colon.usual = colon.text ++ " " from rfl]
  simp [RawValue.apply, word, String.append_assoc]

/-- Every node but a root is printed as its forms. -/
theorem Bare.spells (h : t.Bare) (ht : t.Consistent) (x : NodeId) (hx : t.contains x = true)
    (hroot : t.kind? x ≠ some .root) : t.Spells x := by
  induction x using ht.induction with
  | step x ih =>
    intro closed
    obtain ⟨n, hn⟩ := Option.isSome_iff_exists.mp hx
    have hspells : ∀ c ∈ t.children x, t.Spells c := fun c hc =>
      ih c hc (ht.contains x c hc) (ht.nested x c hc)
    have hkind : t.kind? x = some n.detail.kind := by rw [kind?, hn]; rfl
    have hbare := h x n hn
    have hplain := hbare.plain fun hr => hroot (by rw [hkind, hr])
    have hblock := h.gives_block ht hn hroot hspells
    rw [ht.shape_eq_node, ht.saying_eq, detail_of_get? hn, printNode_eq t _ hn]
    dsimp only [Node.content]
    -- What a node prints around its children depends on its kind.
    cases hcontent : n.detail.content <;> rw [hcontent] at hplain <;> dsimp only
    case root => exact absurd hplain id
    case rule selector =>
      refine (hblock _).bind fun chunks hchunks => .pure ?_
      rw [h.raws hn] at hchunks ⊢
      rw [spell, join_append, join_phrase hplain]
      simpa [RawValue.apply] using hchunks
    case atRule name params =>
      have hcontainer : n.isContainer = true := by
        rw [Node.isContainer, hbare.block, Detail.kind, hcontent]
        rfl
      rw [if_pos hcontainer]
      refine (hblock _).mono fun chunks hchunks => ?_
      rw [h.raws hn, atRuleHead_bare hplain.2] at hchunks
      rw [hchunks, spell, ← join_append, List.cons_append]
    case declaration prop value important =>
      rw [h.raws hn]
      refine (h.gives_slot x .colon).bind ?_
      rintro _ rfl
      refine .pure ?_
      rw [Chunk.textOf_cons, Chunk.textOf_nil, Chunk.text_of, String.append_empty,
        declarationText_bare hplain.2, spell, ← List.cons_append, ← List.cons_append, join_append]
      cases closed <;> rfl
    case comment text =>
      rw [h.raws hn]
      refine (h.gives_slot x .commentLeft).bind ?_
      rintro _ rfl
      refine (h.gives_slot x .commentRight).bind ?_
      rintro _ rfl
      refine .pure ?_
      rw [Chunk.textOf_cons, Chunk.textOf_nil, Chunk.text_of, String.append_empty, spell, join_cons,
        join_nil, String.append_empty]
      simp [Form.comment, Trait.usual, String.append_assoc]

/-- A bare tree prints in the usual style. -/
theorem Bare.print_eq (h : t.Bare) (ht : t.Consistent) (hroot : t.kind? rootId = some .root) :
    t.print = join (spellAll 0 ((t.children rootId).map t.saying)).tail := by
  obtain ⟨n, hn⟩ := Option.isSome_iff_exists.mp (contains_of_kind? hroot)
  have hchildren : n.children = t.children rootId := by
    rw [children, hn]
    rfl
  have hcontent : n.detail.content = .root := by
    rw [← detail_of_get? hn]
    exact content_of_root hroot
  have hdepth : ∀ c ∈ t.children rootId, t.depth c = 0 := by
    intro c hc
    rw [ht.depth_eq (ht.listed rootId c hc), if_pos hroot]
  have hkids := h.gives_printKids ht hdepth
    (fun c hc => h.spells ht c (ht.contains _ c hc) (ht.nested _ c hc)) [] (t.children rootId) rfl
  rw [if_pos ⟨hroot, rfl⟩, ← hchildren] at hkids
  -- The root prints its children, and nothing behind them.
  have hprint : Gives (t.chunksWith .notes rootId) fun chunks =>
      Chunk.textOf chunks = join (spellAll 0 (n.children.map t.saying)).tail := by
    rw [chunksWith, ht.shape_eq_node, printNode_eq t _ hn]
    dsimp only [Node.content]
    rw [hcontent, ← hchildren]
    refine (h.gives_closesLast hn).bind ?_
    rintro _ rfl
    refine hkids.bind fun body hbody => .pure ?_
    rw [h.raws hn, Chunk.textOf_append, Chunk.textOf_formatting, hbody]
    exact String.append_empty
  rw [← hchildren]
  exact (hprint {} ⟨by simp, by simp⟩).1

end Tree

end Stylesheet
