import Stylesheet.Proofs.Draft.Print
import Stylesheet.Proofs.Edit.Command
import Stylesheet.Proofs.Tree.Shape

/-!
# What the printer remembers

The printer notes each trait of the style that it has looked up. All nodes that it comes to have the
same topmost node, which decides what is found, so that what was noted would be found again
(`Notes.Right`). A printer with notes and one that looks everything up again are compared step by
step (`Recalls`), and print the same chunks (`Tree.Consistent.chunks_eq`).

Nor does it make a difference which node a note was made for: what is found for a node depends on
its topmost node alone (`Tree.run_trait`, `Tree.run_closesLast`). So what is noted at the end is
what would be found then (`Tree.Consistent.chunks_found_anew`).
-/

namespace Stylesheet

/-! ### Notes -/

namespace Notes

variable {trait : Trait} {notes : Notes}

/-- A trait that was noted is not looked for again. -/
theorem run_know_of_noted {text : String} (h : notes.traits.lookup trait = some text)
    (find : StateM Notes String) : (Memory.notes.know trait find).run notes = (text, notes) := by
  simp [Memory.notes, h]
  rfl

/-- A trait that was not noted is found and noted. -/
theorem run_know_of_not_noted (h : notes.traits.lookup trait = none)
    (find : StateM Notes String) :
    (Memory.notes.know trait find).run notes =
      ((find.run notes).1, { (find.run notes).2 with
        traits := (trait, (find.run notes).1) :: (find.run notes).2.traits }) := by
  simp [Memory.notes, h]
  rfl

/-- What was noted is not looked up again. -/
theorem run_knowSemicolon_of_noted {closed : Bool} (h : notes.semicolon = some closed)
    (find : StateM Notes Bool) :
    (Memory.notes.knowSemicolon find).run notes = (closed, notes) := by
  simp [Memory.notes, h]
  rfl

/-- What was not is looked up and noted. -/
theorem run_knowSemicolon_of_not_noted (h : notes.semicolon = none)
    (find : StateM Notes Bool) :
    (Memory.notes.knowSemicolon find).run notes =
      ((find.run notes).1, { (find.run notes).2 with semicolon := some (find.run notes).1 }) := by
  simp [Memory.notes, h]
  rfl

end Notes

/-! ### The style of a tree -/

namespace Tree

/-- The style of the nodes with a topmost node. Comments stand like declarations and declarations
like rules, unless a node shows otherwise. -/
def style (t : Tree) (top : NodeId) : Trait → String
  | .beforeDeclaration =>
    (t.sample? top .beforeDeclaration).getD
      ((t.sample? top .beforeRule).getD Trait.beforeRule.usual)
  | .beforeComment =>
    (t.sample? top .beforeComment).getD
      ((t.sample? top .beforeDeclaration).getD
        ((t.sample? top .beforeRule).getD Trait.beforeRule.usual))
  | other => (t.sample? top other).getD other.usual

/-- Whether the nodes with a topmost node close their last child, when they do not say so. -/
def styleSemicolon (t : Tree) (top : NodeId) : Bool :=
  (t.sampleSemicolon? top).getD false

end Tree

/-- What is noted is the style of the nodes with the topmost node. -/
structure Notes.Right (t : Tree) (top : NodeId) (notes : Notes) : Prop where
  traits : ∀ known ∈ notes.traits, known.2 = t.style top known.1
  semicolon : ∀ closed ∈ notes.semicolon, closed = t.styleSemicolon top

/-- There is nothing wrong in notes that are empty. -/
theorem Notes.right_nil (t : Tree) (top : NodeId) : ({} : Notes).Right t top :=
  ⟨fun _ hknown => absurd hknown List.not_mem_nil, nofun⟩

/-- From right notes, the action has the result of the other one, which has no notes, and leaves
right notes. -/
def Recalls (t : Tree) (top : NodeId) (action : StateM Notes α) (other : Id α) : Prop :=
  ∀ notes : Notes, notes.Right t top →
    (action.run notes).1 = other ∧ (action.run notes).2.Right t top

namespace Recalls

variable {t : Tree} {top : NodeId}

theorem pure (a : α) : Recalls t top (pure a) (pure a) :=
  fun _ hnotes => ⟨rfl, hnotes⟩

/-- Two steps with notes recall what two steps without them find. -/
theorem bind {action : StateM Notes α} {other : Id α} {f : α → StateM Notes β} {g : α → Id β}
    (h : Recalls t top action other) (hf : ∀ a, Recalls t top (f a) (g a)) :
    Recalls t top (action >>= f) (other >>= g) := by
  intro notes hnotes
  obtain ⟨hsame, hnotes'⟩ := h notes hnotes
  have hnext := hf (action.run notes).1 _ hnotes'
  rw [hsame] at hnext
  refine ⟨Eq.trans ?_ hnext.1, ?_⟩
  · rw [← hsame]
    rfl
  · rw [← hsame] at hnext
    exact hnext.2

/-- A trait that is noted is the one that would be found. -/
theorem know {trait : Trait} {find : StateM Notes String} {other : Id String}
    (h : Recalls t top find other) (hstyle : other = t.style top trait) :
    Recalls t top (Memory.notes.know trait find) (Memory.none.know trait other) := by
  intro notes hnotes
  cases hknown : notes.traits.lookup trait with
  | some text =>
    obtain ⟨front, back, hsplit, -⟩ := List.lookup_eq_some_iff.mp hknown
    rw [Notes.run_know_of_noted hknown]
    refine ⟨Eq.trans ?_ hstyle.symm, hnotes⟩
    exact hnotes.traits (trait, text) (by rw [hsplit]; simp)
  | none =>
    obtain ⟨htext, hnotes'⟩ := h notes hnotes
    rw [Notes.run_know_of_not_noted hknown]
    refine ⟨htext, ?_, hnotes'.semicolon⟩
    rw [List.forall_mem_cons]
    exact ⟨htext.trans hstyle, hnotes'.traits⟩

/-- It is enough that what is found is the style of the tree. -/
theorem knowSemicolon {find : StateM Notes Bool} {other : Id Bool}
    (h : Recalls t top find other) (hstyle : other = t.styleSemicolon top) :
    Recalls t top (Memory.notes.knowSemicolon find) (Memory.none.knowSemicolon other) := by
  intro notes hnotes
  cases hknown : notes.semicolon with
  | some closed =>
    rw [Notes.run_knowSemicolon_of_noted hknown]
    exact ⟨(hnotes.semicolon closed hknown).trans hstyle.symm, hnotes⟩
  | none =>
    obtain ⟨hclosed, hnotes'⟩ := h notes hnotes
    rw [Notes.run_knowSemicolon_of_not_noted hknown]
    refine ⟨hclosed, hnotes'.traits, ?_⟩
    intro closed h
    cases h
    exact hclosed.trans hstyle

end Recalls

namespace Tree

variable {t : Tree} {top x : NodeId} {n : Node}

/-! ### Slots -/

section Slots

variable (hx : t.rootOf x = top)
include hx

/-- All lookups are of the same kind: a style of the tree, or else what is usual. -/
theorem recalls_ownTrait {trait : Trait}
    (hstyle : t.style top trait = (t.sample? top trait).getD trait.usual) :
    Recalls t top (t.ownTrait .notes x trait) (t.ownTrait .none x trait) := by
  refine .know (.pure _) ?_
  rw [hx, hstyle]
  rfl

theorem recalls_traitOr {trait : Trait} {otherwise : StateM Notes String} {other : Id String}
    (h : Recalls t top otherwise other)
    (hstyle : t.style top trait = (t.sample? top trait).getD other) :
    Recalls t top (t.traitOr .notes x trait otherwise) (t.traitOr .none x trait other) := by
  rw [traitOr, traitOr, hx]
  cases hsample : t.sample? top trait with
  | none =>
    refine .know h ?_
    rw [hstyle, hsample]
    rfl
  | some text =>
    refine .know (.pure text) ?_
    rw [hstyle, hsample]
    rfl

theorem recalls_trait (trait : Trait) :
    Recalls t top (t.trait .notes x trait) (t.trait .none x trait) := by
  have hrule : Recalls t top (t.ownTrait .notes x .beforeRule) (t.ownTrait .none x .beforeRule) :=
    recalls_ownTrait hx rfl
  have hdeclaration : Recalls t top
      (t.traitOr .notes x .beforeDeclaration (t.ownTrait .notes x .beforeRule))
      (t.traitOr .none x .beforeDeclaration (t.ownTrait .none x .beforeRule)) := by
    refine recalls_traitOr hx hrule ?_
    rw [ownTrait, hx]
    rfl
  cases trait with
  | beforeDeclaration => exact hdeclaration
  | beforeComment =>
    refine recalls_traitOr hx hdeclaration ?_
    rw [traitOr, ownTrait, hx, style]
    cases t.sample? top .beforeDeclaration <;> rfl
  | _ => exact recalls_ownTrait hx rfl

theorem recalls_slot (captured : Option String) (trait : Trait) :
    Recalls t top (t.slot .notes x captured trait) (t.slot .none x captured trait) := by
  cases captured with
  | some text => exact .pure text
  | none =>
    rw [slot, slot]
    split_ifs
    · exact .pure _
    · exact recalls_trait hx trait

theorem recalls_lineBreak (trait : Trait) :
    Recalls t top (t.lineBreak .notes x trait) (t.lineBreak .none x trait) := by
  refine (recalls_trait hx trait).bind fun text => ?_
  split_ifs
  · exact (recalls_trait hx .indent).bind fun indent => .pure _
  · exact .pure text

theorem recalls_beforeText (n : Node) :
    Recalls t top (t.beforeText .notes x n) (t.beforeText .none x n) := by
  rw [beforeText, beforeText]
  cases n.raws.before with
  | some text => exact .pure text
  | none =>
    dsimp only
    split_ifs
    · exact .pure _
    · exact recalls_lineBreak hx _

theorem recalls_afterText (n : Node) :
    Recalls t top (t.afterText .notes x n) (t.afterText .none x n) := by
  rw [afterText, afterText]
  by_cases hempty : n.children.isEmpty = true
  · rw [if_pos hempty, if_pos hempty]
    exact recalls_slot hx _ _
  · rw [if_neg hempty, if_neg hempty]
    cases n.raws.after with
    | some text => exact .pure text
    | none =>
      dsimp only
      split_ifs
      · exact .pure _
      · exact recalls_lineBreak hx _

theorem recalls_closesLast (n : Node) :
    Recalls t top (t.closesLast .notes x n) (t.closesLast .none x n) := by
  rw [closesLast, closesLast]
  cases n.raws.semicolon with
  | some closed => exact .pure closed
  | none =>
    dsimp only
    split_ifs
    · exact .pure false
    · refine .knowSemicolon (.pure _) ?_
      rw [hx]
      rfl

/-! ### Nodes -/

theorem recalls_closesKids (n : Node) :
    Recalls t top (t.closesKids .notes x n) (t.closesKids .none x n) := by
  rw [closesKids, closesKids]
  split_ifs
  · exact .pure false
  · exact recalls_closesLast hx n

/-- What rules and at-rules with a block have in common. -/
theorem recalls_block (n : Node) {kids : List (Branch NodeId)}
    (hbody : ∀ closesLast last, Recalls t top (t.printKids .notes closesLast last 0 kids)
      (t.printKids .none closesLast last 0 kids)) (head : String) :
    Recalls t top (t.printBlock .notes x n kids head) (t.printBlock .none x n kids head) :=
  (recalls_slot hx _ _).bind fun _ => (recalls_closesKids hx n).bind fun closesLast =>
    (hbody closesLast _).bind fun _ => (recalls_afterText hx n).bind fun _ => .pure _

end Slots

mutual

/-- The induction is on the branch; all its nodes have the same top, so the notes fit. -/
theorem printNode_recalls : ∀ (b : Branch NodeId) (closed : Bool),
    (∀ y ∈ b.toList, t.rootOf y = top) →
    Recalls t top (t.printNode .notes closed b) (t.printNode .none closed b)
  | .node x kids, closed, hb => by
    rw [Branch.toList, List.forall_mem_cons] at hb
    obtain ⟨hx, hkids⟩ := hb
    have hbody := fun closesLast last => printKids_recalls kids closesLast last 0 hkids
    cases hn : t.get? x with
    | none =>
      rw [printNode, printNode, hn]
      exact .pure []
    | some n =>
      rw [printNode_eq t _ hn, printNode_eq t _ hn]
      -- Every question that printing asks is about the same root, so one memory serves.
      cases n.content with
      | root =>
        exact (recalls_closesLast hx n).bind fun closesLast =>
          (hbody closesLast _).bind fun body => .pure _
      | rule selector => exact (recalls_block hx n hbody _).bind fun chunks => .pure _
      | atRule name params =>
        dsimp only
        cases n.isContainer with
        | true => exact recalls_block hx n hbody _
        | false => exact .pure _
      | declaration prop value important =>
        exact (recalls_slot hx _ _).bind fun between => .pure _
      | comment text =>
        exact (recalls_slot hx _ _).bind fun left => (recalls_slot hx _ _).bind fun right => .pure _

theorem printKids_recalls : ∀ (bs : List (Branch NodeId)) (closesLast : Bool) (last i : Nat),
    (∀ y ∈ Branch.listAll bs, t.rootOf y = top) →
    Recalls t top (t.printKids .notes closesLast last i bs) (t.printKids .none closesLast last i bs)
  | [], closesLast, last, i, hbs => .pure []
  | b :: bs, closesLast, last, i, hbs => by
    rw [Branch.listAll, List.forall_mem_append] at hbs
    have hlabel : t.rootOf b.label = top := hbs.1 _ (by cases b; exact List.mem_cons_self)
    -- Behind the text in front, which is asked for first, both go on in the same way.
    have hrest : ∀ before : String, Recalls t top
        (do
          let chunks ← t.printNode .notes (last != i || closesLast) b
          let rest ← t.printKids .notes closesLast last (i + 1) bs
          return Chunk.formatting before ++ chunks ++ rest)
        (do
          let chunks ← t.printNode .none (last != i || closesLast) b
          let rest ← t.printKids .none closesLast last (i + 1) bs
          return Chunk.formatting before ++ chunks ++ rest) := fun before =>
      (printNode_recalls b _ hbs.1).bind fun chunks =>
        (printKids_recalls bs closesLast last (i + 1) hbs.2).bind fun rest => .pure _
    rw [printKids, printKids]
    cases t.get? b.label with
    | none => exact hrest ""
    | some n => exact (recalls_beforeText hlabel n).bind hrest

end

/-- From right notes, a node is printed as it is printed without any. -/
theorem Consistent.recalls_chunks (ht : t.Consistent) (hx : t.rootOf x = top) :
    Recalls t top (t.chunksWith .notes x) (t.chunksWith .none x) := by
  unfold chunksWith
  apply printNode_recalls
  intro y hy
  rw [ht.rootOf_of_mem_shape hy, hx]

/-- What is printed with notes is printed without. -/
theorem Consistent.chunks_eq (ht : t.Consistent) (x : NodeId) :
    t.chunks x = (t.chunksWith .none x).run :=
  (ht.recalls_chunks rfl {} (Notes.right_nil t _)).1

end Tree

/-! ### Formatting that is found anew -/

namespace Tree

variable {t : Tree} {top x y : NodeId} {n : Node}

/-- What is found of a trait for a node is the style of its topmost node. -/
theorem run_trait (t : Tree) (y : NodeId) (trait : Trait) :
    (t.trait .none y trait).run = t.style (t.rootOf y) trait := by
  unfold Tree.trait style
  -- Two traits have others to fall back on; the rest is looked up in one way.
  cases trait with
  | beforeDeclaration =>
    simp only [traitOr]
    cases t.sample? (t.rootOf y) .beforeDeclaration <;> rfl
  | beforeComment =>
    simp only [traitOr]
    cases t.sample? (t.rootOf y) .beforeComment with
    | some text => rfl
    | none => cases t.sample? (t.rootOf y) .beforeDeclaration <;> rfl
  | _ => rfl

/-- Whether a node closes its last child, when it does not say so itself. -/
theorem run_closesLast (t : Tree) (y : NodeId) (hsemicolon : n.raws.semicolon = none)
    (hparent : n.parent.isSome = true) :
    (t.closesLast .none y n).run = t.styleSemicolon (t.rootOf y) := by
  have hnone : n.parent.isNone = false := by
    rw [Option.isNone_eq_false_iff]
    exact hparent
  simp only [closesLast, hsemicolon, hnone]
  rfl

/-- What is noted would be found again for any node with the topmost node. -/
theorem found_of_right {notes : Notes} (hnotes : notes.Right t top) (hy : t.rootOf y = top) :
    (∀ known ∈ notes.traits, known.2 = (t.trait .none y known.1).run) ∧
      ∀ n : Node, n.raws.semicolon = none → n.parent.isSome = true →
        ∀ closed ∈ notes.semicolon, closed = (t.closesLast .none y n).run := by
  constructor
  · intro known hknown
    rw [run_trait, hy]
    exact hnotes.traits known hknown
  · intro n hsemicolon hparent closed hclosed
    rw [run_closesLast t y hsemicolon hparent, hy]
    exact hnotes.semicolon closed hclosed

/-- **Notes make no difference**: what is printed with them is what is printed when each trait is
looked up again for each node. When the printer is done, all that it has noted is what it would find
for any node with the same topmost node. -/
theorem Consistent.chunks_found_anew (ht : t.Consistent) (x : NodeId) :
    t.chunks x = (t.chunksWith .none x).run ∧
      ∀ y, t.rootOf y = t.rootOf x →
        (∀ known ∈ ((t.chunksWith .notes x).run {}).2.traits,
          known.2 = (t.trait .none y known.1).run) ∧
        ∀ n : Node, n.raws.semicolon = none → n.parent.isSome = true →
          ∀ closed ∈ ((t.chunksWith .notes x).run {}).2.semicolon,
            closed = (t.closesLast .none y n).run := by
  obtain ⟨hsame, hright⟩ := ht.recalls_chunks rfl {} (Notes.right_nil t (t.rootOf x))
  exact ⟨hsame, fun y hy => found_of_right hright hy⟩

end Tree

/-- A rule is read, and one is built behind it: a declaration, a comment and a block in a block, of
which nothing is captured. -/
def halfBuiltEdits : List Edit :=
  [.append Tree.rootId (.text "a\x7b\n  b:c;\n\x7d\n"),
    .append Tree.rootId (.bag ((Bag.rule "d").withNodes
      [Bag.declaration "e" "f", Bag.comment "g",
        (Bag.atRule "h" "").withNodes [Bag.declaration "i" "j"]]))]

/-- A tree in which some nodes have formatting and others take it from them. -/
theorem chunks_found_anew_halfBuilt :
    (Edit.runAll halfBuiltEdits ⟨Tree.empty, {}⟩).tree.Consistent ∧
      (Edit.runAll halfBuiltEdits ⟨Tree.empty, {}⟩).tree.print =
        "a\x7b\n  b:c;\n\x7d\nd\x7b\n  e:f;\n  /* g */\n  @h\x7b\n    i:j;\n  \x7d\n\x7d" ∧
      (Edit.runAll halfBuiltEdits ⟨Tree.empty, {}⟩).tree.chunks Tree.rootId =
        ((Edit.runAll halfBuiltEdits ⟨Tree.empty, {}⟩).tree.chunksWith .none Tree.rootId).run := by
  have hlists : ∀ e ∈ halfBuiltEdits, e.listsNodes = false := by decide
  have hother : ∀ e ∈ halfBuiltEdits, ∀ other shared, e.material? = some (.tree other shared) →
      other.Reached := by
    simp only [halfBuiltEdits, List.forall_mem_cons]
    exact ⟨nofun, nofun, fun e he => absurd he List.not_mem_nil⟩
  have hreached : (Edit.runAll halfBuiltEdits ⟨Tree.empty, {}⟩).tree.Reached :=
    .runAll (d := ⟨Tree.empty, {}⟩) .empty hlists hother
  have hconsistent := hreached.orderly.consistent
  exact ⟨hconsistent, by decide +kernel, (hconsistent.chunks_found_anew Tree.rootId).1⟩

end Stylesheet
