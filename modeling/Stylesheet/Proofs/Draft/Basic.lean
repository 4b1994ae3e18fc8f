import Mathlib.Tactic.ByContra
import Mathlib.Tactic.SplitIfs
import Stylesheet.Print.Chunks
import Stylesheet.Tree.Graft

/-!
# Properties and text of drafts

`Branch.Every` says that something holds of every label of a branch and the branches below it.
`Detail.Sound` is what holds of every node that is read, built or copied: only a node with a block
has children, only some kinds of nodes have a block, and a root is nowhere but on top.

A branch of details whose formatting is captured everywhere can be printed without a look at the
nodes around it. `Draft.text` is that printer: it reads the captured slots only.

A leaf (`Detail.isLeaf`) is printed in one piece, with a semicolon behind it when it is closed; any
other node is its heading, its children and its ending. The last child that is no comment is closed
when the block says so, all children in front of it are closed (`Draft.textAll`).

* `Detail.Captured` says that no slot which the printer looks at is missing.
* `Draft.textAll_concat` and `Draft.textAll_concat_comment` say what one more child adds.
-/

namespace Stylesheet

/-- Something holds of every label of a branch and the branches below it. -/
inductive Branch.Every (P : α → List (Branch α) → Prop) : Branch α → Prop
  | node {a : α} {bs : List (Branch α)} (top : P a bs) (rest : ∀ b ∈ bs, Every P b) :
    Every P (.node a bs)

namespace Branch.Every

variable {P Q : α → List (Branch α) → Prop}

theorem top {a : α} {bs : List (Branch α)} (h : Every P (.node a bs)) : P a bs := by
  cases h with
  | node top rest => exact top

theorem rest {a : α} {bs : List (Branch α)} (h : Every P (.node a bs)) : ∀ b ∈ bs, Every P b := by
  cases h with
  | node top rest => exact rest

theorem mono (hPQ : ∀ a bs, P a bs → Q a bs) {b : Branch α} (h : Every P b) : Every Q b := by
  induction h with
  | node top _ ih => exact .node (hPQ _ _ top) ih

end Branch.Every

theorem Branch.mapAll_eq (f : α → β) (bs : List (Branch α)) : mapAll f bs = bs.map (map f) := by
  induction bs with
  | nil => rfl
  | cons b bs ih => rw [mapAll, ih, List.map_cons]

theorem Branch.label_map (f : α → β) (b : Branch α) : (b.map f).label = f b.label := by
  cases b
  rfl

theorem Branch.Every.map {P : α → List (Branch α) → Prop} {Q : β → List (Branch β) → Prop}
    {f : α → β} (hPQ : ∀ a bs, P a bs → Q (f a) (bs.map (Branch.map f))) {b : Branch α}
    (h : Every P b) : Every Q (b.map f) := by
  induction h with
  | node top _ ih =>
    rw [Branch.map, Branch.mapAll_eq]
    refine .node (hPQ _ _ top) fun b hb => ?_
    obtain ⟨c, hc, rfl⟩ := List.mem_map.mp hb
    exact ih c hc

/-- Whether nodes of a kind can have a block. -/
def NodeKind.canOwn : NodeKind → Bool
  | .root | .rule | .atRule => true
  | .declaration | .comment => false

namespace Detail

/-- The kind of the node. -/
def kind (d : Detail) : NodeKind := d.content.kind

/-- The node and its children fit together. -/
structure Sound (d : Detail) (kids : List Draft) : Prop where
  block : kids ≠ [] → d.block = true
  canOwn : d.block = true → d.kind.canOwn = true
  nested : ∀ b ∈ kids, b.label.kind ≠ .root

end Detail

theorem Draft.sound_leaf {d : Detail} (hblock : d.block = true → d.kind.canOwn = true) :
    (Branch.node d [] : Draft).Every Detail.Sound := by
  refine .node ⟨fun hne => absurd rfl hne, hblock, ?_⟩ ?_
  · intro b hb
    cases hb
  · intro b hb
    cases hb

/-- What a change of the details leaves alone makes no difference. -/
theorem Draft.sound_map {f : Detail → Detail} (hcontent : ∀ d, (f d).content = d.content)
    (hblock : ∀ d, (f d).block = d.block) {b : Draft} (h : b.Every Detail.Sound) :
    (b.map f).Every Detail.Sound := by
  have hkind : ∀ d, (f d).kind = d.kind := fun d => congrArg Content.kind (hcontent d)
  refine h.map fun d kids hd => ⟨fun hne => ?_, fun hb => ?_, fun b hb => ?_⟩
  · rw [hblock]
    exact hd.block fun hnil => hne (by rw [hnil]; rfl)
  · rw [hblock] at hb
    rw [hkind]
    exact hd.canOwn hb
  · obtain ⟨c, hc, rfl⟩ := List.mem_map.mp hb
    rw [Branch.label_map, hkind]
    exact hd.nested c hc

/-! ### Text -/

namespace Detail

/-- Whether the node is printed in one piece. -/
def isLeaf (d : Detail) : Bool :=
  match d.content with
  | .root | .rule _ => false
  | .atRule _ _ => !d.block
  | .declaration _ _ _ | .comment _ => true

/-- What is printed in front of the children. -/
def heading (d : Detail) : String :=
  match d.content with
  | .rule selector =>
    RawValue.apply d.raws.selector selector ++ d.raws.between.getD "" ++ "\x7b"
  | .atRule name params => Tree.atRuleHead d.raws name params ++ d.raws.between.getD "" ++ "\x7b"
  | _ => ""

/-- What is printed behind the children. -/
def ending (d : Detail) : String :=
  match d.content with
  | .rule _ => d.raws.after.getD "" ++ "\x7d" ++ d.raws.ownSemicolon.getD ""
  | .atRule _ _ => d.raws.after.getD "" ++ "\x7d"
  | _ => d.raws.after.getD ""

/-- A node that is printed in one piece. No semicolon closes a comment. -/
def leafText (d : Detail) (closed : Bool) : String :=
  let mark := if closed then ";" else ""
  match d.content with
  | .atRule name params => Tree.atRuleHead d.raws name params ++ d.raws.between.getD "" ++ mark
  | .declaration prop value important =>
    Tree.declarationText d.raws (d.raws.between.getD "") prop value important ++ mark
  | .comment text => "/*" ++ d.raws.left.getD "" ++ text ++ d.raws.right.getD "" ++ "*/"
  | _ => ""

/-- What stands in front of the node. -/
def before (d : Detail) : String := d.raws.before.getD ""

theorem isLeaf_of_rule {d : Detail} (h : d.kind = .rule) : d.isLeaf = false := by
  have hcontent : d.content.kind = .rule := h
  unfold isLeaf
  cases hc : d.content <;> rw [hc] at hcontent <;> first | rfl | cases hcontent

theorem content_of_root {d : Detail} (h : d.kind = .root) : d.content = .root := by
  rw [kind] at h
  cases hc : d.content <;> rw [hc] at h <;> first | rfl | cases h

theorem isLeaf_of_root {d : Detail} (h : d.kind = .root) : d.isLeaf = false := by
  rw [isLeaf, content_of_root h]

theorem heading_of_root {d : Detail} (h : d.kind = .root) : d.heading = "" := by
  rw [heading, content_of_root h]

theorem ending_of_root {d : Detail} (h : d.kind = .root) : d.ending = d.raws.after.getD "" := by
  rw [ending, content_of_root h]

/-- A node that is printed in one piece has no children. -/
theorem Sound.eq_nil_of_isLeaf {d : Detail} {kids : List Draft} (h : d.Sound kids)
    (hleaf : d.isLeaf = true) : kids = [] := by
  by_contra hne
  have hblock := h.block hne
  have hcan : d.content.kind.canOwn = true := h.canOwn hblock
  unfold isLeaf at hleaf
  cases hc : d.content with
  | root => rw [hc] at hleaf; cases hleaf
  | rule selector => rw [hc] at hleaf; cases hleaf
  | atRule name params => rw [hc, hblock] at hleaf; cases hleaf
  | declaration prop value important => rw [hc] at hcan; cases hcan
  | comment text => rw [hc] at hcan; cases hcan

/-- Every slot that the printer looks at is captured, those in front of the children included. -/
structure Captured (d : Detail) (kids : List Draft) : Prop extends d.Sound kids where
  before : ∀ b ∈ kids, b.label.raws.before.isSome = true
  between : d.kind = .rule ∨ d.kind = .declaration ∨ d.kind = .atRule ∧ d.block = true →
    d.raws.between.isSome = true
  after : d.kind = .rule ∨ d.kind = .atRule ∧ d.block = true → d.raws.after.isSome = true
  semicolon : d.isLeaf = false → d.raws.semicolon.isSome = !kids.isEmpty
  marks : d.kind = .comment → d.raws.left.isSome = true ∧ d.raws.right.isSome = true

end Detail

namespace Draft

/-- Whether the top node is a comment. -/
def isComment (b : Draft) : Bool := b.label.kind == .comment

mutual

/-- The text of a draft, without what stands in front of it. -/
def text (closed : Bool) : Draft → String
  | .node d kids =>
    if d.isLeaf then d.leafText closed
    else d.heading ++ textAll (d.raws.semicolon.getD false) kids ++ d.ending

/-- The text of the children of a node, each with what stands in front of it. -/
def textAll (closesLast : Bool) : List Draft → String
  | [] => ""
  | b :: bs =>
    b.label.before ++ text (bs.any (fun b => !isComment b) || closesLast) b ++
      textAll closesLast bs

end

/-- Only a leaf that is no comment can be closed. -/
theorem text_eq_of_isComment {b : Draft} (h : isComment b = true) (closed closed' : Bool) :
    text closed b = text closed' b := by
  obtain ⟨d, kids⟩ := b
  rw [isComment, Branch.label, Detail.kind, beq_iff_eq] at h
  rw [text, text]
  split_ifs
  · unfold Detail.leafText
    cases hc : d.content <;> rw [hc] at h <;> first | rfl | cases h
  · rfl

theorem isComment_of_isLeaf_false {b : Draft} (h : b.label.isLeaf = false) :
    isComment b = false := by
  unfold Detail.isLeaf at h
  rw [isComment, Detail.kind]
  cases hc : b.label.content <;> rw [hc] at h <;> first | rfl | cases h

theorem text_eq_of_isLeaf_false {b : Draft} (h : b.label.isLeaf = false) (closed closed' : Bool) :
    text closed b = text closed' b := by
  obtain ⟨d, kids⟩ := b
  rw [Branch.label] at h
  rw [text, text, h]
  rfl

/-- One more child that is no comment: all children in front of it are closed now. -/
theorem textAll_concat (closesLast : Bool) (bs : List Draft) {b : Draft}
    (hb : isComment b = false) :
    textAll closesLast (bs ++ [b]) = textAll true bs ++ b.label.before ++ text closesLast b := by
  induction bs with
  | nil => simp [textAll]
  | cons a bs ih =>
    rw [List.cons_append, textAll, textAll, ih]
    simp [hb, String.append_assoc]

/-- One more comment changes nothing in front of it. -/
theorem textAll_concat_comment (closesLast : Bool) (bs : List Draft) {b : Draft}
    (hb : isComment b = true) (closed : Bool) :
    textAll closesLast (bs ++ [b]) =
      textAll closesLast bs ++ b.label.before ++ text closed b := by
  induction bs with
  | nil => simp [textAll, text_eq_of_isComment hb closesLast closed]
  | cons a bs ih =>
    rw [List.cons_append, textAll, textAll, ih]
    simp [hb, String.append_assoc]

end Draft

end Stylesheet
