import Stylesheet.Proofs.Draft.Print
import Stylesheet.Proofs.Print.Remembered

/-!
# Nodes within the output

The chunks of an attached node are a contiguous part of what is printed for the whole tree
(`Tree.Consistent.printed_within`): what is printed for a child stands unchanged in what is printed
for its parent, and so on up to the root. The only thing that the parent decides is whether a
semicolon follows the child (`Tree.closes`).

So each node but the root starts with a chunk of its own (`Tree.Consistent.exists_start`), and one
that is closed by a brace or a semicolon ends with that character
(`Tree.Consistent.exists_closing`).
-/

namespace Stylesheet

namespace Tree

variable {t : Tree} {x p : NodeId} {n : Node}

/-! ### What is printed without notes -/

/-- The chunks of a node that is printed with a semicolon or without. -/
def printed (t : Tree) (closed : Bool) (x : NodeId) : List Chunk :=
  (t.printNode .none closed (t.shape x)).run

/-- Whether a node closes its last child. -/
def closesLastKid (t : Tree) (x : NodeId) (n : Node) : Bool :=
  (t.closesLast .none x n).run

/-- Whether a node is printed with a semicolon, if it can have one: another sibling follows that is
no comment, or the parent closes its last child. -/
def closes (t : Tree) (x : NodeId) : Bool :=
  (t.parent? x).any fun parent => (t.get? parent).any fun p =>
    t.lastClosed p.children != p.children.idxOf x || t.closesLastKid parent p

/-- The chunks of the children of a node. -/
def printedKids (t : Tree) (x : NodeId) (n : Node) (kids : List (Branch NodeId)) : List Chunk :=
  (t.printKids .none (!n.children.isEmpty && t.closesLastKid x n) (t.lastClosed n.children) 0
    kids).run

/-- The first child is printed behind its front, and the others follow. -/
theorem printKids_cons (t : Tree) (closesLast : Bool) (last i : Nat) (b : Branch NodeId)
    (bs : List (Branch NodeId)) :
    ∃ before, (t.printKids .none closesLast last i (b :: bs)).run =
      Chunk.formatting before ++ (t.printNode .none (last != i || closesLast) b).run ++
        (t.printKids .none closesLast last (i + 1) bs).run := by
  rw [printKids]
  cases t.get? b.label with
  | none => exact ⟨"", rfl⟩
  | some n => exact ⟨(t.beforeText .none b.label n).run, rfl⟩

/-- What is printed for a child is a part of what is printed for the children. -/
theorem printKids_within (t : Tree) (closesLast : Bool) (last i : Nat)
    (before after : List (Branch NodeId)) (b : Branch NodeId) :
    (t.printNode .none (last != i + before.length || closesLast) b).run <:+:
      (t.printKids .none closesLast last i (before ++ b :: after)).run := by
  induction before generalizing i with
  | nil =>
    obtain ⟨front, hcons⟩ := t.printKids_cons closesLast last i b after
    exact ⟨Chunk.formatting front, _, hcons.symm⟩
  | cons a before ih =>
    obtain ⟨front, hcons⟩ := t.printKids_cons closesLast last i a (before ++ b :: after)
    have hnext := ih (i + 1)
    rw [Nat.add_assoc, Nat.add_comm 1] at hnext
    rw [List.cons_append, hcons]
    exact hnext.trans (List.suffix_append _ _).isInfix

/-- The text of a leaf as it is printed in the tree, without a semicolon. -/
def leafText (t : Tree) (x : NodeId) (n : Node) : String :=
  match n.content with
  | .root | .rule _ => ""
  | .atRule name params => atRuleHead n.raws name params ++ n.raws.between.getD ""
  | .declaration prop value important =>
    declarationText n.raws (t.slot .none x n.raws.between .colon).run prop value important
  | .comment text =>
    "/*" ++ (t.slot .none x n.raws.left .commentLeft).run ++ text ++
      (t.slot .none x n.raws.right .commentRight).run ++ "*/"

/-- A leaf is one chunk, which a semicolon ends if there is one. -/
theorem printNode_of_isLeaf (hn : t.get? x = some n) (hleaf : n.detail.isLeaf = true)
    (closed : Bool) (kids : List (Branch NodeId)) :
    (t.printNode .none closed (.node x kids)).run =
      [.of x .whole (t.leafText x n ++
        if closed = true ∧ n.kind ≠ .comment then ";" else "")] := by
  unfold Detail.isLeaf at hleaf
  rw [show n.detail.content = n.content from rfl] at hleaf
  rw [printNode, hn, leafText, Node.kind]
  dsimp only
  cases hc : n.content with
  | root => rw [hc] at hleaf; cases hleaf
  | rule selector => rw [hc] at hleaf; cases hleaf
  -- An at-rule is a leaf when it has no block.
  | atRule name params =>
    have hblock : n.isContainer = false := by
      rw [hc] at hleaf
      simpa [Node.isContainer] using hleaf
    dsimp only
    rw [hblock]
    cases closed <;> rfl
  | declaration prop value important => cases closed <;> rfl
  | comment text =>
    dsimp only
    rw [if_neg (fun h => h.2 rfl), String.append_empty]
    rfl

/-- A block starts with a chunk that ends with a brace, and a brace of its own closes it; a rule may
have semicolons behind it. -/
theorem printNode_of_block (hn : t.get? x = some n) (hleaf : n.detail.isLeaf = false)
    (hkind : n.kind ≠ .root) (closed : Bool) (kids : List (Branch NodeId)) :
    ∃ head after tail, (t.printNode .none closed (.node x kids)).run =
      .of x .start (head ++ "\x7b") :: t.printedKids x n kids ++ Chunk.formatting after ++
        .of x .stop "\x7d" :: tail := by
  unfold Detail.isLeaf at hleaf
  rw [show n.detail.content = n.content from rfl] at hleaf
  rw [printNode, hn, printedKids]
  dsimp only
  cases hc : n.content with
  | root => exact absurd (by rw [Node.kind, hc]; rfl) hkind
  -- Both kinds of block open with a brace and close with one; a semicolon may follow a rule.
  | rule selector =>
    refine ⟨RawValue.apply n.raws.selector selector ++
      (t.slot .none x n.raws.between .beforeOpen).run, (t.afterText .none x n).run, ?_⟩
    cases n.children.isEmpty <;> exact ⟨_, List.append_assoc _ _ _⟩
  | atRule name params =>
    have hblock : n.isContainer = true := by
      rw [hc] at hleaf
      simpa [Node.isContainer] using hleaf
    dsimp only
    rw [if_pos hblock]
    refine ⟨atRuleHead n.raws name params ++ (t.slot .none x n.raws.between .beforeOpen).run,
      (t.afterText .none x n).run, [], ?_⟩
    cases n.children.isEmpty <;> rfl
  | declaration prop value important => rw [hc] at hleaf; cases hleaf
  | comment text => rw [hc] at hleaf; cases hleaf

/-- What is printed for the children of a node is a part of what is printed for the node. -/
theorem printNode_within (hn : t.get? x = some n) (hne : n.children.isEmpty = false)
    (hleaf : n.detail.isLeaf = false) (closed : Bool) (kids : List (Branch NodeId)) :
    t.printedKids x n kids <:+: (t.printNode .none closed (.node x kids)).run := by
  by_cases hkind : n.kind = .root
  · have hroot : n.content = .root := by
      rw [Node.kind] at hkind
      cases hc : n.content <;> rw [hc] at hkind <;> first | rfl | cases hkind
    rw [printNode, hn, printedKids, hne]
    dsimp only
    rw [hroot]
    exact (List.prefix_append _ _).isInfix
  · obtain ⟨head, after, tail, hprinted⟩ := printNode_of_block hn hleaf hkind closed kids
    rw [hprinted, List.append_assoc]
    exact (List.suffix_cons _ _).isInfix.trans (List.prefix_append _ _).isInfix

/-- A node with children is no leaf. -/
theorem Consistent.isLeaf_eq_false (ht : t.Consistent) (hn : t.get? x = some n)
    (hne : n.children ≠ []) : n.detail.isLeaf = false := by
  have hchildren : t.children x = n.children := by
    rw [children, hn]
    rfl
  have hblock := ht.block x (by rwa [hchildren])
  -- A node with children has a list, and the kinds with lists are no leaves.
  obtain ⟨kind, hkind, hown⟩ := ht.canOwn x hblock
  rw [kind?, hn, Option.map_some, Option.some.injEq] at hkind
  rw [hasBlock, hn] at hblock
  subst hkind
  rw [Node.kind, Node.content] at hown
  unfold Detail.isLeaf
  cases hc : n.detail.content with
  | root => rfl
  | rule selector => rfl
  | atRule name params => simpa [Node.isContainer] using hblock
  | declaration prop value important => rw [hc] at hown; cases hown
  | comment text => rw [hc] at hown; cases hown

/-- What is printed for a child is a part of what is printed for its parent. -/
theorem Consistent.printed_parent (ht : t.Consistent) (hparent : t.parent? x = some p)
    (closed : Bool) : t.printed (t.closes x) x <:+: t.printed closed p := by
  have hmem := ht.mem_children_iff.mpr hparent
  obtain ⟨n, hn⟩ := Option.isSome_iff_exists.mp (ht.contains_parent hparent)
  have hchildren : t.children p = n.children := by
    rw [children, hn]
    rfl
  rw [hchildren] at hmem
  obtain ⟨before, after, hsplit⟩ := List.append_of_mem hmem
  -- No child is listed twice, so the place of the node is where the list was split.
  have hidx : n.children.idxOf x = before.length := by
    have hnodup := ht.nodup_children p
    rw [hchildren, hsplit] at hnodup
    have hx : x ∉ before := fun hx => List.disjoint_of_nodup_append hnodup hx List.mem_cons_self
    rw [hsplit, List.idxOf_append_of_notMem hx, List.idxOf_cons_self, Nat.add_zero]
  have hcloses : t.closes x =
      (t.lastClosed n.children != 0 + (before.map t.shape).length || t.closesLastKid p n) := by
    rw [closes, hparent, Option.any_some, hn, Option.any_some, hidx, List.length_map, Nat.zero_add]
  rw [printed, printed, ht.shape_eq_node p, hchildren, hcloses]
  have hkids := t.printKids_within (t.closesLastKid p n) (t.lastClosed n.children) 0
    (before.map t.shape) (after.map t.shape) (t.shape x)
  rw [← List.map_cons, ← List.map_append, ← hsplit] at hkids
  have hempty : n.children.isEmpty = false := by
    rw [hsplit]
    cases before <;> rfl
  have hbody := printNode_within hn hempty (ht.isLeaf_eq_false hn (List.ne_nil_of_mem hmem)) closed
    (n.children.map t.shape)
  rw [printedKids, hempty] at hbody
  exact hkids.trans hbody

/-- **What is printed for a node is a part of the output**, with a semicolon if it has to have
one. -/
theorem Consistent.printed_within (ht : t.Consistent) (hroot : t.kind? rootId = some .root)
    (hx : t.Attached x) : t.printed (t.closes x) x <:+: t.chunks rootId := by
  induction hx using Relation.ReflTransGen.head_induction_on with
  | refl =>
    have hcloses : t.closes rootId = false := by
      rw [closes, parent?_rootId ht hroot]
      rfl
    rw [hcloses, ht.chunks_eq]
    exact List.infix_rfl
  | head hparent _ ih => exact (ht.printed_parent hparent _).trans ih

/-! ### The chunks of one node -/

/-- Only the root is a root. -/
theorem Attached.kind_ne_root (ht : t.Consistent) (hx : t.Attached x) (hne : x ≠ rootId)
    (hn : t.get? x = some n) : n.kind ≠ .root := by
  rcases Relation.ReflTransGen.cases_head hx with rfl | ⟨p, hparent, -⟩
  · exact absurd rfl hne
  · have hkind := ht.nested p x (ht.mem_children_iff.mpr hparent)
    rw [kind?, hn] at hkind
    exact fun h => hkind (congrArg some h)

/-- Every node but the root starts with a chunk of its own. -/
theorem Consistent.exists_start (ht : t.Consistent) (hroot : t.kind? rootId = some .root)
    (hx : t.Attached x) (hne : x ≠ rootId) :
    ∃ before phase text after,
      t.chunks rootId = before ++ .of x phase text :: after ∧ phase ≠ .stop := by
  obtain ⟨n, hn⟩ := hx.exists_get? hroot
  obtain ⟨before, after, hwithin⟩ := ht.printed_within hroot hx
  rw [printed, ht.shape_eq_node] at hwithin
  cases hleaf : n.detail.isLeaf with
  | true =>
    rw [printNode_of_isLeaf hn hleaf, List.append_assoc, List.singleton_append] at hwithin
    exact ⟨before, .whole, _, after, hwithin.symm, by decide⟩
  | false =>
    obtain ⟨head, gap, tail, hprinted⟩ := printNode_of_block hn hleaf
      (hx.kind_ne_root ht hne hn) (t.closes x) ((t.children x).map t.shape)
    rw [hprinted, List.append_assoc, List.cons_append, List.cons_append] at hwithin
    exact ⟨before, .start, _, _, hwithin.symm, by decide⟩

/-- The character that closes a node where it stands in the tree, if there is one. -/
def closing? (t : Tree) (x : NodeId) (n : Node) : Option String :=
  if n.kind = .root ∨ n.kind = .comment then none
  else if n.detail.isLeaf then if t.closes x then some ";" else none
  else some "\x7d"

/-- A node that is closed has a chunk that ends with the closing character: its only one, or the one
behind its children. -/
theorem Consistent.exists_closing (ht : t.Consistent) (hroot : t.kind? rootId = some .root)
    (hx : t.Attached x) (hn : t.get? x = some n) {mark : String}
    (hmark : t.closing? x n = some mark) :
    ∃ before phase text after,
      t.chunks rootId = before ++ .of x phase (text ++ mark) :: after ∧
      (n.detail.isLeaf = true ∧ phase = .whole ∧ text = t.leafText x n ∨
        n.detail.isLeaf = false ∧ phase = .stop ∧ text = "") := by
  obtain ⟨before, after, hwithin⟩ := ht.printed_within hroot hx
  rw [printed, ht.shape_eq_node] at hwithin
  rw [closing?] at hmark
  -- A leaf is closed by its semicolon, and a block by its brace.
  split_ifs at hmark with hkind hleaf hcloses
  · rw [not_or] at hkind
    rw [printNode_of_isLeaf hn hleaf, if_pos ⟨hcloses, hkind.2⟩, List.append_assoc,
      List.singleton_append] at hwithin
    cases hmark
    exact ⟨before, .whole, _, after, hwithin.symm, Or.inl ⟨hleaf, rfl, rfl⟩⟩
  · rw [not_or] at hkind
    rw [Bool.not_eq_true] at hleaf
    obtain ⟨head, gap, tail, hprinted⟩ :=
      printNode_of_block hn hleaf hkind.1 (t.closes x) ((t.children x).map t.shape)
    rw [hprinted, List.append_assoc, List.append_assoc, List.cons_append, ← List.append_assoc]
      at hwithin
    cases hmark
    exact ⟨_, .stop, "", _, hwithin.symm, Or.inr ⟨hleaf, rfl, rfl⟩⟩

end Tree

end Stylesheet
