import Stylesheet.Print.Chunks
import Stylesheet.Proofs.Tree.Shape

/-!
# Trees of one style

What the printer infers depends on how nodes are formatted, of which kind they are and where they
stand. It depends neither on what they say nor on their numbers.

* `Tree.Mirror` says that two trees agree in this, up to a change of numbers.
* `Tree.Mirror.trait_eq` and the lemmas behind it: the printer infers the same in both.
-/

namespace Stylesheet

open Text

/-- Two nodes of one kind with the same formatting, in the same place when numbers change by `ρ`. -/
structure Node.Mirror (ρ : NodeId → NodeId) (n n' : Node) : Prop where
  parent : n'.parent = n.parent.map ρ
  children : n'.children = n.children.map ρ
  kind : n'.kind = n.kind
  container : n'.isContainer = n.isContainer
  raws : n'.raws = n.raws

namespace Tree

variable {ρ : NodeId → NodeId} {t u : Tree} {x y : NodeId}

/-- The nodes of `t` that stand in the tree are nodes of `u`, with their numbers changed by `ρ`. -/
structure Mirror (ρ : NodeId → NodeId) (t u : Tree) : Prop where
  consistent : t.Consistent
  rooted : t.kind? rootId = some .root
  root : ρ rootId = rootId
  distinct : ∀ x y, t.Attached x → t.Attached y → ρ x = ρ y → x = y
  node : ∀ x, t.Attached x → ∃ n n', t.get? x = some n ∧ u.get? (ρ x) = some n' ∧ n.Mirror ρ n'

namespace Mirror

/-! ### Looking around -/

theorem kind?_eq (h : t.Mirror ρ u) (hx : t.Attached x) : u.kind? (ρ x) = t.kind? x := by
  obtain ⟨n, n', hn, hn', hmirror⟩ := h.node x hx
  rw [kind?, kind?, hn, hn']
  exact congrArg some hmirror.kind

theorem parent?_eq (h : t.Mirror ρ u) (hx : t.Attached x) :
    u.parent? (ρ x) = (t.parent? x).map ρ := by
  obtain ⟨n, n', hn, hn', hmirror⟩ := h.node x hx
  rw [parent?, parent?, hn, hn']
  exact hmirror.parent

theorem children_eq (h : t.Mirror ρ u) (hx : t.Attached x) :
    u.children (ρ x) = (t.children x).map ρ := by
  obtain ⟨n, n', hn, hn', hmirror⟩ := h.node x hx
  rw [children, children, hn, hn']
  exact hmirror.children

theorem attached_parent (h : t.Mirror ρ u) (hx : t.Attached x) (hparent : t.parent? x = some y) :
    t.Attached y :=
  hx.parent h.consistent h.rooted hparent

/-- An attached node is in both trees. -/
theorem contains (h : t.Mirror ρ u) (hx : t.Attached x) :
    t.contains x = true ∧ u.contains (ρ x) = true := by
  obtain ⟨n, n', hn, hn', -⟩ := h.node x hx
  rw [Tree.contains, Tree.contains, hn, hn']
  exact ⟨rfl, rfl⟩

/-- Whether a node is the first child of another one. -/
theorem first?_eq_iff (h : t.Mirror ρ u) (hx : t.Attached x) (hy : t.Attached y) :
    u.first? (ρ x) = some (ρ y) ↔ t.first? x = some y := by
  rw [first?, first?, h.children_eq hx, List.head?_map]
  cases hhead : (t.children x).head? with
  | none => simp
  | some c =>
    have hc : t.Attached c := hx.child h.consistent (List.mem_of_head? hhead)
    rw [Option.map_some, Option.some.injEq, Option.some.injEq]
    exact ⟨h.distinct c y hc hy, congrArg ρ⟩

/-- Lines are mirrored up to any length, -/
theorem lineageWithin_eq (h : t.Mirror ρ u) (fuel : Nat) (hx : t.Attached x) :
    u.lineageWithin fuel (ρ x) = (t.lineageWithin fuel x).map ρ := by
  induction fuel generalizing x with
  | zero => rfl
  | succ fuel ih =>
    rw [lineageWithin, lineageWithin, h.parent?_eq hx]
    cases hparent : t.parent? x with
    | none => rfl
    | some p => exact congrArg (ρ x :: ·) (ih (h.attached_parent hx hparent))

theorem attached_of_under (h : t.Mirror ρ u) (hx : t.Attached x)
    (hup : Relation.ReflTransGen t.Under x y) : t.Attached y := by
  induction hup with
  | refl => exact hx
  | tail _ hstep ih => exact h.attached_parent ih hstep

/-- The other tree has room for the line above a node, for its store holds what stands for the nodes
of the line. -/
theorem length_lineageWithin_le (h : t.Mirror ρ u) (fuel : Nat) (hx : t.Attached x) :
    (t.lineageWithin fuel x).length ≤ u.nodes.size := by
  have hline : ∀ y ∈ t.lineageWithin fuel x, t.Attached y :=
    fun y hy => h.attached_of_under hx (Consistent.under_of_mem_lineageWithin hy)
  have hnodup : ((t.lineageWithin fuel x).map fun y => (ρ y).index).Nodup := by
    refine (h.consistent.nodup_lineageWithin fuel x).map_on fun y hy z hz heq => ?_
    exact h.distinct y z (hline y hy) (hline z hz) (congrArg NodeId.mk heq)
  have hsub : (t.lineageWithin fuel x).map (fun y => (ρ y).index) ⊆ List.range u.nodes.size := by
    intro i hi
    obtain ⟨y, hy, rfl⟩ := List.mem_map.mp hi
    obtain ⟨n, n', -, hn', -⟩ := h.node y (hline y hy)
    exact List.mem_range.mpr (index_lt_of_get? hn')
  have hlen := (hnodup.subperm hsub).length_le
  rwa [List.length_map, List.length_range] at hlen

/-- and as a whole. -/
theorem lineage_eq (h : t.Mirror ρ u) (hx : t.Attached x) :
    u.lineage (ρ x) = (t.lineage x).map ρ := by
  rw [lineage, h.lineageWithin_eq _ hx,
    ← h.consistent.lineageWithin_eq (h.contains hx).1 (Nat.le_max_left _ u.nodes.size),
    lineageWithin_of_le (h.length_lineageWithin_le _ hx) (Nat.le_max_right t.nodes.size _)]

theorem shapeWithin_eq (h : t.Mirror ρ u) (fuel : Nat) (hx : t.Attached x) :
    u.shapeWithin fuel (ρ x) = (t.shapeWithin fuel x).map ρ := by
  induction fuel generalizing x with
  | zero => rfl
  | succ fuel ih =>
    rw [shapeWithin, shapeWithin, h.children_eq hx, Branch.map, Branch.mapAll_eq, List.map_map,
      List.map_map]
    refine congrArg (Branch.node (ρ x)) (List.map_congr_left fun c hc => ?_)
    exact ih (hx.child h.consistent hc)

/-- So are branches. -/
theorem shape_eq (h : t.Mirror ρ u) (hx : t.Attached x) : u.shape (ρ x) = (t.shape x).map ρ := by
  have hrise : ∀ y n, t.Rise y n x → n ≤ u.nodes.size := by
    intro y n hup
    have hy : t.Attached y := hup.under.trans hx
    exact Nat.le_of_lt (Nat.lt_of_lt_of_le hup.lt_length (h.length_lineageWithin_le n hy))
  rw [shape, h.shapeWithin_eq _ hx,
    ← h.consistent.shapeWithin_eq x (Nat.le_max_left _ u.nodes.size),
    h.consistent.shapeWithin_of_le hrise (Nat.le_max_right t.nodes.size _)]

theorem attached_of_mem_shape (h : t.Mirror ρ u) (hx : t.Attached x) (hy : y ∈ (t.shape x).toList) :
    t.Attached y :=
  (h.consistent.mem_shape_iff.mp hy).trans hx

theorem attached_of_mem_lineage (h : t.Mirror ρ u) (hx : t.Attached x) (hy : y ∈ t.lineage x) :
    t.Attached y :=
  h.attached_of_under hx (h.consistent.mem_lineage_iff.mp hy)

/-- The top of an attached node is mirrored by that of the other. -/
theorem rootOf_eq (h : t.Mirror ρ u) (hx : t.Attached x) :
    u.rootOf (ρ x) = ρ (t.rootOf x) ∧ t.Attached (t.rootOf x) := by
  rw [rootOf, rootOf, h.lineage_eq hx, List.getLast?_map]
  cases hlast : (t.lineage x).getLast? with
  | none => exact ⟨rfl, hx⟩
  | some top => exact ⟨rfl, h.attached_of_mem_lineage hx (List.mem_of_getLast? hlast)⟩

/-- As many nodes in front pass a test when nodes that agree pass it alike. -/
theorem length_takeWhile_map {p q : NodeId → Bool} {ids : List NodeId}
    (hpq : ∀ y ∈ ids, q (ρ y) = p y) :
    ((ids.map ρ).takeWhile q).length = (ids.takeWhile p).length := by
  induction ids with
  | nil => rfl
  | cons y ids ih =>
    rw [List.forall_mem_cons] at hpq
    rw [List.map_cons, List.takeWhile_cons, List.takeWhile_cons, hpq.1]
    split_ifs
    · exact congrArg Nat.succ (ih hpq.2)
    · rfl

theorem depth_eq (h : t.Mirror ρ u) (hx : t.Attached x) : u.depth (ρ x) = t.depth x := by
  rw [depth, depth, h.lineage_eq hx, ← List.map_tail]
  refine length_takeWhile_map fun y hy => ?_
  rw [h.kind?_eq (h.attached_of_mem_lineage hx (List.mem_of_mem_tail hy))]

/-- The same nodes start the text. -/
theorem startsText_eq (h : t.Mirror ρ u) (hx : t.Attached x) :
    u.startsText (ρ x) = t.startsText x := by
  rw [startsText, startsText, h.parent?_eq hx]
  cases hparent : t.parent? x with
  | none => rfl
  | some p =>
    have hp := h.attached_parent hx hparent
    dsimp only [Option.map_some]
    rw [h.kind?_eq hp]
    congr 1
    rw [Bool.eq_iff_iff, beq_iff_eq, beq_iff_eq]
    exact h.first?_eq_iff hp hx

theorem lastClosed_eq (h : t.Mirror ρ u) {ids : List NodeId} (hids : ∀ y ∈ ids, t.Attached y) :
    u.lastClosed (ids.map ρ) = t.lastClosed ids := by
  have hcount : ((ids.reverse.map ρ).takeWhile fun id => u.kind? id == some .comment).length =
      (ids.reverse.takeWhile fun id => t.kind? id == some .comment).length :=
    length_takeWhile_map fun y hy => by rw [h.kind?_eq (hids y (List.mem_reverse.mp hy))]
  rw [lastClosed, lastClosed, List.length_map, ← List.map_reverse, hcount]

/-! ### Samples of a style -/

/-- The first node that shows something is the same, when nodes that agree show the same. -/
theorem findBelow?_eq (h : t.Mirror ρ u) (hx : t.Attached x) {f g : NodeId → Node → Option α}
    (hfg : ∀ y n n', t.Attached y → t.get? y = some n → n.Mirror ρ n' → g (ρ y) n' = f y n) :
    u.findBelow? (ρ x) g = t.findBelow? x f := by
  have hfind : ∀ ids : List NodeId, (∀ y ∈ ids, t.Attached y) →
      ((ids.map ρ).findSome? fun id => (u.get? id).bind (g id)) =
        ids.findSome? fun id => (t.get? id).bind (f id) := by
    intro ids hids
    induction ids with
    | nil => rfl
    | cons y ids ih =>
      rw [List.forall_mem_cons] at hids
      obtain ⟨n, n', hn, hn', hmirror⟩ := h.node y hids.1
      rw [List.map_cons, List.findSome?_cons, List.findSome?_cons, hn, hn', ih hids.2]
      dsimp only [Option.bind]
      rw [hfg y n n' hids.1 hn hmirror]
  rw [findBelow?, findBelow?, descendants, descendants, h.shape_eq hx, Branch.toList_map,
    ← List.map_tail]
  exact hfind _ fun y hy => h.attached_of_mem_shape hx (List.mem_of_mem_tail hy)

/-- Samples are looked up in the same order, so the same ones are found. -/
theorem sampleBefore?_eq (h : t.Mirror ρ u) (hx : t.Attached x) (kind : NodeKind) :
    u.sampleBefore? (ρ x) kind = t.sampleBefore? x kind :=
  h.findBelow?_eq hx fun y n n' _ _ hmirror => by rw [hmirror.kind, hmirror.raws]

/-- Whether a node is the parent of another one. -/
theorem parent_eq_iff (h : t.Mirror ρ u) {n n' : Node} (hx : t.Attached x) (hy : t.Attached y)
    (hn : t.get? y = some n) (hmirror : n.Mirror ρ n') :
    n'.parent = some (ρ x) ↔ n.parent = some x := by
  rw [hmirror.parent]
  cases hparent : n.parent with
  | none => simp
  | some p =>
    have hp : t.Attached p := by
      refine h.attached_parent hy ?_
      rw [parent?, hn]
      exact hparent
    rw [Option.map_some, Option.some.injEq, Option.some.injEq]
    exact ⟨h.distinct p x hp hx, congrArg ρ⟩

theorem sampleBeforeRule?_eq (h : t.Mirror ρ u) (hx : t.Attached x) :
    u.sampleBeforeRule? (ρ x) = t.sampleBeforeRule? x := by
  refine h.findBelow?_eq hx fun y n n' hy hn hmirror => ?_
  have hparent : (n'.parent == some (ρ x)) = (n.parent == some x) := by
    rw [Bool.eq_iff_iff, beq_iff_eq, beq_iff_eq]
    exact h.parent_eq_iff hx hy hn hmirror
  have hfirst : (u.first? (ρ x) == some (ρ y)) = (t.first? x == some y) := by
    rw [Bool.eq_iff_iff, beq_iff_eq, beq_iff_eq]
    exact h.first?_eq_iff hx hy
  rw [hparent, hfirst, hmirror.container, hmirror.raws]

theorem sampleIndent?_eq (h : t.Mirror ρ u) (hx : t.Attached x) :
    u.sampleIndent? (ρ x) = t.sampleIndent? x := by
  obtain ⟨n, n', hn, hn', hmirror⟩ := h.node x hx
  rw [sampleIndent?, sampleIndent?, hn, hn']
  dsimp only [Option.bind]
  rw [hmirror.raws]
  cases n.raws.indent.filter (· != "") with
  | some indent => rfl
  | none =>
    refine h.findBelow?_eq hx fun y n n' hy hn hmirror => ?_
    rw [hmirror.parent, hmirror.raws]
    cases hparent : n.parent with
    | none => rfl
    | some p =>
      have hp : t.Attached p := by
        refine h.attached_parent hy ?_
        rw [parent?, hn]
        exact hparent
      obtain ⟨m, m', hm, hm', hmm⟩ := h.node p hp
      -- The search leaves out the top itself and its children, so links have to be compared.
      have hsame : (ρ p == ρ x) = (p == x) := by
        rw [Bool.eq_iff_iff, beq_iff_eq, beq_iff_eq]
        exact ⟨h.distinct p x hp hx, congrArg ρ⟩
      have habove : (u.parent? (ρ p) != some (ρ x)) = (t.parent? p != some x) := by
        rw [Bool.eq_iff_iff, bne_iff_ne, bne_iff_ne, parent?, parent?, hm, hm']
        exact not_congr (h.parent_eq_iff hx hp hm hmm)
      dsimp only [Option.map_some]
      rw [hsame, habove]

/-- What the nodes below a node show of a trait. -/
theorem sample?_eq (h : t.Mirror ρ u) (hx : t.Attached x) (trait : Trait) :
    u.sample? (ρ x) trait = t.sample? x trait := by
  -- Each search looks at raws, lists and kinds; the trees agree in these.
  cases trait with
  | beforeRule => exact h.sampleBeforeRule?_eq hx
  | beforeDeclaration => exact h.sampleBefore?_eq hx .declaration
  | beforeComment => exact h.sampleBefore?_eq hx .comment
  | beforeClose =>
    refine h.findBelow?_eq hx fun y n n' _ _ hmirror => ?_
    rw [hmirror.children, hmirror.raws, List.isEmpty_map]
  | beforeOpen =>
    exact h.findBelow?_eq hx fun y n n' _ _ hmirror => by rw [hmirror.kind, hmirror.raws]
  | colon => exact h.findBelow?_eq hx fun y n n' _ _ hmirror => by rw [hmirror.kind, hmirror.raws]
  | emptyBody =>
    refine h.findBelow?_eq hx fun y n n' _ _ hmirror => ?_
    rw [hmirror.container, hmirror.children, hmirror.raws, List.isEmpty_map]
  | indent => exact h.sampleIndent?_eq hx
  | commentLeft => exact h.findBelow?_eq hx fun y n n' _ _ hmirror => by rw [hmirror.raws]
  | commentRight => exact h.findBelow?_eq hx fun y n n' _ _ hmirror => by rw [hmirror.raws]

/-- Whether the last declaration of a block is closed. -/
theorem sampleSemicolon?_eq (h : t.Mirror ρ u) (hx : t.Attached x) :
    u.sampleSemicolon? (ρ x) = t.sampleSemicolon? x := by
  refine h.findBelow?_eq hx fun y n n' hy hn hmirror => ?_
  rw [hmirror.children, hmirror.raws, List.getLast?_map]
  cases hlast : n.children.getLast? with
  | none => rfl
  | some c =>
    have hc : t.Attached c := by
      refine hy.child h.consistent ?_
      rw [children, hn]
      exact List.mem_of_getLast? hlast
    dsimp only [Option.map_some]
    rw [h.kind?_eq hc]

/-! ### What the printer infers -/

section

variable {m : Type → Type} [Monad m] (memory : Memory m) (h : t.Mirror ρ u) (hx : t.Attached x)
  {n n' : Node}
include h hx

/-- What a node does by its own trait is told from samples, -/
theorem ownTrait_eq (trait : Trait) :
    u.ownTrait memory (ρ x) trait = t.ownTrait memory x trait := by
  obtain ⟨htop, hattached⟩ := h.rootOf_eq hx
  rw [ownTrait, ownTrait, htop, h.sample?_eq hattached]

theorem traitOr_eq (trait : Trait) (otherwise : m String) :
    u.traitOr memory (ρ x) trait otherwise = t.traitOr memory x trait otherwise := by
  obtain ⟨htop, hattached⟩ := h.rootOf_eq hx
  rw [traitOr, traitOr, htop, h.sample?_eq hattached]

theorem trait_eq (trait : Trait) : u.trait memory (ρ x) trait = t.trait memory x trait := by
  unfold Tree.trait
  cases trait <;> simp only [h.ownTrait_eq memory hx, h.traitOr_eq memory hx]

/-- unless it was captured. -/
theorem slot_eq (captured : Option String) (trait : Trait) :
    u.slot memory (ρ x) captured trait = t.slot memory x captured trait := by
  cases captured with
  | some text => rfl
  | none => rw [slot, slot, h.parent?_eq hx, h.trait_eq memory hx, Option.isNone_map]

theorem lineBreak_eq (trait : Trait) :
    u.lineBreak memory (ρ x) trait = t.lineBreak memory x trait := by
  rw [lineBreak, lineBreak, h.trait_eq memory hx, h.trait_eq memory hx, h.depth_eq hx]

/-- What is printed in front of a node, behind it and at its end. -/
theorem beforeText_eq (hmirror : n.Mirror ρ n') :
    u.beforeText memory (ρ x) n' = t.beforeText memory x n := by
  rw [beforeText, beforeText, hmirror.raws, hmirror.kind, h.startsText_eq hx,
    h.lineBreak_eq memory hx]

theorem afterText_eq (hmirror : n.Mirror ρ n') :
    u.afterText memory (ρ x) n' = t.afterText memory x n := by
  rw [afterText, afterText, hmirror.raws, hmirror.kind, hmirror.children, hmirror.parent,
    h.slot_eq memory hx, h.lineBreak_eq memory hx, List.isEmpty_map, Option.isNone_map]

theorem closesLast_eq (hmirror : n.Mirror ρ n') :
    u.closesLast memory (ρ x) n' = t.closesLast memory x n := by
  obtain ⟨htop, hattached⟩ := h.rootOf_eq hx
  rw [closesLast, closesLast, hmirror.raws, hmirror.parent, htop, h.sampleSemicolon?_eq hattached,
    Option.isNone_map]

end

end Mirror

end Tree

end Stylesheet
