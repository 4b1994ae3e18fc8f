import Stylesheet.Proofs.Edit.Material
import Stylesheet.Proofs.Tree.Cursors

/-!
# Orderly trees

Besides being consistent, a tree that edits and traversals work on has a root as its first node, and
its cursors have numbers that were given out. `Tree.orderly_of_parse` shows this of stylesheets that
are read.

Nodes below the root stay as they are (`Tree.Preserved`) while a pass over them marks them as
visited and moves its cursors. `Tree.Onward` says what a part of a pass leaves alone: marks of nodes
that it does not visit, and cursors that were there before.
-/

namespace Stylesheet

namespace Tree

/-- A consistent tree with a root, and cursors with numbers that were given out. -/
structure Orderly (t : Tree) : Prop where
  consistent : t.Consistent
  rooted : t.kind? rootId = some .root
  numbered : t.Numbered

variable {t u : Tree}

namespace Orderly

/-- What is later than an orderly tree is orderly when it is consistent. -/
theorem later {bound : NodeId → Nat} (ht : t.Orderly) (hu : u.Consistent)
    (hlater : t.Later bound u) : u.Orderly :=
  ⟨hu, LaterBut.kind hlater _ _ ht.rooted, LaterBut.numbered hlater ht.numbered⟩

/-- Cursors may be opened, moved and closed. -/
theorem alike (ht : t.Orderly) (halike : t.Alike u) (hnumbered : u.Numbered) : u.Orderly where
  consistent := ht.consistent.of_links_eq halike.links
  rooted := by
    rw [halike.kind?]
    exact ht.rooted
  numbered := hnumbered

theorem closeCursor (ht : t.Orderly) (p : NodeId) (k : Nat) : (t.closeCursor p k).Orderly :=
  ht.alike (alike_closeCursor t p k) (numbered_closeCursor p k ht.numbered)

theorem advanceCursor (ht : t.Orderly) (p : NodeId) (k : Nat) : (t.advanceCursor p k).Orderly :=
  ht.alike (alike_advanceCursor t p k) (numbered_advanceCursor p k ht.numbered)

theorem openCursor (ht : t.Orderly) {p : NodeId} {k : Nat} (h : t.openCursor p = some (k, u)) :
    u.Orderly :=
  ht.alike (alike_openCursor h) (numbered_openCursor h ht.numbered)

/-- Nodes may be marked as visited. -/
theorem markClean (ht : t.Orderly) (id : NodeId) : (t.markClean id).Orderly where
  consistent := ht.consistent.of_links_eq (links_markClean t id)
  rooted := by
    rw [kind?_eq_links, links_markClean, ← kind?_eq_links]
    exact ht.rooted
  numbered := numbered_markClean id ht.numbered

end Orderly

/-! ### The empty tree -/

theorem consistent_empty : empty.Consistent := by
  have hroot : (Branch.node { content := .root } [] : Draft).Every Detail.Sound :=
    Draft.sound_leaf fun _ => rfl
  have h := consistent_ofDraft (Input.assemble "" false none none none) hroot
  exact h.of_links_eq rfl

theorem orderly_empty : empty.Orderly where
  consistent := consistent_empty
  rooted := rfl
  numbered := by
    intro x n hn c hc
    have hmem : n ∈ empty.nodes.toList := Array.mem_toList_iff.mpr (Array.mem_of_getElem? hn)
    rw [List.mem_singleton.mp hmem] at hc
    exact absurd hc List.not_mem_nil

/-! ### Trees that are read -/

/-- Nodes that were just laid out carry no mark and no cursor. -/
theorem untouched_ofDraft {input : Input} {b : Draft} {x : NodeId} {n : Node}
    (hn : (ofDraft input b).get? x = some n) : Untouched n :=
  untouched_layout b 0 none n (mem_layout_of_get? hn)

theorem kind?_ofDraft (input : Input) (b : Draft) :
    (ofDraft input b).kind? rootId = some b.label.kind := by
  obtain ⟨d, kids⟩ := b
  rw [kind?, get?, ofDraft, layout]
  rfl

/-- A tree that was read is orderly. -/
theorem orderly_of_parse {w : Workspace} {css : String} {options : ParseOptions}
    (h : (parse w css options).1 = .ok t) : t.Orderly := by
  have hconsistent := consistent_of_parse h
  obtain ⟨input, b, -, hb, rfl⟩ := parse_eq_ok h
  refine ⟨hconsistent, ?_, fun x n hn c hc => ?_⟩
  · rw [kind?_ofDraft, (outlineText_eq_ok hb).2.1]
  · rw [(untouched_ofDraft hn).cursors] at hc
    exact absurd hc List.not_mem_nil

/-- None of its nodes counts as visited. -/
theorem not_isClean_of_parse {w : Workspace} {css : String} {options : ParseOptions}
    (h : (parse w css options).1 = .ok t) (x : NodeId) : t.isClean x = false := by
  obtain ⟨input, b, -, -, rfl⟩ := parse_eq_ok h
  refine Bool.eq_false_iff.mpr fun hx => ?_
  obtain ⟨n, hn, hclean⟩ := isClean_iff.mp hx
  rw [(untouched_ofDraft hn).clean] at hclean
  cases hclean

end Tree

/-! ### Trees that are only looked at -/

namespace Tree

variable {t u v w : Tree} {bound bound' : NodeId → Nat} {new new' : List NodeId} {x : NodeId}

/-- Below the root of the first tree, the second one has the same nodes. -/
structure Preserved (t u : Tree) : Prop where
  links : ∀ x, t.Attached x → u.links x = t.links x
  content : ∀ x, t.Attached x → u.content? x = t.content? x

namespace Preserved

theorem refl (t : Tree) : t.Preserved t :=
  ⟨fun _ _ => rfl, fun _ _ => rfl⟩

/-- Lists, links and contents are all that matters. -/
theorem of_eq (hlinks : u.links = t.links) (hcontent : u.content? = t.content?) : t.Preserved u :=
  ⟨fun x _ => congrFun hlinks x, fun x _ => congrFun hcontent x⟩

/-- Attached nodes keep their lists, -/
theorem children (h : t.Preserved u) (hx : t.Attached x) : u.children x = t.children x := by
  rw [children_eq_links, children_eq_links, h.links x hx]

/-- and stay attached. -/
theorem attached (h : t.Preserved u) (hx : t.Attached x) : u.Attached x := by
  induction hx using Relation.ReflTransGen.head_induction_on with
  | refl => exact .refl
  | @head x y hxy hy ih =>
    refine .head ?_ ih
    rw [Under, parent?_eq_links, h.links x (.head hxy hy), ← parent?_eq_links]
    exact hxy

theorem trans (h : t.Preserved u) (h' : u.Preserved v) : t.Preserved v where
  links := fun x hx => (h'.links x (h.attached hx)).trans (h.links x hx)
  content := fun x hx => (h'.content x (h.attached hx)).trans (h.content x hx)

end Preserved

/-- Part of a pass over the tree `t`, from `u` to `v`: some nodes are newly marked as visited, and
the cursors up to a number stay where they are. -/
structure Onward (t : Tree) (bound : NodeId → Nat) (new : List NodeId) (u v : Tree) : Prop where
  orderly : v.Orderly
  preserved : t.Preserved v
  marked : ∀ x, t.Attached x → u.isClean x = true → v.isClean x = true
  fresh : ∀ x, v.isClean x = true → u.isClean x = true ∨ x ∈ new
  cursors : ∀ x, t.Attached x → u.isClean x = true → ∀ k ≤ bound x,
    v.cursorIndex? x k = u.cursorIndex? x k
  lastCursor : ∀ x, u.lastCursor x ≤ v.lastCursor x

namespace Onward

theorem refl (hu : u.Orderly) (hsame : t.Preserved u) : t.Onward bound [] u u :=
  ⟨hu, hsame, fun _ _ h => h, fun _ h => Or.inl h, fun _ _ _ _ _ => rfl, fun _ => Nat.le_refl _⟩

theorem trans (h : t.Onward bound new u v) (h' : t.Onward bound new' v w) :
    t.Onward bound (new ++ new') u w where
  orderly := h'.orderly
  preserved := h'.preserved
  marked := fun x hx hclean => h'.marked x hx (h.marked x hx hclean)
  fresh := by
    intro x hx
    rcases h'.fresh x hx with hx | hx
    · exact (h.fresh x hx).imp_right (List.mem_append_left _)
    · exact Or.inr (List.mem_append_right _ hx)
  cursors := fun x hx hclean k hk =>
    (h'.cursors x hx (h.marked x hx hclean) k hk).trans (h.cursors x hx hclean k hk)
  lastCursor := fun x => Nat.le_trans (h.lastCursor x) (h'.lastCursor x)

/-- Nodes may be passed over less often than was said. -/
theorem mono (h : t.Onward bound new u v) (hle : ∀ x, bound' x ≤ bound x) :
    t.Onward bound' new u v :=
  { h with cursors := fun x hx hclean k hk => h.cursors x hx hclean k (Nat.le_trans hk (hle x)) }

/-- Only cursors are moved. -/
theorem of_alike (hu : u.Orderly) (hsame : t.Preserved u) (h : u.Alike v) (hnumbered : v.Numbered)
    (hcursors : ∀ x, ∀ k ≤ bound x, v.cursorIndex? x k = u.cursorIndex? x k)
    (hlast : ∀ x, u.lastCursor x ≤ v.lastCursor x) : t.Onward bound [] u v where
  orderly := hu.alike h hnumbered
  preserved := hsame.trans (.of_eq h.links h.content)
  marked := fun _ _ hx => h.clean ▸ hx
  fresh := fun _ hx => Or.inl (h.clean ▸ hx)
  cursors := fun x _ _ => hcursors x
  lastCursor := hlast

theorem markClean (hu : u.Orderly) (hsame : t.Preserved u) (x : NodeId) :
    t.Onward bound [x] u (u.markClean x) where
  orderly := hu.markClean x
  preserved := hsame.trans (.of_eq (links_markClean u x) (funext (content?_markClean u x)))
  marked := fun y _ hy => (isClean_markClean_iff u x y).mpr (Or.inr hy)
  fresh := by
    intro y hy
    rcases (isClean_markClean_iff u x y).mp hy with ⟨rfl, -⟩ | hy
    · exact Or.inr (List.mem_singleton_self _)
    · exact Or.inl hy
  cursors := fun y _ _ k _ => cursorIndex?_markClean u x y k
  lastCursor := fun y => Nat.le_of_eq (lastCursor_markClean u x y).symm

/-- A node that was marked before is not new. -/
theorem unmarked (h : t.Onward bound (x :: new) u v) (hx : u.isClean x = true) :
    t.Onward bound new u v where
  __ := h
  fresh := by
    intro y hy
    rcases h.fresh y hy with hy | hy
    · exact Or.inl hy
    · rcases List.mem_cons.mp hy with rfl | hy
      · exact Or.inl hx
      · exact Or.inr hy

/-- A node that was not visited is still not, unless it is among the new ones. -/
theorem not_isClean (h : t.Onward bound new u v) (hx : u.isClean x = false) (hnew : x ∉ new) :
    v.isClean x = false := by
  refine Bool.eq_false_iff.mpr fun hclean => ?_
  rcases h.fresh x hclean with hclean | hmem
  · rw [hx] at hclean
    cases hclean
  · exact hnew hmem

end Onward

end Tree

end Stylesheet
