import Mathlib.Tactic.Push
import Stylesheet.Proofs.Edit.Material

/-!
# What edits of lists do

Each edit is put together from allowed changes, also when it fails on the way. When a list of nodes
is inserted that names a node twice, the tree may break (`Tree.Repeats`); all other edits keep to
allowed changes.
-/

namespace Stylesheet

namespace Tree

variable {t u : Tree}

/-- Some list holds a node twice, which is not `spared`. -/
def Repeats (t : Tree) (spared : Option NodeId) : Prop :=
  ∃ p x, some x ≠ spared ∧ 2 ≤ (t.children p).count x

/-- A tree in which a list names a node twice is not consistent. -/
theorem Repeats.not_consistent {spared : Option NodeId} (h : t.Repeats spared) :
    ¬ t.Consistent := by
  obtain ⟨p, x, -, hcount⟩ := h
  intro ht
  have := List.nodup_iff_count_le_one.mp (ht.nodup_children p) x
  omega

theorem children_removeAt (t : Tree) (parent child : NodeId) (i : Nat) (p : NodeId) :
    (t.removeAt parent child i).children p =
      if parent = p then (t.children p).eraseIdx i else t.children p := by
  rw [removeAt, children_eq_links, children_eq_links, links_relist, links_detach,
    links_handOverBefore]
  split_ifs <;> cases t.links p <;> rfl

/-- A node that is there twice stays so when another one is taken out. -/
theorem Repeats.removeAt {parent child : NodeId} {i : Nat} (h : t.Repeats (some child))
    (hindex : t.indexIn? parent child = some i) :
    (t.removeAt parent child i).Repeats (some child) := by
  obtain ⟨p, x, hx, hcount⟩ := h
  refine ⟨p, x, hx, ?_⟩
  rw [children_removeAt]
  split_ifs with hp
  · subst hp
    obtain ⟨hlt, hchild⟩ := List.getElem?_eq_some_iff.mp (getElem?_of_indexIn? hindex)
    -- Another node was taken, so the repeated one is counted as often as before.
    have hperm := List.getElem_cons_eraseIdx_perm hlt
    rw [hchild] at hperm
    rw [← hperm.count_eq, List.count_cons_of_ne fun h => hx (congrArg some h.symm)] at hcount
    exact hcount
  · exact hcount

end Tree

namespace Editing

open Stylesheet.Tree

variable {t u : Tree} {m : Material}

/-- A list of nodes was inserted that names a node twice. -/
def Spoiled (m : Material) (spared : Option NodeId) (t : Tree) : Prop :=
  m.listsNodes = true ∧ t.Repeats spared

/-- Only lists of nodes can name a node twice. -/
theorem Yields.never {e : Editing α} {Q : α → Tree → Prop} {spared : Option NodeId}
    (h : Yields (Spoiled m spared) e t Q) (hlists : m.listsNodes = false) : Yields Never e t Q := by
  intro w
  rcases h w with hS | h
  · rw [Spoiled, hlists] at hS
    exact absurd hS.1 Bool.false_ne_true
  · exact Or.inr h

/-! ### Insertion -/

/-- Nodes on offer are put into a list. -/
theorem yields_splice {parent : NodeId} (hblock : t.hasBlock parent = true) {ids : List NodeId}
    (hoffered : t.Offered (some parent) ids) (hnodup : m.listsNodes = false → ids.Nodup)
    (sample : Option NodeId) (inFront : Bool) (place : Nat) (move : Int → Int)
    {spared : Option NodeId} (hspared : ∀ c ∈ ids, some c ≠ spared) {f : Tree → Tree}
    (hf : f t = (t.settle parent sample inFront ids).splice parent place ids move) :
    Yields (Spoiled m spared) (change f) t fun _ _ => True := by
  by_cases hids : ids.Nodup
  · refine .change ?_ trivial
    rw [hf]
    exact .single (.insert hblock (hoffered.ready hids) _ _ _ _)
  · refine fun w => Or.inl ⟨?_, ?_⟩
    · cases hlists : m.listsNodes with
      | true => rfl
      | false => exact absurd (hnodup hlists) hids
    · -- A node that is named twice stands twice in the list.
      rw [List.nodup_iff_count_le_one] at hids
      push Not at hids
      obtain ⟨x, hx⟩ := hids
      have hmem : x ∈ ids := List.count_pos_iff.mp (by omega)
      have hself : parent ∉ ids := fun hmem => hoffered.outside parent rfl parent hmem .refl
      have hins := inserted_of_contains (contains_of_hasBlock hblock) hself hoffered.contains sample
        inFront place move
      refine ⟨parent, x, hspared x hmem, ?_⟩
      show 2 ≤ ((f t).children parent).count x
      rw [hf, hins.count_list]
      omega

/-- The node has a block. -/
theorem yields_openBlock (t : Tree) (parent : NodeId) :
    Yields Never (openBlock parent) t fun _ u => u.hasBlock parent = true := by
  rw [openBlock]
  refine .bind (R := fun n u => u = t ∧ t.get? parent = some n) (.node parent fun n hn => ⟨rfl, hn⟩)
    ?_
  rintro n u - ⟨rfl, hn⟩
  have hkind : u.kind? parent = some n.kind := by rw [kind?, hn]; rfl
  have hopened : (u.modify parent (·.withDetail fun d => { d with block := true })).hasBlock parent
      = true := by
    rw [hasBlock, get?_modify, if_pos rfl, hn]
    rfl
  -- Declarations and comments have no list; the other three kinds may own one.
  split
  · exact .throw _
  · exact .throw _
  · rename_i hdeclaration hcomment
    refine .change (.single (.openBlock hkind ?_)) hopened
    cases hk : n.kind with
    | declaration => exact absurd hk hdeclaration
    | comment => exact absurd hk hcomment
    | _ => rfl

/-- All ways to insert: the material is made, and put next to a node or at an end of a list. -/
theorem yields_insert (ht : t.Consistent) (hm : m.Sound) {parent : NodeId}
    (hblock : t.hasBlock parent = true) {spared : Option NodeId}
    (hspared : ∀ e ∈ spared, t.parent? e = some parent) {f : List NodeId → Tree → Tree}
    (hf : ∀ ids u, ∃ sample inFront place move,
      f ids u = (u.settle parent sample inFront ids).splice parent place ids move) :
    Yields (Spoiled m spared)
      (do let ids ← materialize (some parent) m; change (f ids); return ids) t fun _ _ => True := by
  have hcontains : ∀ p ∈ some parent, t.contains p = true := by
    rintro p ⟨⟩
    exact contains_of_hasBlock hblock
  refine (yields_materialize ht hcontains hm).bind ?_
  rintro ids u - ⟨hext, hoffered, hnodup⟩
  obtain ⟨sample, inFront, place, move, hsplice⟩ := hf ids u
  refine (yields_splice (hext.keepsBlock hblock) hoffered hnodup sample inFront place move ?_
    hsplice).andReturn fun _ _ _ => trivial
  -- A node with a parent is on no offer.
  intro c hc hspare
  have hparent := hspared c hspare.symm
  rw [← hext.parent? (contains_of_parent? hparent), hoffered.detached c hc] at hparent
  cases hparent

/-- Both ways to insert at an end of a list. -/
theorem yields_insertInside (ht : t.Consistent) (hm : m.Sound) {parent : NodeId}
    {f : List NodeId → Tree → Tree} (hf : ∀ ids u, ∃ sample inFront place move,
      f ids u = (u.settle parent sample inFront ids).splice parent place ids move) :
    Yields (Spoiled m none) (do
      openBlock parent
      let ids ← materialize (some parent) m
      change (f ids)
      return ids) t fun _ _ => True := by
  refine (yields_openBlock t parent).bind ?_
  intro _ u hchanges hblock
  have hspared : ∀ e ∈ (none : Option NodeId), u.parent? e = some parent :=
    fun e he => absurd he (Option.not_mem_none e)
  exact yields_insert (hchanges.consistent ht) hm hblock hspared hf

/-- What a failing or finished insertion leaves is a sequence of changes, here and below. -/
theorem yields_append (ht : t.Consistent) (hm : m.Sound) (parent : NodeId) :
    Yields (Spoiled m none) (append parent m) t fun _ _ => True :=
  yields_insertInside ht hm fun _ _ => ⟨_, _, _, _, rfl⟩

theorem yields_prepend (ht : t.Consistent) (hm : m.Sound) (parent : NodeId) :
    Yields (Spoiled m none) (prepend parent m) t fun _ _ => True :=
  yields_insertInside ht hm fun _ _ => ⟨_, _, _, _, rfl⟩

/-- A node in a list. -/
theorem yields_placeOf (ht : t.Consistent) (id : NodeId) :
    Yields Never (placeOf id) t fun (parent, _) u =>
      u = t ∧ t.parent? id = some parent ∧ t.hasBlock parent = true := by
  rw [placeOf]
  refine .bind (R := fun u v => u = t ∧ v = t) (.tree ⟨rfl, rfl⟩) ?_
  rintro _ _ - ⟨rfl, rfl⟩
  split
  · exact .throw _
  · rename_i parent hparent
    split
    · exact .throw _
    · refine .pure ⟨rfl, hparent, ?_⟩
      exact ht.block parent (List.ne_nil_of_mem (ht.mem_children_iff.mpr hparent))

/-- Both ways to insert next to a node. -/
theorem yields_insertNextTo (ht : t.Consistent) (hm : m.Sound) (exist : NodeId)
    {f : NodeId → Nat → List NodeId → Tree → Tree}
    (hf : ∀ parent i ids u, ∃ sample inFront place move,
      f parent i ids u = (u.settle parent sample inFront ids).splice parent place ids move) :
    Yields (Spoiled m (some exist)) (do
      let (parent, i) ← placeOf exist
      let ids ← materialize (some parent) m
      change (f parent i ids)
      return ids) t fun _ _ => True := by
  refine (yields_placeOf ht exist).bind ?_
  rintro ⟨parent, i⟩ u - ⟨rfl, hparent, hblock⟩
  refine yields_insert ht hm hblock ?_ (hf parent i)
  rintro e ⟨⟩
  exact hparent

theorem yields_insertBefore (ht : t.Consistent) (hm : m.Sound) (exist : NodeId) :
    Yields (Spoiled m (some exist)) (insertBefore exist m) t fun _ _ => True :=
  yields_insertNextTo ht hm exist (f := fun parent i ids u => u.insertInFront parent exist i ids)
    fun _ _ _ _ => ⟨_, _, _, _, rfl⟩

theorem yields_insertAfter (ht : t.Consistent) (hm : m.Sound) (exist : NodeId) :
    Yields (Spoiled m (some exist)) (insertAfter exist m) t fun _ _ => True :=
  yields_insertNextTo ht hm exist (f := fun parent i ids u => u.insertBehind parent exist i ids)
    fun _ _ _ _ => ⟨_, _, _, _, rfl⟩

/-! ### Removal -/

/-- A child is removed in one step. -/
theorem yields_removeChild (t : Tree) (parent child : NodeId) :
    Yields Never (removeChild parent child) t fun _ _ => True := by
  rw [removeChild]
  refine .bind (R := fun u v => u = t ∧ v = t) (.tree ⟨rfl, rfl⟩) ?_
  rintro _ _ - ⟨rfl, rfl⟩
  split
  · exact .throw _
  · rename_i i hindex
    exact .change (.single (.removeAt hindex)) trivial

/-- A node is removed by its parent, if it has one. -/
theorem yields_remove (t : Tree) (id : NodeId) :
    Yields Never (remove id) t fun _ _ => True := by
  rw [remove]
  refine .bind (R := fun _ u => u = t) (.node id fun n hn => rfl) ?_
  rintro n u - rfl
  split
  · exact yields_removeChild u _ id
  · exact .pure trivial

theorem yields_removeAll (t : Tree) (parent : NodeId) :
    Yields Never (removeAll parent) t fun _ _ => True := by
  rw [removeAll]
  refine .bind (R := fun _ u => u = t) (.node parent fun n hn => rfl) ?_
  rintro n u - rfl
  exact .change (.single (.removeChildren parent)) trivial

/-- A removal by cases: the child is in the list or is not. -/
theorem runOn_removeChild (parent child : NodeId) (d : Desk) :
    (removeChild parent child).runOn d =
      match d.tree.indexIn? parent child with
      | none => (.error .notAChild, d)
      | some i => (.ok (), { d with tree := d.tree.removeAt parent child i }) := by
  rw [removeChild, runOn_bind, runOn_tree]
  dsimp only
  cases d.tree.indexIn? parent child with
  | none => rfl
  | some i => rfl

/-- A removal by cases: the node is unknown, in no list, or in that of its parent. -/
theorem runOn_remove (id : NodeId) (d : Desk) :
    (remove id).runOn d =
      match d.tree.get? id with
      | none => (.error .unknownNode, d)
      | some n =>
        match n.parent with
        | none => (.ok (), d)
        | some parent => (removeChild parent id).runOn d := by
  rw [remove, runOn_bind, runOn_node]
  cases d.tree.get? id with
  | none => rfl
  | some n =>
    dsimp only
    cases n.parent <;> rfl

/-- Taking out a node leaves any other node that is there twice. -/
theorem Spoiled.remove {id : NodeId} (h : Spoiled m (some id) t) (w : Workspace) :
    Spoiled m (some id) ((remove id).runOn ⟨t, w⟩).2.tree := by
  rw [runOn_remove]
  dsimp only
  split
  · exact h
  · split
    · exact h
    · rw [runOn_removeChild]
      dsimp only
      split
      · exact h
      · rename_i i hindex
        dsimp only
        -- Removal comes after the list was spoiled, and does not mend it.
        exact ⟨h.1, h.2.removeAt hindex⟩

/-! ### Replacement, moves and copies -/

/-- The node stays in its list while others are put in front of it. -/
theorem yields_replaceWith (ht : t.Consistent) (hm : m.Sound) (id : NodeId) :
    Yields (Spoiled m (some id)) (replaceWith id m) t fun _ _ => True := by
  rw [replaceWith]
  refine .bind (R := fun _ u => u = t) (.node id fun n hn => rfl) ?_
  rintro n u - rfl
  split_ifs
  · exact .pure trivial
  -- An insertion that spoils a list does not stop the command: the node is removed all the same.
  · refine (yields_insertBefore ht hm id).bindOr (fun _ v _ _ => ?_) (fun _ h => h)
      fun _ v h w => ?_
    · exact ((yields_remove v id).andReturn fun _ _ _ => trivial).of_never
    · rw [runOn_bind]
      have hspoiled := h.remove w
      rcases hrun : (remove id).runOn ⟨v, w⟩ with ⟨result, d⟩
      rw [hrun] at hspoiled
      cases result with
      | error x => exact hspoiled
      | ok a => exact hspoiled

/-- A move is a removal and then an insertion. -/
theorem yields_moveTo (ht : t.Consistent) (id parent : NodeId) :
    Yields Never (moveTo id parent) t fun _ _ => True := by
  rw [moveTo]
  refine (yields_remove t id).bind ?_
  intro _ u hchanges _
  have hu := hchanges.consistent ht
  exact ((yields_append hu (m := .node id) trivial parent).never rfl).andReturn
    (Q := fun _ _ => True) fun _ _ _ => trivial

theorem yields_moveBefore (ht : t.Consistent) (id target : NodeId) :
    Yields Never (moveBefore id target) t fun _ _ => True := by
  rw [moveBefore]
  refine (yields_remove t id).bind ?_
  intro _ u hchanges _
  have hu := hchanges.consistent ht
  exact ((yields_insertBefore hu (m := .node id) trivial target).never rfl).andReturn
    (Q := fun _ _ => True) fun _ _ _ => trivial

theorem yields_moveAfter (ht : t.Consistent) (id target : NodeId) :
    Yields Never (moveAfter id target) t fun _ _ => True := by
  rw [moveAfter]
  refine (yields_remove t id).bind ?_
  intro _ u hchanges _
  have hu := hchanges.consistent ht
  exact ((yields_insertAfter hu (m := .node id) trivial target).never rfl).andReturn
    (Q := fun _ _ => True) fun _ _ _ => trivial

/-- A detached copy. -/
theorem yields_cloneNode (ht : t.Consistent) (id : NodeId) :
    Yields Never (cloneNode id) t fun _ _ => True := by
  rw [cloneNode]
  refine .bind (R := fun _ u => u = t) (.node id fun n hn => rfl) ?_
  rintro n u - rfl
  refine .bind (R := fun _ _ => True)
    (.changeGet (.single (.graft (ht.sound_draft id))) trivial) ?_
  intro copy v _ _
  refine .bind (R := fun _ _ => True) (.change (.single (.restyle copy ?_ ?_)) trivial) ?_
  · exact fun d => rfl
  · exact fun d => rfl
  · exact fun _ _ _ _ => .pure trivial

/-- The copy stands in no list, so it can be put in. -/
theorem yields_cloneBefore (ht : t.Consistent) (id : NodeId) :
    Yields Never (cloneBefore id) t fun _ _ => True := by
  rw [cloneBefore]
  refine (yields_cloneNode ht id).bind ?_
  intro copy u hchanges _
  have hu := hchanges.consistent ht
  exact ((yields_insertBefore hu (m := .node copy) trivial id).never rfl).andReturn
    (Q := fun _ _ => True) fun _ _ _ => trivial

theorem yields_cloneAfter (ht : t.Consistent) (id : NodeId) :
    Yields Never (cloneAfter id) t fun _ _ => True := by
  rw [cloneAfter]
  refine (yields_cloneNode ht id).bind ?_
  intro copy u hchanges _
  have hu := hchanges.consistent ht
  exact ((yields_insertAfter hu (m := .node copy) trivial id).never rfl).andReturn
    (Q := fun _ _ => True) fun _ _ _ => trivial

end Editing

end Stylesheet
