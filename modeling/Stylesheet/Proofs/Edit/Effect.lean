import Stylesheet.Proofs.Edit.Command
import Stylesheet.Proofs.Edit.Ends
import Stylesheet.Proofs.Tree.Midway

/-!
# Lists and cursors through an edit

What is made for insertion leaves the lists and cursors of the tree alone, also when it fails on the
way (`Editing.ends_materialize`). A list of nodes in which no node is named twice
(`Material.Distinct`) is made into nodes of which no one is named twice.

An edit puts nodes into one list (`Tree.Gains`), takes a node out of one (`Tree.Without`), or does
both: a replacement puts something in before it takes the node out, and a move takes the node out
first (`Edit.Effect`).

`Edit.Effect.passage` follows a cursor through an edit, in terms of what left and what entered the
list it stands on.
-/

namespace Stylesheet

/-- A list of nodes names no node twice. The numbers in it are those of nodes before the edit; a
number that is given out only by the edit, from `t` to `u`, is none of them. -/
def Material.Distinct (t u : Tree) : Material → Prop
  | .nodes ids => ids.Nodup ∧ ∀ id ∈ ids, t.contains id = true ∨ u.contains id = false
  | _ => True

/-- The edit, from `t` to `u`, inserts no list that names a node twice. -/
def Edit.Distinct (e : Edit) (t u : Tree) : Prop :=
  ∀ m ∈ e.material?, m.Distinct t u

namespace Editing

open Stylesheet.Tree

variable {t u : Tree}

/-! ### Bags -/

/-- A node that is new in a tree with more nodes was not in the tree. -/
theorem not_contains_of_still (h : t.Still u) {id : NodeId} (hid : u.nodes.size ≤ id.index) :
    t.contains id = false := by
  rw [Bool.eq_false_iff]
  intro hcontains
  have hlt := contains_iff_index_lt.mp (h.contains id hcontains)
  omega

/-- What is made of bags are new nodes, and they are put into lists of new nodes only. -/
theorem building_still (t : Tree) : Building (fun _ => True) t.Still (t.contains · = false)
    (t.contains · = false) where
  push h _ := by
    rw [push_eq_graft]
    exact ⟨h.trans (.graft _ _), not_contains_of_still h (Nat.le_refl _)⟩
  own h := h
  insertLast h hparent _ := h.insertLast hparent _

/-! ### Nodes of the tree -/

/-- A node of the tree is taken as it is, or a new node in its place. -/
theorem ends_adopt (parent : Option NodeId) (id : NodeId) (h : t.Still u) :
    Ends (adopt parent id) u t.Still fun c v => t.Still v ∧ u.Still v ∧ v.contains c = true ∧
      (c = id ∧ u.contains id = true ∨ u.nodes.size ≤ c.index) := by
  refine .adopt parent id h (fun n _ _ _ => ?_) fun n hn _ _ => ?_
  · exact ⟨h.trans (.graft _ _), .graft _ _, (top_graft _ _).1, Or.inr (Nat.le_refl _)⟩
  · have hcontains : u.contains id = true := Option.isSome_iff_exists.mpr ⟨n, hn⟩
    exact ⟨h, .refl _, hcontains, Or.inl ⟨rfl, hcontains⟩⟩

/-- A list that names no node twice gives no node twice: what was copied for one place is not
named at another. -/
theorem ends_adoptEach (parent : Option NodeId) : ∀ (ids : List NodeId) {u : Tree}, t.Still u →
    Ends (ids.mapM (adopt parent)) u t.Still fun cs v => t.Still v ∧ u.Still v ∧
      (ids.Nodup → (∀ id ∈ ids, u.contains id = true ∨ v.contains id = false) →
        cs.Nodup ∧ ∀ c ∈ cs, v.contains c = true ∧ (c ∈ ids ∨ u.nodes.size ≤ c.index))
  | [], u, h => by
    rw [List.mapM_nil]
    exact .pure ⟨h, .refl u, fun _ _ => ⟨List.nodup_nil, nofun⟩⟩
  | id :: ids, u, h => by
    rw [List.mapM_cons]
    refine (ends_adopt parent id h).bind ?_
    rintro c v ⟨hstill, huv, hc, hcase⟩
    refine (ends_adoptEach parent ids hstill).bind ?_
    rintro cs w ⟨hstill', hvw, hrest⟩
    refine .pure ⟨hstill', huv.trans hvw, fun hnodup hnamed => ?_⟩
    rw [List.nodup_cons] at hnodup
    rw [List.forall_mem_cons] at hnamed
    have hsize : u.nodes.size ≤ v.nodes.size := size_le_of_contains huv.contains
    obtain ⟨hcs, hmem⟩ := hrest hnodup.2 fun i hi => (hnamed.2 i hi).imp_left (huv.contains i)
    have hlt := contains_iff_index_lt.mp hc
    refine ⟨List.nodup_cons.mpr ⟨fun hcmem => ?_, hcs⟩, List.forall_mem_cons.mpr ⟨?_, ?_⟩⟩
    · -- The first node is not among the others.
      obtain ⟨hcw, hci | hci⟩ := hmem c hcmem
      · rcases hcase with ⟨rfl, -⟩ | hnew
        · exact hnodup.1 hci
        · rcases hnamed.2 c hci with hold | hnone
          · have := contains_iff_index_lt.mp hold
            omega
          · rw [hcw] at hnone
            cases hnone
      · omega
    · refine ⟨hvw.contains c hc, ?_⟩
      rcases hcase with ⟨rfl, -⟩ | hnew
      · exact Or.inl List.mem_cons_self
      · exact Or.inr hnew
    · intro c' hc'
      obtain ⟨hcw, hci⟩ := hmem c' hc'
      exact ⟨hcw, hci.imp (List.mem_cons_of_mem id) fun h => Nat.le_trans hsize h⟩

/-! ### All materials -/

/-- What is made for insertion leaves lists and cursors alone. -/
theorem still_materialize (parent : Option NodeId) (m : Material) (t : Tree) :
    Ends (materialize parent m) t t.Still fun ids u => t.Still u ∧
      (m.listsNodes = true → m.Distinct t u → ids.Nodup) := by
  cases m with
  | node id =>
    rw [materialize]
    exact (ends_adopt parent id (.refl t)).andReturn fun _ _ h => ⟨h.1, fun h => by cases h⟩
  | nodes ids =>
    rw [materialize]
    -- Only here can a node come back twice: when it is free and is named twice.
    refine (ends_adoptEach parent ids (.refl t)).mono (fun _ h => h) ?_
    exact fun cs u h => ⟨h.1, fun _ hdistinct => (h.2.2 hdistinct.1 hdistinct.2).1⟩
  | bag bag =>
    rw [materialize]
    exact ((building_still t).build (bag.describes fun _ _ _ _ => trivial) (.refl t)).andReturn
      fun _ _ h => ⟨h.1, fun h => by cases h⟩
  | bags bags =>
    rw [materialize]
    refine ((building_still t).buildEach (fun bag _ => bag.describes fun _ _ _ _ => trivial)
      (.refl t)).mono (fun _ h => h) ?_
    exact fun _ _ h => ⟨h.1, fun h => by cases h⟩
  | text css =>
    rw [materialize]
    refine .bind (R := fun _ u => u = t) (.parsed css {} (.refl t) fun _ _ _ => rfl) ?_
    rintro other _ rfl
    exact .changeGet ⟨.graftAll _ _, fun h => by cases h⟩
  | tree other shared =>
    rw [materialize]
    refine .changeGet ⟨?_, fun h => by cases h⟩
    -- Inputs are added first; they are in no list.
    have hinputs : t.Still { t with inputs := t.inputs ++ other.inputs } :=
      .of_links_eq rfl fun _ => rfl
    exact hinputs.trans (.graftAll _ _)

/-- What is made for insertion is on offer, and no node is named twice. -/
theorem ends_materialize (ht : t.Consistent) {parent : Option NodeId}
    (hparent : ∀ p ∈ parent, t.contains p = true) {m : Material} (hm : m.Sound) :
    Ends (materialize parent m) t (fun u => u.Consistent ∧ t.Still u) fun ids u =>
      u.Consistent ∧ t.Still u ∧ t.Extends u ∧ u.Offered parent ids ∧
        (m.Distinct t u → ids.Nodup) := by
  refine ((Ends.of_yields (yields_materialize ht hparent hm)).and
    (still_materialize parent m t)).mono (fun u h => ⟨h.1.consistent ht, h.2⟩) ?_
  rintro ids u ⟨⟨hchanges, hext, hoffered, hnodup⟩, hstill, hlist⟩
  refine ⟨hchanges.consistent ht, hstill, hext, hoffered, fun hdistinct => ?_⟩
  cases hlists : m.listsNodes with
  | true => exact hlist hlists hdistinct
  | false => exact hnodup hlists

end Editing

namespace Tree

variable {t u v : Tree} {p c : NodeId} {k : Nat} {passed ahead : List NodeId}
  {last : Option NodeId}

/-! ### Into a list -/

/-- Something may have been put into a list, after nodes were made for it. When the list is `last`
says, it was put at the end. -/
inductive Gains (t u : Tree) (last : Option NodeId) : Prop
  | still (h : t.Still u)
  | placed {v : Tree} (hstill : t.Still v) {parent : NodeId} {ids : List NodeId} {place : Nat}
    {move : Int → Int} (h : v.Placed u parent ids place move) (hlast : last.isSome → move = id)

namespace Gains

/-- Nodes may have been made in between. -/
theorem of_still (h : t.Still u) (h' : u.Gains v last) : t.Gains v last := by
  cases h' with
  | still hstill => exact .still (h.trans hstill)
  | placed hstill hplaced hlast => exact .placed (h.trans hstill) hplaced hlast

/-- What was in a list stays in it. -/
theorem mem (h : t.Gains u last) {x : NodeId} (hp : t.contains p = true) (hx : x ∈ t.children p) :
    x ∈ u.children p := by
  cases h with
  | still hstill =>
    rw [hstill.children p hp]
    exact hx
  | @placed v hstill parent ids place move hplaced _ =>
    rw [← hstill.children p hp] at hx
    -- Only the list that received the nodes has changed, and it kept its old members.
    by_cases hparent : parent = p
    · subst hparent
      rw [hplaced.list]
      exact mem_put_in.mpr (Or.inl hx)
    · rw [hplaced.others p (hstill.contains p hp) hparent]
      exact hx

/-- No cursor is opened or closed. -/
theorem cursorIds (h : t.Gains u last) (p : NodeId) :
    (u.cursors p).map Cursor.id = (t.cursors p).map Cursor.id := by
  cases h with
  | still hstill => rw [hstill.cursors]
  | placed hstill hplaced _ =>
    rw [hplaced.cursors, hstill.cursors]
    split_ifs
    · exact map_id_moved _ _
    · rfl

/-- The nodes come in behind the cursor or ahead of it, at the end of the list always ahead. -/
theorem passage (h : t.Gains u last) (hmidway : t.Midway p k passed ahead) :
    ∃ passed' ahead', u.Midway p k passed' ahead' ∧
      Passage (fun _ => False) (t.Came u p) passed ahead passed' ahead' ∧
        (last.isSome → ∀ x, t.Came u p x → x ∈ ahead') := by
  cases h with
  | still hstill =>
    refine ⟨passed, ahead, hmidway.still hstill, .refl _ _, fun _ x hx => absurd ?_ hx.1⟩
    rw [← hstill.children p hmidway.contains]
    exact hx.2
  | placed hstill hplaced hlast =>
    obtain ⟨passed', ahead', hmidway', hpassage, hpassed⟩ :=
      hplaced.passage (hmidway.still hstill)
    refine ⟨passed', ahead', hmidway', hpassage.mono (fun _ h => h) fun x hx => ?_,
      fun hsome x hx => ?_⟩
    · rw [Came, hstill.children p hmidway.contains] at hx
      exact hx
    · -- What came in is not among the nodes that were passed.
      have hmem := hx.2
      rw [hmidway'.children, hpassed (hlast hsome), List.mem_append] at hmem
      refine hmem.resolve_left fun hx' => hx.1 ?_
      rw [hmidway.children]
      exact List.mem_append_left _ hx'

end Gains

/-! ### Out of a list -/

/-- The node was taken out of its list, if it stood in one. -/
inductive Without (t : Tree) (c : NodeId) : Tree → Prop
  | detached (h : ∀ p, c ∉ t.children p) : Without t c t
  | taken {u : Tree} {parent : NodeId} {i : Nat} (h : t.Taken u parent c i) : Without t c u

namespace Without

/-- The node stands in no list any more. -/
theorem not_mem (h : t.Without c u) (ht : t.Consistent) (p : NodeId) : c ∉ u.children p := by
  cases h with
  | detached hnone => exact hnone p
  | @taken _ parent i htaken =>
    have hparent := ht.listed parent c (List.mem_of_getElem? htaken.child)
    -- In its own list the node stood once, and in no other list at all.
    by_cases hp : parent = p
    · subst hp
      rw [htaken.list]
      intro hmem
      obtain ⟨hlt, hchild⟩ := List.getElem?_eq_some_iff.mp htaken.child
      have hperm := List.getElem_cons_eraseIdx_perm hlt
      rw [hchild] at hperm
      exact (List.nodup_cons.mp (hperm.nodup_iff.mpr (ht.nodup_children parent))).1 hmem
    · rw [htaken.others p hp]
      intro hmem
      rw [ht.listed p c hmem] at hparent
      exact hp (Option.some.inj hparent).symm

/-- All others stay where they are. -/
theorem mem (h : t.Without c u) {x : NodeId} (hx : x ∈ t.children p) (hne : x ≠ c) :
    x ∈ u.children p := by
  cases h with
  | detached => exact hx
  | @taken _ parent i htaken =>
    by_cases hp : parent = p
    · subst hp
      rw [htaken.list]
      exact mem_of_mem_eraseIdx htaken.child hx hne
    · rw [htaken.others p hp]
      exact hx

/-- Nothing else comes into a list. -/
theorem mem_of_mem (h : t.Without c u) {x : NodeId} (hx : x ∈ u.children p) :
    x ∈ t.children p := by
  cases h with
  | detached => exact hx
  | @taken _ parent i htaken =>
    by_cases hp : parent = p
    · subst hp
      rw [htaken.list] at hx
      exact (List.eraseIdx_sublist _ _).subset hx
    · rwa [htaken.others p hp] at hx

theorem cursorIds (h : t.Without c u) (p : NodeId) :
    (u.cursors p).map Cursor.id = (t.cursors p).map Cursor.id := by
  cases h with
  | detached => rfl
  | taken htaken =>
    rw [htaken.cursors]
    split_ifs
    · exact map_id_moved _ _
    · rfl

/-- A cursor goes on from where it stands: the node is behind it, or is skipped. -/
theorem passage (h : t.Without c u) (hmidway : t.Midway p k passed ahead) :
    ∃ passed' ahead', u.Midway p k passed' ahead' ∧
      Passage (fun x => x = c ∧ x ∈ t.children p) (fun _ => False) passed ahead passed' ahead' := by
  cases h with
  | detached => exact ⟨passed, ahead, hmidway, .refl _ _⟩
  | taken htaken =>
    obtain ⟨passed', ahead', hmidway', hpassage⟩ := htaken.passage hmidway
    refine ⟨passed', ahead', hmidway', hpassage.mono (fun x hx => ?_) fun _ h => h⟩
    obtain ⟨rfl, rfl⟩ := hx
    exact ⟨rfl, List.mem_of_getElem? htaken.child⟩

end Without

/-- Taking a child out of a list. -/
theorem taken_removeAt {parent child : NodeId} {i : Nat}
    (hindex : t.indexIn? parent child = some i) :
    t.Taken (t.removeAt parent child i) parent child i where
  contains p hp := by
    rw [removeAt, contains_eq_links, links_relist, links_detach, links_handOverBefore]
    rw [contains_eq_links] at hp
    split_ifs <;> simpa only [Option.isSome_map] using hp
  child := getElem?_of_indexIn? hindex
  list := by rw [children_removeAt, if_pos rfl]
  others p hp := by rw [children_removeAt, if_neg hp]
  cursors p := by
    rw [removeAt, cursors_relist, (tame_detach _ _).cursors_eq,
      (tame_handOverBefore _ _ _ _).cursors_eq]

end Tree

/-! ### What an edit can do -/

namespace Edit

open Stylesheet.Tree

/-- The node that the edit takes from one place to another. -/
def moved? : Edit → Option NodeId
  | .moveTo id _ | .moveBefore id _ | .moveAfter id _ => some id
  | _ => none

/-- The container at whose end the edit inserts. -/
def appendsTo? : Edit → Option NodeId
  | .append parent _ | .moveTo _ parent => some parent
  | _ => none

/-- Whether the edit takes all children out of a list at once. -/
def removesAll : Edit → Bool
  | .removeAll _ => true
  | _ => false

/-- The edit took the node out of the list of `p`, maybe to put it back at another place. -/
def Leaves (e : Edit) (t u : Tree) (p x : NodeId) : Prop :=
  x ∈ t.children p ∧ (x ∉ u.children p ∨ e.moved? = some x)

/-- The edit put the node into the list of `p`, maybe after taking it out of it. -/
def Enters (e : Edit) (t u : Tree) (p x : NodeId) : Prop :=
  x ∈ u.children p ∧ (x ∉ t.children p ∨ e.moved? = some x)

/-- What becomes of lists and cursors by an edit. -/
inductive Effect (e : Edit) (t u : Tree) : Prop
  | gains (hmoved : e.moved? = none) (h : t.Gains u e.appendsTo?)
  | loses (hlast : e.appendsTo? = none) {id : NodeId} (h : t.Without id u)
  | replaces (hlast : e.appendsTo? = none) {id p : NodeId} (hplace : id ∈ t.children p) {v : Tree}
    (hv : v.Consistent) (h : t.Gains v none) (h' : v.Without id u)
  | moves {id : NodeId} (hmoved : e.moved? = some id) {v : Tree} (h : t.Without id v)
    (h' : v.Gains u e.appendsTo?)

namespace Effect

variable {e : Edit} {t u : Tree} {p : NodeId} {k : Nat} {passed ahead : List NodeId}

theorem cursorIds (h : e.Effect t u) (p : NodeId) :
    (u.cursors p).map Cursor.id = (t.cursors p).map Cursor.id := by
  cases h with
  | gains _ h => exact h.cursorIds p
  | loses _ h => exact h.cursorIds p
  | replaces _ _ _ h h' => exact (h'.cursorIds p).trans (h.cursorIds p)
  | moves _ h h' => exact (h'.cursorIds p).trans (h.cursorIds p)

/-- A cursor moves along with the children, and what is put at the end of the list is ahead. -/
theorem passage (h : e.Effect t u) (ht : t.Consistent) (hmidway : t.Midway p k passed ahead) :
    ∃ passed' ahead', u.Midway p k passed' ahead' ∧
      Passage (e.Leaves t u p) (e.Enters t u p) passed ahead passed' ahead' ∧
        (e.appendsTo? = some p → ∀ x, e.Enters t u p x → x ∈ ahead') := by
  cases h with
  | gains hmoved h =>
    obtain ⟨passed', ahead', hmidway', hpassage, hahead⟩ := h.passage hmidway
    refine ⟨passed', ahead', hmidway', hpassage.mono (fun _ h => h.elim) fun x hx => ?_,
      fun happend x hx => ?_⟩
    · exact ⟨hx.2, Or.inl hx.1⟩
    · obtain ⟨hmem, hnew | hmoved'⟩ := hx
      · exact hahead (Option.isSome_of_eq_some happend) x ⟨hnew, hmem⟩
      · rw [hmoved] at hmoved'
        cases hmoved'
  | loses hlast h =>
    obtain ⟨passed', ahead', hmidway', hpassage⟩ := h.passage hmidway
    refine ⟨passed', ahead', hmidway', hpassage.mono (fun x hx => ?_) (fun _ h => h.elim),
      fun happend => ?_⟩
    · obtain ⟨rfl, hx⟩ := hx
      exact ⟨hx, Or.inl (h.not_mem ht p)⟩
    · rw [hlast] at happend
      cases happend
  | @replaces hlast id p' hplace v hv h h' =>
    obtain ⟨passed₁, ahead₁, hmidway₁, hpassage₁, -⟩ := h.passage hmidway
    obtain ⟨passed₂, ahead₂, hmidway₂, hpassage₂⟩ := h'.passage hmidway₁
    -- The node stood in its list before anything was put in.
    have hold : id ∈ v.children p → id ∈ t.children p := by
      intro hmem
      have hmem' := h.mem (ht.contains_parent (ht.listed p' id hplace)) hplace
      have hparent := hv.listed p' id hmem'
      rw [hv.listed p id hmem] at hparent
      rw [Option.some.inj hparent]
      exact hplace
    refine ⟨passed₂, ahead₂, hmidway₂, (hpassage₁.trans hpassage₂).mono ?_ ?_, fun happend => ?_⟩
    · rintro x (hx | ⟨rfl, hx⟩)
      · exact hx.elim
      · exact ⟨hold hx, Or.inl (h'.not_mem hv p)⟩
    · rintro x (⟨hnew, hx⟩ | hx)
      · exact ⟨h'.mem hx fun heq => hnew (heq ▸ hold (heq ▸ hx)), Or.inl hnew⟩
      · exact hx.elim
    · rw [hlast] at happend
      cases happend
  | @moves id hmoved v h h' =>
    obtain ⟨passed₁, ahead₁, hmidway₁, hpassage₁⟩ := h.passage hmidway
    obtain ⟨passed₂, ahead₂, hmidway₂, hpassage₂, hahead⟩ := h'.passage hmidway₁
    have hout := h.not_mem ht p
    refine ⟨passed₂, ahead₂, hmidway₂, (hpassage₁.trans hpassage₂).mono ?_ ?_,
      fun happend x hx => ?_⟩
    · rintro x (⟨rfl, hx⟩ | hx)
      · exact ⟨hx, Or.inr hmoved⟩
      · exact hx.elim
    · rintro x (hx | ⟨hnew, hx⟩)
      · exact hx.elim
      · refine ⟨hx, ?_⟩
        by_cases heq : x = id
        · exact Or.inr (heq ▸ hmoved)
        · exact Or.inl fun hmem => hnew (h.mem hmem heq)
    · -- Neither a new node nor the one that was taken out was in the list.
      refine hahead (Option.isSome_of_eq_some happend) x ⟨?_, hx.1⟩
      rcases hx.2 with hnew | hmoved'
      · exact fun hmem => hnew (h.mem_of_mem hmem)
      · rw [hmoved] at hmoved'
        exact Option.some.inj hmoved' ▸ hout

end Effect

end Edit

end Stylesheet
