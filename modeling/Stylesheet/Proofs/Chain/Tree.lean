import Stylesheet.Proofs.Draft.Places
import Stylesheet.Proofs.Tree.Change
import Stylesheet.Proofs.Tree.Grafted
import Stylesheet.Proofs.Tree.Retells

/-!
# A tree without its last comment

A comment that stands last at the top of a tree and names a map is taken out before the tree is
printed. What is left is the branch without the comment, with the same nodes under the same numbers
(`Tree.leftOf_withoutLinks`).
-/

namespace Stylesheet

namespace Tree

variable {t u : Tree}

/-! ### Branches in two trees -/

/-- The node is the same in both trees, up to marks and cursors. -/
def SameAt (t u : Tree) (j : NodeId) : Prop :=
  ∀ n, t.get? j = some n →
    ∃ n', u.get? j = some n' ∧ n'.detail = n.detail ∧ n'.parent = n.parent ∧
      n'.children = n.children

mutual

/-- Both trees hold a branch whose nodes are the same in them. -/
theorem Holds.congr {P : NodeId → Prop}
    (hP : ∀ j, P j → t.SameAt u j ∧ ∀ c ∈ t.children j, P c) {parent : Option NodeId}
    {id : NodeId} :
    ∀ b : Draft, P id → t.Holds parent id b → u.Holds parent id b
  | .node d kids, hid, h => by
    obtain ⟨n, hn, hd, hparent, hkids⟩ := h
    obtain ⟨hsame, hchildren⟩ := hP id hid
    obtain ⟨n', hn', hd', hparent', hkids'⟩ := hsame n hn
    rw [children, hn] at hchildren
    refine ⟨n', hn', hd'.trans hd, hparent'.trans hparent, ?_⟩
    rw [hkids']
    exact HoldsAll.congr hP kids hchildren hkids

theorem HoldsAll.congr {P : NodeId → Prop}
    (hP : ∀ j, P j → t.SameAt u j ∧ ∀ c ∈ t.children j, P c) {parent : NodeId}
    {ids : List NodeId} :
    ∀ bs : List Draft, (∀ c ∈ ids, P c) → t.HoldsAll parent ids bs → u.HoldsAll parent ids bs
  | [], _, h => h
  | b :: bs, hids, h => by
    obtain ⟨c, cs, rfl, hb, hbs⟩ := h
    obtain ⟨hc, hcs⟩ := List.forall_mem_cons.mp hids
    exact ⟨c, cs, rfl, Holds.congr hP b hc hb, HoldsAll.congr hP bs hcs hbs⟩

end

theorem HoldsAll.of_concat {parent : NodeId} {ids : List NodeId} {bs : List Draft} {b : Draft}
    (h : t.HoldsAll parent ids (bs ++ [b])) :
    ∃ front last, ids = front ++ [last] ∧ t.HoldsAll parent front bs ∧
      t.Holds (some parent) last b := by
  induction bs generalizing ids with
  | nil =>
    obtain ⟨c, cs, rfl, hb, hcs⟩ := h
    exact ⟨[], c, by rw [show cs = [] from hcs]; rfl, rfl, hb⟩
  | cons a bs ih =>
    obtain ⟨c, cs, rfl, ha, hcs⟩ := h
    obtain ⟨front, last, rfl, hfront, hlast⟩ := ih hcs
    exact ⟨c :: front, last, rfl, ⟨c, front, rfl, ha, hfront⟩, hlast⟩

/-! ### Taking the last child out -/

/-- When the last child is taken out, no node gets its formatting. -/
theorem handOverBefore_last {parent last : NodeId} {front : List NodeId}
    (h : t.children parent = front ++ [last]) :
    t.handOverBefore parent last front.length = t := by
  rw [handOverBefore, h]
  cases front with
  | nil => split_ifs <;> rfl
  | cons a front =>
    rw [if_neg]
    rw [Bool.and_eq_true]
    rintro ⟨-, hzero⟩
    cases hzero

theorem detail_removeAt_last {parent last : NodeId} {front : List NodeId}
    (h : t.children parent = front ++ [last]) (j : NodeId) :
    ((t.removeAt parent last front.length).get? j).map Node.detail =
      (t.get? j).map Node.detail := by
  rw [detail_removeAt, handOverBefore_last h]

/-- Nodes that are neither the child nor its parent stay the same. -/
theorem sameAt_removeAt_last {parent last : NodeId} {front : List NodeId}
    (h : t.children parent = front ++ [last]) (hne : parent ≠ last) {j : NodeId}
    (hparent : parent ≠ j) (hlast : last ≠ j) :
    t.SameAt (t.removeAt parent last front.length) j := by
  intro n hn
  have hdetail := detail_removeAt_last h j
  have hlinks := links_removeAt t front.length hne j
  rw [if_neg hparent, if_neg hlast, links, links] at hlinks
  rw [hn] at hdetail hlinks
  obtain ⟨n', hn', hd⟩ := Option.map_eq_some_iff.mp hdetail
  rw [hn'] at hlinks
  have hsame : n'.links = n.links := Option.some.inj hlinks
  exact ⟨n', hn', hd, congrArg Node.Links.parent hsame, congrArg Node.Links.children hsame⟩

/-- A tree without the last child of its root holds the branch without it. -/
theorem holds_removeAt_last (ht : t.Consistent) {d : Detail} {kids : List Draft} {b : Draft}
    (hold : t.Holds none rootId (.node d (kids ++ [b]))) {front : List NodeId} {last : NodeId}
    (hchildren : t.children rootId = front ++ [last]) :
    (t.removeAt rootId last front.length).Holds none rootId (.node d kids) := by
  obtain ⟨n, hn, hd, hparent, hkids⟩ := hold
  have hlist : t.children rootId = n.children := by rw [children, hn]; rfl
  obtain ⟨front', last', hsplit, hfront, -⟩ := hkids.of_concat
  rw [← hlist, hchildren] at hsplit
  obtain ⟨rfl, hlast⟩ := List.append_inj' hsplit rfl
  obtain rfl : last = last' := List.cons.inj hlast |>.1
  have hmem : last ∈ t.children rootId := by rw [hchildren]; simp
  have hne : rootId ≠ last := fun heq => ht.not_mem_children_self rootId (heq ▸ hmem)
  -- Below the other children stands neither the root nor the child.
  have hP : ∀ j, j ≠ rootId ∧ j ≠ last →
      t.SameAt (t.removeAt rootId last front.length) j ∧
        ∀ c ∈ t.children j, c ≠ rootId ∧ c ≠ last := by
    rintro j ⟨hroot, hnot⟩
    refine ⟨sameAt_removeAt_last hchildren hne (Ne.symm hroot) (Ne.symm hnot), fun c hc => ?_⟩
    have hup := ht.listed j c hc
    constructor
    · rintro rfl
      rw [parent?, hn] at hup
      exact absurd (hparent.symm.trans hup) (Option.some_ne_none j).symm
    · rintro rfl
      rw [ht.listed rootId c hmem] at hup
      exact hroot (Option.some.inj hup).symm
  have hnodup := ht.nodup_children rootId
  rw [hchildren] at hnodup
  have hfrontP : ∀ c ∈ front, c ≠ rootId ∧ c ≠ last := by
    intro c hc
    refine ⟨?_, ?_⟩
    · rintro rfl
      exact ht.not_mem_children_self rootId (by rw [hchildren]; exact List.mem_append_left _ hc)
    · rintro rfl
      exact (List.nodup_append.mp hnodup).2.2 c hc c (List.mem_singleton.mpr rfl) rfl
  -- The root has one child less.
  have hdetail := detail_removeAt_last hchildren rootId
  have hlinks := links_removeAt t front.length hne rootId
  rw [if_pos rfl, links, links] at hlinks
  rw [hn] at hdetail hlinks
  obtain ⟨n', hn', hd'⟩ := Option.map_eq_some_iff.mp hdetail
  rw [hn'] at hlinks
  have hsame := Option.some.inj hlinks
  refine ⟨n', hn', hd'.trans hd, (congrArg Node.Links.parent hsame).trans hparent, ?_⟩
  have hless : n'.children = front := by
    refine (congrArg Node.Links.children hsame).trans ?_
    show n.children.eraseIdx front.length = front
    rw [← hlist, hchildren, List.eraseIdx_append_of_length_le (Nat.le_refl _), Nat.sub_self]
    exact List.append_nil front
  rw [hless]
  exact HoldsAll.congr hP kids hfrontP hfront

theorem size_removeAt_last {parent last : NodeId} {front : List NodeId}
    (h : t.children parent = front ++ [last]) :
    (t.removeAt parent last front.length).nodes.size = t.nodes.size := by
  rw [removeAt, handOverBefore_last h, relist, markDirty, detach]
  split_ifs
  · rw [size_modifyAll, size_modify, size_modify]
  · rw [size_modify, size_modify]

/-- What is left of a tree when its last child is taken out. -/
structure LeftOf (t u : Tree) (b : Draft) (last : NodeId) : Prop where
  consistent : u.Consistent
  holds : u.Holds none rootId b
  size : u.nodes.size = t.nodes.size
  inputs : u.inputs = t.inputs
  details : ∀ j, (u.get? j).map Node.detail = (t.get? j).map Node.detail
  gone : u.parent? last = none

/-- The last child of the root is taken out when it is the only one that names a map. -/
theorem leftOf_withoutLinks (ht : t.Consistent) {d : Detail} {kids : List Draft} {b : Draft}
    (hold : t.Holds none rootId (.node d (kids ++ [b]))) {front : List NodeId} {last : NodeId}
    (hchildren : t.children rootId = front ++ [last]) (hlast : t.namesMap last = true)
    (hfront : ∀ x ∈ front, t.namesMap x = false) :
    t.LeftOf t.withoutLinks (.node d kids) last := by
  have hmem : last ∈ t.children rootId := by rw [hchildren]; simp
  have hne : rootId ≠ last := fun heq => ht.not_mem_children_self rootId (heq ▸ hmem)
  have hindex : t.indexIn? rootId last = some front.length := by
    rw [indexIn?, hchildren, List.findIdx?_append, List.findIdx?_eq_none_iff.mpr]
    · simp
    · intro x hx
      have hnodup := ht.nodup_children rootId
      rw [hchildren] at hnodup
      have := (List.nodup_append.mp hnodup).2.2 x hx last (List.mem_singleton.mpr rfl)
      simpa using this
  -- There is one link to remove, and it is the last child.
  have hfilter : (t.children rootId).reverse.filter t.namesMap = [last] := by
    rw [hchildren, List.reverse_append, List.reverse_singleton, List.singleton_append,
      List.filter_cons_of_pos hlast, List.filter_eq_nil_iff.mpr]
    intro x hx
    rw [hfront x (List.mem_reverse.mp hx)]
    exact Bool.false_ne_true
  rw [withoutLinks, hfilter, List.foldl_cons, List.foldl_nil, withoutChild, hindex]
  exact
    { consistent := (Change.removeAt hindex).consistent ht
      holds := holds_removeAt_last ht hold hchildren
      size := size_removeAt_last hchildren
      inputs := inputs_removeAt ..
      details := detail_removeAt_last hchildren
      gone := by
        rw [parent?_eq_links, links_removeAt t front.length hne, if_neg hne, if_pos rfl]
        cases t.links last <;> rfl }

/-! ### Nodes by their numbers -/

theorem numbers_append (base : Nat) (as bs : List Draft) :
    numbers base (as ++ bs) = numbers base as ++ numbers (base + Branch.sizeAll as) bs := by
  induction as generalizing base with
  | nil => rfl
  | cons a as ih =>
    rw [List.cons_append, numbers, numbers, ih, Branch.sizeAll, Nat.add_assoc]
    rfl

theorem layoutAll_append (base : Nat) (parent : Option NodeId) (as bs : List Draft) :
    layoutAll base parent (as ++ bs) =
      layoutAll base parent as ++ layoutAll (base + Branch.sizeAll as) parent bs := by
  induction as generalizing base with
  | nil => rfl
  | cons a as ih =>
    rw [List.cons_append, layoutAll, layoutAll, ih, Branch.sizeAll, Nat.add_assoc,
      List.append_assoc]

theorem children_ofDraft (i : Input) (d : Detail) (kids : List Draft) :
    (ofDraft i (.node d kids)).children rootId = numbers 1 kids := by
  have hroot := (Stores.of_ofDraft i (.node d kids)).head
  rw [children, show rootId = ⟨0⟩ from rfl, hroot]
  rfl

/-- A node below the root is found among the nodes of the children. -/
theorem get?_ofDraft_succ (i : Input) (d : Detail) (kids : List Draft) (k : Nat) :
    (ofDraft i (.node d kids)).get? ⟨k + 1⟩ = (layoutAll 1 (some rootId) kids)[k]? := by
  show (layout 0 none (.node d kids)).toArray[k + 1]? = _
  rw [List.getElem?_toArray, layout, List.getElem?_cons_succ]
  rfl

/-- The nodes in front of the last child have the same numbers, whatever the last child is. -/
theorem get?_ofDraft_front (i i' : Input) (d d' : Detail) (kids more more' : List Draft) {k : Nat}
    (hk : k < Branch.sizeAll kids) :
    (ofDraft i (.node d (kids ++ more))).get? ⟨k + 1⟩ =
      (ofDraft i' (.node d' (kids ++ more'))).get? ⟨k + 1⟩ := by
  rw [get?_ofDraft_succ, get?_ofDraft_succ, layoutAll_append, layoutAll_append,
    List.getElem?_append_left, List.getElem?_append_left]
  · rwa [length_layoutAll]
  · rwa [length_layoutAll]

theorem get?_ofDraft_last (i : Input) (d e : Detail) (kids : List Draft) :
    (ofDraft i (.node d (kids ++ [.node e []]))).get? ⟨Branch.sizeAll kids + 1⟩ =
      some { detail := e, parent := some rootId, children := [] } := by
  rw [get?_ofDraft_succ, layoutAll_append, List.getElem?_append_right]
  · rw [length_layoutAll, Nat.sub_self]
    rfl
  · rw [length_layoutAll]

end Tree

end Stylesheet
