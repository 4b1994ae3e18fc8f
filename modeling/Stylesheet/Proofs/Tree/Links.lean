import Mathlib.Tactic.SplitIfs
import Stylesheet.Edit.Fields
import Stylesheet.Tree.Basic
import Stylesheet.Tree.Graft
import Stylesheet.Tree.Insert

/-!
# What a change does to one node

Most functions on trees change a node here and there. The lemmas of this module say what is found
under a number afterwards: `get?_modify` and its kind for whole nodes, `detail_…` for what a node
is, and `links_…` for what ties a node to others (`Node.Links`), which formatting, marks and cursors
have no part in.
-/

namespace Stylesheet

/-- What ties a node to others. -/
structure Node.Links where
  parent : Option NodeId
  children : List NodeId
  kind : NodeKind
  block : Bool
deriving Repr, DecidableEq, Inhabited

/-- The links of a node. -/
def Node.links (n : Node) : Node.Links :=
  ⟨n.parent, n.children, n.kind, n.isContainer⟩

namespace Tree

/-- The links of a node of the tree. -/
def links (t : Tree) (id : NodeId) : Option Node.Links :=
  (t.get? id).map Node.links

/-- Whether a node has a block. -/
def hasBlock (t : Tree) (id : NodeId) : Bool :=
  (t.get? id).any Node.isContainer

variable {t : Tree} {id j : NodeId}

theorem parent?_eq_links (t : Tree) (id : NodeId) :
    t.parent? id = (t.links id).bind Node.Links.parent := by
  rw [parent?, links]
  cases t.get? id <;> rfl

theorem children_eq_links (t : Tree) (id : NodeId) :
    t.children id = ((t.links id).map Node.Links.children).getD [] := by
  rw [children, links]
  cases t.get? id <;> rfl

theorem kind?_eq_links (t : Tree) (id : NodeId) :
    t.kind? id = (t.links id).map Node.Links.kind := by
  rw [kind?, links]
  cases t.get? id <;> rfl

theorem hasBlock_eq_links (t : Tree) (id : NodeId) :
    t.hasBlock id = (t.links id).any Node.Links.block := by
  rw [hasBlock, links]
  cases t.get? id <;> rfl

/-! ### Whole nodes -/

/-- One node is changed. -/
theorem get?_modify (t : Tree) (id : NodeId) (f : Node → Node) (j : NodeId) :
    (t.modify id f).get? j = if id = j then (t.get? j).map f else t.get? j := by
  show (t.nodes.modify id.index f)[j.index]? = _
  rw [Array.getElem?_modify]
  by_cases h : id = j
  · rw [if_pos h, if_pos (congrArg NodeId.index h)]
    rfl
  · rw [if_neg h, if_neg fun hindex => h (by cases id; cases j; cases hindex; rfl)]
    rfl

theorem size_modify (t : Tree) (id : NodeId) (f : Node → Node) :
    (t.modify id f).nodes.size = t.nodes.size :=
  Array.size_modify

theorem size_modifyAll (t : Tree) (ids : List NodeId) (f : Node → Node) :
    (t.modifyAll ids f).nodes.size = t.nodes.size := by
  induction ids generalizing t with
  | nil => rfl
  | cons id ids ih =>
    rw [modifyAll, List.foldl_cons]
    exact (ih _).trans (size_modify t id f)

/-- A change that is the same when it is made twice. -/
theorem get?_modifyAll (t : Tree) (ids : List NodeId) {f : Node → Node} (hf : ∀ n, f (f n) = f n)
    (j : NodeId) :
    (t.modifyAll ids f).get? j = if j ∈ ids then (t.get? j).map f else t.get? j := by
  induction ids generalizing t with
  | nil => rw [if_neg List.not_mem_nil]; rfl
  | cons id ids ih =>
    rw [modifyAll, List.foldl_cons]
    refine (ih (t.modify id f)).trans ?_
    rw [get?_modify]
    -- A node that is named again is changed again, which idempotence makes harmless.
    by_cases hid : id = j
    · rw [if_pos hid, if_pos (List.mem_cons.mpr (Or.inl hid.symm))]
      split_ifs
      · rw [Option.map_map]
        exact congrArg (Option.map · (t.get? j)) (funext hf)
      · rfl
    · rw [if_neg hid]
      have hmem : j ∈ id :: ids ↔ j ∈ ids := by
        rw [List.mem_cons]
        exact or_iff_right fun h => hid h.symm
      simp only [hmem]

/-- Behind the last node there is none. -/
theorem get?_of_size_le (h : t.nodes.size ≤ j.index) : t.get? j = none :=
  Array.getElem?_eq_none h

theorem index_lt_of_get? {n : Node} (h : t.get? j = some n) : j.index < t.nodes.size := by
  rcases Nat.lt_or_ge j.index t.nodes.size with hlt | hle
  · exact hlt
  · rw [get?_of_size_le hle] at h
    cases h

/-- The node as it is with a mark less. -/
def unmark (n : Node) : Node :=
  { n with clean := false }

/-- All nodes on the line lose their marks, unless the node itself has none. -/
theorem get?_markDirty (t : Tree) (id j : NodeId) :
    (t.markDirty id).get? j =
      if t.isClean id = true ∧ j ∈ t.lineage id then (t.get? j).map unmark else t.get? j := by
  rw [markDirty]
  by_cases hclean : t.isClean id = true
  · rw [if_pos hclean]
    refine (get?_modifyAll t _ (f := unmark) (fun n => rfl) j).trans ?_
    simp only [hclean, true_and]
  · rw [if_neg hclean, if_neg fun h => hclean h.1]

/-- All nodes of the branch lose their marks. -/
theorem get?_markTreeDirty (t : Tree) (id j : NodeId) :
    (t.markTreeDirty id).get? j =
      if j ∈ (t.shape id).toList then (t.get? j).map unmark else t.get? j :=
  get?_modifyAll t _ (f := unmark) (fun _ => rfl) j

/-! ### Views of nodes -/

section View

variable {β : Type} {view : Node → β}

/-- What is seen of the nodes after a change of one of them. -/
theorem map_modify {f : Node → Node} {g : β → β} (hf : ∀ n, view (f n) = g (view n)) (t : Tree)
    (id j : NodeId) :
    ((t.modify id f).get? j).map view =
      if id = j then ((t.get? j).map view).map g else (t.get? j).map view := by
  rw [get?_modify]
  split_ifs
  · rw [Option.map_map, Option.map_map]
    exact congrArg (Option.map · (t.get? j)) (funext hf)
  · rfl

/-- A change that is not seen. -/
theorem map_modify_of {f : Node → Node} (hf : ∀ n, view (f n) = view n) (t : Tree)
    (id j : NodeId) : ((t.modify id f).get? j).map view = (t.get? j).map view := by
  rw [map_modify (g := fun b => b) hf, Option.map_id']
  exact ite_self _

/-- What a change keeps of a node, it keeps of many. -/
theorem map_modifyAll_of {f : Node → Node} (hf : ∀ n, view (f n) = view n) (t : Tree)
    (ids : List NodeId) (j : NodeId) :
    ((t.modifyAll ids f).get? j).map view = (t.get? j).map view := by
  induction ids generalizing t with
  | nil => rfl
  | cons id ids ih =>
    rw [modifyAll, List.foldl_cons]
    exact (ih _).trans (map_modify_of hf t id j)

theorem map_markDirty (hview : ∀ n, view (unmark n) = view n) (t : Tree) (id j : NodeId) :
    ((t.markDirty id).get? j).map view = (t.get? j).map view := by
  rw [markDirty]
  split_ifs
  · exact map_modifyAll_of hview t _ j
  · rfl

end View

/-! ### Details -/

theorem detail_modify {f : Node → Node} (hf : ∀ n, (f n).detail = n.detail) (t : Tree)
    (id j : NodeId) :
    ((t.modify id f).get? j).map Node.detail = (t.get? j).map Node.detail :=
  map_modify_of hf t id j

theorem detail_markDirty (t : Tree) (id j : NodeId) :
    ((t.markDirty id).get? j).map Node.detail = (t.get? j).map Node.detail :=
  map_markDirty (fun _ => rfl) t id j

theorem detail_relist (t : Tree) (parent : NodeId) (f : List NodeId → List NodeId)
    (move : Int → Int) (j : NodeId) :
    ((t.relist parent f move).get? j).map Node.detail = (t.get? j).map Node.detail := by
  rw [relist, detail_markDirty]
  exact detail_modify (f := fun n => (n.withChildren f).moveCursors move) (fun _ => rfl) t parent j

/-- Only what stands in front of a node can change when a child is taken out. -/
theorem detail_removeAt (t : Tree) (parent child : NodeId) (i : Nat) (j : NodeId) :
    ((t.removeAt parent child i).get? j).map Node.detail =
      ((t.handOverBefore parent child i).get? j).map Node.detail := by
  rw [removeAt, detail_relist]
  exact detail_modify (f := fun n => { n with parent := none }) (fun _ => rfl) _ child j

/-! ### Links -/

/-- A change that has no part in the links. -/
theorem links_modify_of {f : Node → Node} (hf : ∀ n, (f n).links = n.links) (t : Tree)
    (id : NodeId) : (t.modify id f).links = t.links :=
  funext (map_modify_of hf t id)

theorem links_modifyAll_of {f : Node → Node} (hf : ∀ n, (f n).links = n.links) (t : Tree)
    (ids : List NodeId) : (t.modifyAll ids f).links = t.links :=
  funext (map_modifyAll_of hf t ids)

theorem links_markDirty (t : Tree) (id : NodeId) : (t.markDirty id).links = t.links :=
  funext (map_markDirty (fun _ => rfl) t id)

theorem links_markTreeDirty (t : Tree) (id : NodeId) : (t.markTreeDirty id).links = t.links :=
  links_modifyAll_of (f := unmark) (fun _ => rfl) t _

theorem links_setBefore (t : Tree) (before : Option String) (id : NodeId) :
    (t.setBefore before id).links = t.links :=
  links_modify_of (f := (·.withRaws fun r => { r with before })) (fun _ => rfl) t id

/-- A change of the links of one node. -/
theorem links_modify {f : Node → Node} {g : Node.Links → Node.Links}
    (hf : ∀ n, (f n).links = g n.links) (t : Tree) (id j : NodeId) :
    (t.modify id f).links j = if id = j then (t.links j).map g else t.links j :=
  map_modify hf t id j

/-- A change of the links of several nodes, one after the other. -/
theorem links_foldl {step : Tree → NodeId → Tree} {g : Node.Links → Node.Links}
    (hg : ∀ l, g (g l) = g l)
    (hstep : ∀ u id j, (step u id).links j = if id = j then (u.links j).map g else u.links j)
    (ids : List NodeId) (t : Tree) (j : NodeId) :
    (ids.foldl step t).links j = if j ∈ ids then (t.links j).map g else t.links j := by
  induction ids generalizing t with
  | nil => rw [if_neg List.not_mem_nil]; rfl
  | cons id ids ih =>
    rw [List.foldl_cons, ih, hstep]
    by_cases hid : id = j
    · rw [if_pos hid, if_pos (List.mem_cons.mpr (Or.inl hid.symm))]
      split_ifs
      · rw [Option.map_map]
        exact congrArg (Option.map · (t.links j)) (funext hg)
      · rfl
    · have hmem : j ∈ id :: ids ↔ j ∈ ids := by
        rw [List.mem_cons]
        exact or_iff_right fun h => hid h.symm
      rw [if_neg hid]
      simp only [hmem]

/-- Settling a node gives it its parent. -/
theorem links_settleOne (parent : NodeId) (parentIsRoot : Bool) (sampleBefore : Option String)
    (t : Tree) (id j : NodeId) :
    (settleOne parent parentIsRoot sampleBefore t id).links j =
      if id = j then (t.links j).map fun l => { l with parent := some parent } else t.links j := by
  rw [settleOne, links_modify (g := fun l => { l with parent := some parent }) (fun n => rfl),
    links_markTreeDirty]

/-- At the root, only fronts are settled. -/
theorem links_settleAtTop (t : Tree) (parent sample : NodeId) (inFront : Bool) (ids : List NodeId)
    (sampleBefore : Option String) :
    (t.settleAtTop parent sample inFront ids sampleBefore).links = t.links := by
  rw [settleAtTop]
  split_ifs
  · exact links_setBefore t _ sample
  · rfl
  · funext j
    refine (links_foldl (g := id) (fun l => rfl) (fun u id j => ?_) ids t j).trans ?_
    · rw [links_setBefore, Option.map_id]
      split_ifs <;> rfl
    · rw [Option.map_id]
      split_ifs <;> rfl

/-- Nodes that settle in get their parent. -/
theorem links_settle (t : Tree) (parent : NodeId) (sample : Option NodeId) (inFront : Bool)
    (ids : List NodeId) (j : NodeId) :
    (t.settle parent sample inFront ids).links j =
      if j ∈ ids then (t.links j).map fun l => { l with parent := some parent }
      else t.links j := by
  have hfold := fun parentIsRoot sampleBefore => links_foldl
    (g := fun l => { l with parent := some parent }) (fun l => rfl)
    (links_settleOne parent parentIsRoot sampleBefore) ids t j
  unfold settle
  cases sample with
  | none => exact hfold _ _
  | some s =>
    dsimp only
    by_cases hroot : t.isRoot parent = true
    · rw [if_pos hroot, links_settleAtTop]
      exact hfold _ _
    · rw [if_neg hroot]
      exact hfold _ _

/-- The list of one node is changed. -/
theorem links_relist (t : Tree) (parent : NodeId) (f : List NodeId → List NodeId)
    (move : Int → Int) (j : NodeId) :
    (t.relist parent f move).links j =
      if parent = j then (t.links j).map fun l => { l with children := f l.children }
      else t.links j := by
  rw [relist, links_markDirty]
  exact links_modify (fun n => rfl) t parent j

/-- One node loses its parent. -/
theorem links_detach (t : Tree) (id j : NodeId) :
    (t.detach id).links j =
      if id = j then (t.links j).map fun l => { l with parent := none } else t.links j :=
  links_modify (fun _ => rfl) t id j

theorem links_handOverBefore (t : Tree) (parent child : NodeId) (i : Nat) :
    (t.handOverBefore parent child i).links = t.links := by
  rw [handOverBefore]
  split_ifs
  · cases (t.children parent)[1]? with
    | none => rfl
    | some second => exact links_setBefore t _ second
  · rfl

/-- A child goes from the list, and has no parent. -/
theorem links_removeAt (t : Tree) {parent child : NodeId} (i : Nat) (hne : parent ≠ child)
    (j : NodeId) :
    (t.removeAt parent child i).links j =
      if parent = j then (t.links j).map fun l => { l with children := l.children.eraseIdx i }
      else if child = j then (t.links j).map fun l => { l with parent := none }
      else t.links j := by
  rw [removeAt, links_relist, links_detach, links_handOverBefore]
  by_cases hparent : parent = j
  · rw [if_pos hparent, if_pos hparent, if_neg fun h => hne (hparent.trans h.symm)]
  · rw [if_neg hparent, if_neg hparent]

/-- All children go, and have no parent. -/
theorem links_removeChildren (t : Tree) (parent : NodeId) (hself : parent ∉ t.children parent)
    (j : NodeId) :
    (t.removeChildren parent).links j =
      if parent = j then (t.links j).map fun l => { l with children := [] }
      else if j ∈ t.children parent then (t.links j).map fun l => { l with parent := none }
      else t.links j := by
  have hfold := links_foldl (g := fun l => { l with parent := none }) (fun l => rfl) links_detach
    (t.children parent) t j
  rw [removeChildren, links_relist, hfold]
  by_cases hparent : parent = j
  · subst hparent
    rw [if_pos rfl, if_pos rfl, if_neg hself]
  · rw [if_neg hparent, if_neg hparent]

/-- Old nodes keep their places. -/
theorem get?_graft_of_lt (b : Draft) (h : j.index < t.nodes.size) :
    (t.graft b).2.get? j = t.get? j := by
  show (t.nodes ++ (layout t.nodes.size none b).toArray)[j.index]? = t.nodes[j.index]?
  exact Array.getElem?_append_left h

end Tree

end Stylesheet
