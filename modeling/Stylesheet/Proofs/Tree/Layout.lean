import Stylesheet.Tree.Graft

/-!
# Where the nodes of a draft are stored

`Tree.layout` gives the nodes of a branch in the order of their numbers. Here it is read the other
way round: a store that has these nodes from a number on holds the branch.

* `Tree.Stores` says that a list of nodes is found in the store from a number on.
* `Tree.Holds` says that a node of the tree and all that is below it are a given draft.
* `Tree.Stores.holds`: a store with the nodes of a draft holds it.
-/

namespace Stylesheet

namespace Tree

/-! ### The store -/

/-- The nodes `ns` are found in the store under the numbers from `base` on. -/
def Stores (t : Tree) (base : Nat) (ns : List Node) : Prop :=
  ∀ i n, ns[i]? = some n → t.get? ⟨base + i⟩ = some n

namespace Stores

variable {t : Tree} {base : Nat}

theorem head {n : Node} {ns : List Node} (h : t.Stores base (n :: ns)) :
    t.get? ⟨base⟩ = some n :=
  h 0 n rfl

theorem tail {n : Node} {ns : List Node} (h : t.Stores base (n :: ns)) :
    t.Stores (base + 1) ns := by
  intro i m hm
  have := h (i + 1) m (by rw [List.getElem?_cons_succ]; exact hm)
  rwa [Nat.add_assoc, Nat.add_comm 1 i]

theorem left {as bs : List Node} (h : t.Stores base (as ++ bs)) : t.Stores base as := by
  intro i n hn
  have hi : i < as.length := (List.getElem?_eq_some_iff.mp hn).1
  exact h i n (by rw [List.getElem?_append_left hi]; exact hn)

theorem right {as bs : List Node} (h : t.Stores base (as ++ bs)) :
    t.Stores (base + as.length) bs := by
  intro i n hn
  have := h (as.length + i) n (by
    rw [List.getElem?_append_right (Nat.le_add_right _ _), Nat.add_sub_cancel_left]
    exact hn)
  rwa [Nat.add_assoc]

end Stores

mutual

/-- A draft of some size is laid out in as many nodes. -/
theorem length_layout (base : Nat) (parent : Option NodeId) :
    ∀ b : Draft, (layout base parent b).length = b.size
  | .node d kids => by
    rw [layout, List.length_cons, length_layoutAll, Branch.size, Nat.add_comm]

theorem length_layoutAll (base : Nat) (parent : Option NodeId) :
    ∀ bs : List Draft, (layoutAll base parent bs).length = Branch.sizeAll bs
  | [] => rfl
  | b :: bs => by
    rw [layoutAll, List.length_append, length_layout, length_layoutAll, Branch.sizeAll]

end

mutual

/-- The nodes have the details of the draft, in its order. -/
theorem map_detail_layout : ∀ (b : Draft) (base : Nat) (parent : Option NodeId),
    (layout base parent b).map Node.detail = b.toList
  | .node d kids, base, parent => by
    rw [layout, List.map_cons, Branch.toList, map_detail_layoutAll kids]

theorem map_detail_layoutAll : ∀ (bs : List Draft) (base : Nat) (parent : Option NodeId),
    (layoutAll base parent bs).map Node.detail = Branch.listAll bs
  | [], _, _ => rfl
  | b :: bs, base, parent => by
    rw [layoutAll, List.map_append, Branch.listAll, map_detail_layout b, map_detail_layoutAll bs]

end

theorem detail_mem_of_mem_layout {n : Node} {base : Nat} {parent : Option NodeId} {b : Draft}
    (h : n ∈ layout base parent b) : n.detail ∈ b.toList := by
  rw [← map_detail_layout b base parent]
  exact List.mem_map_of_mem h

/-- The draft is stored behind the nodes of the tree. -/
theorem Stores.of_graft (t : Tree) (b : Draft) :
    (t.graft b).2.Stores t.nodes.size (layout t.nodes.size none b) := by
  intro i n hn
  show (t.nodes ++ (layout t.nodes.size none b).toArray)[t.nodes.size + i]? = some n
  rw [Array.getElem?_append_right (Nat.le_add_right _ _), Nat.add_sub_cancel_left,
    List.getElem?_toArray]
  exact hn

/-- A tree of one draft stores it from the start. -/
theorem Stores.of_ofDraft (input : Input) (b : Draft) :
    (ofDraft input b).Stores 0 (layout 0 none b) := by
  intro i n hn
  show (layout 0 none b).toArray[0 + i]? = some n
  rw [Nat.zero_add, List.getElem?_toArray]
  exact hn

/-- A node of such a tree is a node of the layout. -/
theorem mem_layout_of_get? {input : Input} {b : Draft} {x : NodeId} {n : Node}
    (hn : (ofDraft input b).get? x = some n) : n ∈ layout 0 none b := by
  have hget : (layout 0 none b).toArray[x.index]? = some n := hn
  rw [List.getElem?_toArray] at hget
  exact List.mem_of_getElem? hget

theorem size_ofDraft (input : Input) (b : Draft) : (ofDraft input b).nodes.size = b.size := by
  show (layout 0 none b).toArray.size = b.size
  rw [List.size_toArray, length_layout]

/-! ### Nodes and drafts -/

mutual

/-- The node `id`, which stands below `parent`, and all that is below it are the draft. -/
def Holds (t : Tree) (parent : Option NodeId) (id : NodeId) : Draft → Prop
  | .node d kids =>
    ∃ n, t.get? id = some n ∧ n.detail = d ∧ n.parent = parent ∧ t.HoldsAll id n.children kids

/-- The nodes `ids`, which stand below `parent`, are the drafts. -/
def HoldsAll (t : Tree) (parent : NodeId) (ids : List NodeId) : List Draft → Prop
  | [] => ids = []
  | b :: bs => ∃ c cs, ids = c :: cs ∧ t.Holds (some parent) c b ∧ t.HoldsAll parent cs bs

end

mutual

/-- A store with the nodes of a draft holds the draft. -/
theorem Stores.holds {t : Tree} {base : Nat} {parent : Option NodeId} :
    ∀ b : Draft, t.Stores base (layout base parent b) → t.Holds parent ⟨base⟩ b
  | .node d kids, h => by
    rw [layout] at h
    exact ⟨_, h.head, rfl, rfl, Stores.holdsAll kids h.tail⟩

theorem Stores.holdsAll {t : Tree} {base : Nat} {parent : NodeId} :
    ∀ bs : List Draft, t.Stores base (layoutAll base (some parent) bs) →
      t.HoldsAll parent (numbers base bs) bs
  | [], _ => rfl
  | b :: bs, h => by
    rw [layoutAll] at h
    refine ⟨⟨base⟩, numbers (base + b.size) bs, rfl, Stores.holds b h.left, ?_⟩
    have hright := h.right
    rw [length_layout] at hright
    exact Stores.holdsAll bs hright

end

/-- The tree of a draft holds it at its root. -/
theorem holds_ofDraft (input : Input) (b : Draft) : (ofDraft input b).Holds none rootId b :=
  Stores.holds b (Stores.of_ofDraft input b)

/-- A list holds as many drafts as it has nodes. -/
theorem HoldsAll.length_eq {t : Tree} {parent : NodeId} {ids : List NodeId} :
    ∀ {bs : List Draft}, t.HoldsAll parent ids bs → ids.length = bs.length
  | [], h => by rw [HoldsAll] at h; rw [h]; rfl
  | b :: bs, h => by
    rw [HoldsAll] at h
    obtain ⟨c, cs, rfl, -, hcs⟩ := h
    rw [List.length_cons, List.length_cons, hcs.length_eq]

/-- What is held is a node with the details that were drafted, under the right parent. -/
theorem Holds.get?_eq {t : Tree} {parent : Option NodeId} {id : NodeId} {b : Draft}
    (h : t.Holds parent id b) :
    ∃ n, t.get? id = some n ∧ n.detail = b.label ∧ n.parent = parent ∧
      t.HoldsAll id n.children b.kids := by
  obtain ⟨d, kids⟩ := b
  exact h

end Tree

end Stylesheet
