import Stylesheet.Proofs.Tree.Grafted

/-!
# What edits can do to a tree

Every edit is made of a few kinds of changes (`Tree.Change`), and what is to hold after all edits
has to be shown for these only. Each keeps a tree consistent (`Tree.Change.consistent`), and so does
any number of them (`Tree.Changes.consistent`).
-/

namespace Stylesheet

namespace Tree

variable {t u : Tree}

/-- One change of a tree. -/
inductive Change (t : Tree) : Tree → Prop
  /-- More inputs are known. -/
  | inputs (inputs : Array Input) : Change t { t with inputs }
  /-- New nodes, detached. -/
  | graft {b : Draft} (hb : b.Every Detail.Sound) : Change t (t.graft b).2
  /-- Detached nodes are put into a list. -/
  | insert {parent : NodeId} {ids : List NodeId} (hblock : t.hasBlock parent = true)
    (hready : t.Ready parent ids) (sample : Option NodeId) (inFront : Bool) (place : Nat)
    (move : Int → Int) :
    Change t ((t.settle parent sample inFront ids).splice parent place ids move)
  /-- A node is taken out of a list. -/
  | removeAt {parent child : NodeId} {i : Nat} (hindex : t.indexIn? parent child = some i) :
    Change t (t.removeAt parent child i)
  /-- All nodes are taken out of a list. -/
  | removeChildren (parent : NodeId) : Change t (t.removeChildren parent)
  /-- A node gets a block. -/
  | openBlock {id : NodeId} {kind : NodeKind} (hkind : t.kind? id = some kind)
    (hown : kind.canOwn = true) :
    Change t (t.modify id (·.withDetail fun d => { d with block := true }))
  /-- A node says something else. -/
  | setContent {id : NodeId} {n : Node} {new : Content} (hget : t.get? id = some n)
    (hkind : new.kind = n.kind) : Change t (t.setContent id n.content new)
  /-- A node is formatted in another way. -/
  | restyle (id : NodeId) {f : Detail → Detail} (hcontent : ∀ d, (f d).content = d.content)
    (hblock : ∀ d, (f d).block = d.block) : Change t (t.modify id (·.withDetail f))
  /-- A node counts as changed. -/
  | markDirty (id : NodeId) : Change t (t.markDirty id)

/-- Changes, one after the other. -/
def Changes : Tree → Tree → Prop :=
  Relation.ReflTransGen Change

/-! ### Links -/

/-- Changes of formatting, or of where a node was read, keep all links. -/
theorem links_restyle (t : Tree) (id : NodeId) {f : Detail → Detail}
    (hcontent : ∀ d, (f d).content = d.content) (hblock : ∀ d, (f d).block = d.block) :
    (t.modify id (·.withDetail f)).links = t.links := by
  refine links_modify_of (f := (·.withDetail f)) (fun n => ?_) t id
  show (⟨n.parent, n.children, (f n.detail).content.kind, (f n.detail).block⟩ : Node.Links) = _
  rw [hcontent, hblock]
  rfl

/-- Links do not depend on what a node says, as long as its kind stays. -/
theorem links_setContent {id : NodeId} {n : Node} {new : Content} (hget : t.get? id = some n)
    (hkind : new.kind = n.kind) : (t.setContent id n.content new).links = t.links := by
  rw [setContent]
  split_ifs
  · rfl
  · rw [links_markDirty]
    funext j
    rw [links, links, get?_modify]
    split_ifs with hj
    · subst hj
      rw [hget]
      show some (⟨n.parent, n.children, new.kind, n.isContainer⟩ : Node.Links) = _
      rw [hkind]
      rfl
    · rfl

/-- Setting what a node says changes the details of this node only. -/
theorem map_detail_setContent {id : NodeId} {n : Node} (hget : t.get? id = some n) (new : Content)
    (j : NodeId) :
    ((t.setContent id n.content new).get? j).map Node.detail =
      if id = j then some { n.detail with content := new } else (t.get? j).map Node.detail := by
  rw [setContent]
  split_ifs with hsame hj hj
  · rw [← hj, hget, ← hsame]
    rfl
  · rfl
  all_goals
    have hmark :=
      get?_markDirty (t.modify id (·.withDetail fun d => { d with content := new })) id j
    have hmarked : ∀ o : Option Node, (o.map unmark).map Node.detail = o.map Node.detail := by
      rintro (_ | n) <;> rfl
    rw [hmark, apply_ite (Option.map Node.detail), hmarked, ite_self, get?_modify]
  · rw [if_pos hj, ← hj, hget]
    rfl
  · rw [if_neg hj]

theorem size_setContent (t : Tree) (id : NodeId) (old new : Content) :
    (t.setContent id old new).nodes.size = t.nodes.size := by
  rw [setContent]
  split_ifs
  · rfl
  · rw [markDirty]
    split_ifs
    · exact (size_modifyAll _ _ _).trans (size_modify t id _)
    · exact size_modify t id _

/-- The links of an insertion: the list of the container, and the parents of what is put in. -/
theorem links_insert {parent : NodeId} {ids : List NodeId} (hself : parent ∉ ids)
    (sample : Option NodeId) (inFront : Bool) (place : Nat) (move : Int → Int) (j : NodeId) :
    ((t.settle parent sample inFront ids).splice parent place ids move).links j =
      if parent = j then (t.links j).map fun l =>
        { l with children := l.children.take place ++ ids ++ l.children.drop place }
      else if j ∈ ids then (t.links j).map fun l => { l with parent := some parent }
      else t.links j := by
  rw [splice, links_relist, links_settle]
  by_cases hj : parent = j
  · rw [if_pos hj, if_pos hj, if_neg (hj ▸ hself)]
  · rw [if_neg hj, if_neg hj]

/-- The list of one node is another one, and some other nodes have another parent. All other links
are the same. -/
def Relinked (t u : Tree) (parent : NodeId) (f : List NodeId → List NodeId) (ids : List NodeId)
    (up : Option NodeId) : Prop :=
  ∀ j, u.links j =
    if parent = j then (t.links j).map fun l => { l with children := f l.children }
    else if j ∈ ids then (t.links j).map fun l => { l with parent := up }
    else t.links j

namespace Relinked

variable {parent : NodeId} {f : List NodeId → List NodeId} {ids : List NodeId} {up : Option NodeId}

theorem contains (h : t.Relinked u parent f ids up) (j : NodeId) :
    u.contains j = t.contains j := by
  rw [contains_eq_links, contains_eq_links, h]
  split_ifs <;> simp only [Option.isSome_map]

theorem kind (h : t.Relinked u parent f ids up) (j : NodeId) : u.kind? j = t.kind? j := by
  rw [kind?_eq_links, kind?_eq_links, h]
  split_ifs <;> first | rw [Option.map_map]; rfl | rfl

theorem block (h : t.Relinked u parent f ids up) (j : NodeId) : u.hasBlock j = t.hasBlock j := by
  rw [hasBlock_eq_links, hasBlock_eq_links, h]
  split_ifs <;> cases t.links j <;> rfl

/-- The nodes in question get the parent, and no other node gets another one. -/
theorem parent? (h : t.Relinked u parent f ids up) (hself : parent ∉ ids) (j : NodeId) :
    u.parent? j = if j ∈ ids then (t.links j).bind fun _ => up else t.parent? j := by
  rw [parent?_eq_links, parent?_eq_links, h]
  by_cases hj : parent = j
  · rw [if_pos hj, if_neg (hj ▸ hself)]
    cases t.links j <;> rfl
  · rw [if_neg hj]
    split_ifs
    · cases t.links j <;> rfl
    · rfl

/-- The list of the container is changed as told. -/
theorem children_of_links (h : t.Relinked u parent f ids up) {l : Node.Links}
    (hl : t.links parent = some l) : u.children parent = f (t.children parent) := by
  rw [children_eq_links, children_eq_links, h, if_pos rfl, hl]
  rfl

/-- No other list is changed. -/
theorem others (h : t.Relinked u parent f ids up) (j : NodeId) (hj : parent ≠ j) :
    u.children j = t.children j := by
  rw [children_eq_links, children_eq_links, h, if_neg hj]
  split_ifs
  · rw [Option.map_map]
    rfl
  · rfl

end Relinked

/-- Nodes are put into the list of another one, whether the tree stays consistent or not. -/
theorem inserted_of_contains {parent : NodeId} {ids : List NodeId}
    (hparent : t.contains parent = true) (hself : parent ∉ ids)
    (hids : ∀ c ∈ ids, t.contains c = true) (sample : Option NodeId) (inFront : Bool) (place : Nat)
    (move : Int → Int) :
    t.Inserted ((t.settle parent sample inFront ids).splice parent place ids move) parent ids
      place := by
  have hlinks : t.Relinked _ parent (fun list => list.take place ++ ids ++ list.drop place) ids
      (some parent) := links_insert hself sample inFront place move
  have hfound : ∀ j, t.contains j = true → ∃ l, t.links j = some l := fun j hj =>
    Option.isSome_iff_exists.mp ((contains_eq_links t j).symm.trans hj)
  refine ⟨hlinks.contains, hlinks.kind, hlinks.block, fun j => ?_, ?_, hlinks.others⟩
  · rw [hlinks.parent? hself]
    by_cases hmem : j ∈ ids
    · obtain ⟨l, hl⟩ := hfound j (hids j hmem)
      rw [if_pos hmem, if_pos hmem, hl]
      rfl
    · rw [if_neg hmem, if_neg hmem]
  · obtain ⟨l, hl⟩ := hfound parent hparent
    exact hlinks.children_of_links hl

/-- What is put in and stood in no list stands in one now. -/
theorem inserted_splice {parent : NodeId} {ids : List NodeId} (hblock : t.hasBlock parent = true)
    (hready : t.Ready parent ids) (sample : Option NodeId) (inFront : Bool) (place : Nat)
    (move : Int → Int) :
    t.Inserted ((t.settle parent sample inFront ids).splice parent place ids move) parent ids
      place := by
  have hself : parent ∉ ids := fun hmem => hready.outside parent hmem .refl
  exact inserted_of_contains (contains_of_hasBlock hblock) hself hready.contains sample inFront
    place move

/-- What was taken out has no parent, and the rest of the list stays in order. -/
theorem Relinked.removed {parent : NodeId} {f : List NodeId → List NodeId}
    {gone kept : List NodeId} (h : t.Relinked u parent f gone none) (hself : parent ∉ gone)
    (hperm : (t.children parent).Perm (gone ++ kept)) (hkept : f (t.children parent) = kept) :
    t.Removed u parent gone kept := by
  refine ⟨h.contains, h.kind, h.block, fun j => ?_, hperm, ?_, h.others⟩
  · rw [h.parent? hself]
    split_ifs
    · cases t.links j <;> rfl
    · rfl
  · cases hl : t.links parent with
    | none =>
      -- A node that is not there has no list, so nothing is kept of it.
      rw [children_eq_links, hl] at hperm
      rw [children_eq_links, h, if_pos rfl, hl]
      exact (List.append_eq_nil_iff.mp (List.nil_perm.mp hperm)).2.symm
    | some l => exact (h.children_of_links hl).trans hkept

/-- The place at which a child is found is its place in the list. -/
theorem getElem?_of_indexIn? {parent child : NodeId} {i : Nat}
    (h : t.indexIn? parent child = some i) : (t.children parent)[i]? = some child := by
  rw [indexIn?, List.findIdx?_eq_some_iff_getElem] at h
  obtain ⟨hlt, heq, -⟩ := h
  rw [List.getElem?_eq_getElem hlt, beq_iff_eq.mp heq]

/-- Every child has a place. -/
theorem exists_indexIn? {parent child : NodeId} (h : child ∈ t.children parent) :
    ∃ i, t.indexIn? parent child = some i := by
  rw [← Option.isSome_iff_exists, indexIn?, List.findIdx?_isSome, List.any_eq_true]
  exact ⟨child, h, beq_self_eq_true child⟩

/-- The list is cut where one of its nodes stands. -/
theorem split_of_indexIn? {parent child : NodeId} {i : Nat}
    (h : t.indexIn? parent child = some i) :
    ∃ front back, t.children parent = front ++ child :: back ∧ front.length = i := by
  obtain ⟨hlt, hchild⟩ := List.getElem?_eq_some_iff.mp (getElem?_of_indexIn? h)
  refine ⟨(t.children parent).take i, (t.children parent).drop (i + 1), ?_, ?_⟩
  · rw [← hchild, List.getElem_cons_drop, List.take_append_drop]
  · exact List.length_take_of_le (Nat.le_of_lt hlt)

/-- One child is taken out. -/
theorem removed_removeAt (h : t.Consistent) {parent child : NodeId} {i : Nat}
    (hindex : t.indexIn? parent child = some i) :
    t.Removed (t.removeAt parent child i) parent [child] ((t.children parent).eraseIdx i) := by
  have hget := getElem?_of_indexIn? hindex
  obtain ⟨hlt, hchild⟩ := List.getElem?_eq_some_iff.mp hget
  have hmem : child ∈ t.children parent := List.mem_of_getElem? hget
  have hne : parent ≠ child := fun heq => h.not_mem_children_self parent (heq ▸ hmem)
  have hperm : (t.children parent).Perm ([child] ++ (t.children parent).eraseIdx i) := by
    rw [← hchild]
    exact (List.getElem_cons_eraseIdx_perm hlt).symm
  have hlinks : t.Relinked (t.removeAt parent child i) parent (·.eraseIdx i) [child] none := by
    intro j
    rw [links_removeAt t i hne]
    simp only [List.mem_singleton, eq_comm]
  exact hlinks.removed (fun h => hne (List.mem_singleton.mp h)) hperm rfl

/-- All children are taken out. -/
theorem removed_removeChildren (h : t.Consistent) (parent : NodeId) :
    t.Removed (t.removeChildren parent) parent (t.children parent) [] := by
  have hself := h.not_mem_children_self parent
  have hlinks : t.Relinked (t.removeChildren parent) parent (fun _ => []) (t.children parent)
      none := links_removeChildren t parent hself
  exact hlinks.removed hself (by rw [List.append_nil]) rfl

/-! ### Consistency -/

/-- The node has a block; nothing else changes in links. -/
theorem links_openBlock (t : Tree) (id j : NodeId) :
    (t.modify id (·.withDetail fun d => { d with block := true })).links j =
      if id = j then (t.links j).map fun l => { l with block := true } else t.links j :=
  links_modify (fun _ => rfl) t id j

/-- A block is all that is new. -/
theorem sameLists_openBlock (t : Tree) (id : NodeId) :
    t.SameLists (t.modify id (·.withDetail fun d => { d with block := true })) where
  contains := by
    funext j
    rw [contains_eq_links, contains_eq_links, links_openBlock]
    split_ifs <;> simp only [Option.isSome_map]
  parent := by
    funext j
    rw [parent?_eq_links, parent?_eq_links, links_openBlock]
    split_ifs <;> cases t.links j <;> rfl
  children := by
    funext j
    rw [children_eq_links, children_eq_links, links_openBlock]
    split_ifs <;> cases t.links j <;> rfl
  kind := by
    funext j
    rw [kind?_eq_links, kind?_eq_links, links_openBlock]
    split_ifs <;> cases t.links j <;> rfl

/-- A node that may have a block can get one. -/
theorem Consistent.openBlock (h : t.Consistent) {id : NodeId} {kind : NodeKind}
    (hkind : t.kind? id = some kind) (hown : kind.canOwn = true) :
    (t.modify id (·.withDetail fun d => { d with block := true })).Consistent := by
  refine h.of_block (sameLists_openBlock t id) (fun p hp => ?_) fun p hp => ?_
  · rw [hasBlock_eq_links] at hp ⊢
    rw [links_openBlock]
    split_ifs
    · cases hl : t.links p with
      | none => rw [hl] at hp; cases hp
      | some l => rfl
    · exact hp
  · rw [hasBlock_eq_links, links_openBlock] at hp
    split_ifs at hp with hid
    · exact ⟨kind, hid ▸ hkind, hown⟩
    · rw [← hasBlock_eq_links] at hp
      exact h.canOwn p hp

/-- A change keeps a tree consistent. -/
theorem Change.consistent (h : t.Consistent) (hchange : t.Change u) : u.Consistent := by
  cases hchange with
  | inputs inputs => exact h.of_links_eq rfl
  | graft hb => exact h.graft hb
  | insert hblock hready sample inFront place move =>
    exact h.insert hblock hready (inserted_splice hblock hready sample inFront place move)
  | removeAt hindex => exact h.remove (removed_removeAt h hindex)
  | removeChildren parent => exact h.remove (removed_removeChildren h parent)
  | openBlock hkind hown => exact h.openBlock hkind hown
  | setContent hget hkind => exact h.of_links_eq (links_setContent hget hkind)
  | restyle id hcontent hblock => exact h.of_links_eq (links_restyle t id hcontent hblock)
  | markDirty id => exact h.of_links_eq (links_markDirty t id)

/-- Any number of changes keeps a tree consistent. -/
theorem Changes.consistent (h : t.Consistent) (hchanges : t.Changes u) : u.Consistent := by
  induction hchanges with
  | refl => exact h
  | tail _ hchange ih => exact hchange.consistent ih

end Tree

end Stylesheet
