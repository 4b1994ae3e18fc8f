import Mathlib.Data.List.Nodup
import Mathlib.Data.List.Perm.Subperm
import Mathlib.Logic.Relation
import Stylesheet.Proofs.Draft.Basic
import Stylesheet.Proofs.Tree.Links

/-!
# Consistent trees

In a consistent tree the lists of children and the links to parents say the same, no node is above
itself, a root stands in no list, and only containers have a list.

* `Tree.Consistent.isAncestor_iff`: going up from a node, the store is large enough to reach all
  nodes above it.
* `Tree.Consistent.insert` and `Tree.Consistent.remove`: detached nodes may be put into a list, and
  nodes taken out of it.
-/

namespace Stylesheet

namespace Tree

/-- The node `p` is the parent of `c`. -/
def Under (t : Tree) (c p : NodeId) : Prop :=
  t.parent? c = some p

/-- Lists and links say the same, and only containers have a list. -/
structure Consistent (t : Tree) : Prop where
  contains : ∀ p, ∀ c ∈ t.children p, t.contains c = true
  listed : ∀ p, ∀ c ∈ t.children p, t.parent? c = some p
  once : ∀ c p, t.parent? c = some p → (t.children p).count c = 1
  acyclic : ∀ id, ¬ Relation.TransGen t.Under id id
  nested : ∀ p, ∀ c ∈ t.children p, t.kind? c ≠ some .root
  block : ∀ p, t.children p ≠ [] → t.hasBlock p = true
  canOwn : ∀ p, t.hasBlock p = true → ∃ kind, t.kind? p = some kind ∧ kind.canOwn = true

variable {t t' : Tree}

theorem contains_eq_links (t : Tree) (id : NodeId) : t.contains id = (t.links id).isSome := by
  rw [Tree.contains, links, Option.isSome_map]

/-- A node with a parent is there. -/
theorem contains_of_parent? {c p : NodeId} (h : t.parent? c = some p) : t.contains c = true := by
  rw [parent?] at h
  rw [Tree.contains]
  cases hget : t.get? c with
  | none => rw [hget] at h; cases h
  | some n => rfl

/-- All that stands below a node of the store is in the store. -/
theorem contains_of_below {x y : NodeId} (hy : t.contains y = true)
    (hup : Relation.ReflTransGen t.Under x y) : t.contains x = true := by
  rcases hup.cases_head with rfl | ⟨p, hparent, -⟩
  · exact hy
  · exact contains_of_parent? hparent

/-- The nodes have the same kinds, parents and lists; there may be more blocks. -/
structure SameLists (t t' : Tree) : Prop where
  contains : t'.contains = t.contains
  parent : t'.parent? = t.parent?
  children : t'.children = t.children
  kind : t'.kind? = t.kind?

namespace SameLists

theorem refl (t : Tree) : t.SameLists t :=
  ⟨rfl, rfl, rfl, rfl⟩

/-- What is still under a node was under it before. -/
theorem under (h : t.SameLists t') : t'.Under = t.Under := by
  funext c p
  rw [Under, Under, h.parent]

/-- Lists are the same where links are. -/
theorem of_links_eq (hlinks : t'.links = t.links) : t.SameLists t' where
  contains := by
    funext j
    rw [contains_eq_links, contains_eq_links, hlinks]
  parent := by
    funext j
    rw [parent?_eq_links, parent?_eq_links, hlinks]
  children := by
    funext j
    rw [children_eq_links, children_eq_links, hlinks]
  kind := by
    funext j
    rw [kind?_eq_links, kind?_eq_links, hlinks]

end SameLists

/-- Blocks may be opened where they are allowed. -/
theorem Consistent.of_block (h : t.Consistent) (hsame : t.SameLists t')
    (hblock : ∀ p, t.hasBlock p = true → t'.hasBlock p = true)
    (hown : ∀ p, t'.hasBlock p = true → ∃ kind, t.kind? p = some kind ∧ kind.canOwn = true) :
    t'.Consistent := by
  constructor
  · rw [hsame.children, hsame.contains]; exact h.contains
  · rw [hsame.children, hsame.parent]; exact h.listed
  · rw [hsame.children, hsame.parent]; exact h.once
  · rw [hsame.under]; exact h.acyclic
  · rw [hsame.children, hsame.kind]; exact h.nested
  · rw [hsame.children]; exact fun p hne => hblock p (h.block p hne)
  · rw [hsame.kind]; exact hown

/-- Only the links count. -/
theorem Consistent.of_links_eq (h : t.Consistent) (hlinks : t'.links = t.links) :
    t'.Consistent := by
  have hblock : t'.hasBlock = t.hasBlock := by
    funext j
    rw [hasBlock_eq_links, hasBlock_eq_links, hlinks]
  refine h.of_block (.of_links_eq hlinks) ?_ ?_
  · rw [hblock]
    exact fun p hp => hp
  · rw [hblock]
    exact h.canOwn

namespace Consistent

/-- A node is in the list of its parent and in no other. -/
theorem mem_children_iff (h : t.Consistent) {c p : NodeId} :
    c ∈ t.children p ↔ t.parent? c = some p := by
  refine ⟨h.listed p c, fun hparent => ?_⟩
  have hcount := h.once c p hparent
  exact List.count_pos_iff.mp (by rw [hcount]; exact Nat.one_pos)

/-- No list names a node twice. -/
theorem nodup_children (h : t.Consistent) (p : NodeId) : (t.children p).Nodup := by
  rw [List.nodup_iff_count_eq_one]
  intro c hc
  exact h.once c p (h.listed p c hc)

/-- The parent of a node is there. -/
theorem contains_parent (h : t.Consistent) {c p : NodeId} (hparent : t.parent? c = some p) :
    t.contains p = true := by
  have hmem := h.mem_children_iff.mpr hparent
  rw [children] at hmem
  rw [Tree.contains]
  cases hget : t.get? p with
  | none => rw [hget] at hmem; exact absurd hmem List.not_mem_nil
  | some n => rfl

/-- No node lists itself. -/
theorem not_mem_children_self (h : t.Consistent) (p : NodeId) : p ∉ t.children p :=
  fun hmem => h.acyclic p (.single (h.listed p p hmem))

/-! ### Going up -/

/-- All nodes above a node are there. -/
theorem contains_of_under (h : t.Consistent) {c p : NodeId} (hc : t.contains c = true)
    (hup : Relation.ReflTransGen t.Under c p) : t.contains p = true := by
  induction hup with
  | refl => exact hc
  | tail _ hstep _ => exact h.contains_parent hstep

/-- The line of a node leads upwards only. -/
theorem under_of_mem_lineageWithin {fuel : Nat} {id x : NodeId}
    (hx : x ∈ t.lineageWithin fuel id) : Relation.ReflTransGen t.Under id x := by
  induction fuel generalizing id with
  | zero =>
    rw [lineageWithin, List.mem_singleton] at hx
    rw [hx]
  | succ fuel ih =>
    rw [lineageWithin, List.mem_cons] at hx
    rcases hx with rfl | hx
    · exact .refl
    · cases hparent : t.parent? id with
      | none => rw [hparent] at hx; exact absurd hx List.not_mem_nil
      | some p =>
        rw [hparent] at hx
        exact .head hparent (ih hx)

/-- On the way up no node comes twice. -/
theorem nodup_lineageWithin (h : t.Consistent) (fuel : Nat) (id : NodeId) :
    (t.lineageWithin fuel id).Nodup := by
  induction fuel generalizing id with
  | zero => exact List.nodup_singleton id
  | succ fuel ih =>
    rw [lineageWithin]
    cases hparent : t.parent? id with
    | none => exact List.nodup_singleton id
    | some p =>
      refine List.nodup_cons.mpr ⟨fun hmem => ?_, ih p⟩
      exact h.acyclic id (.head' hparent (under_of_mem_lineageWithin hmem))

/-- A line of nodes that does not break off holds all nodes above the first one. -/
theorem mem_lineageWithin {fuel : Nat} {id x : NodeId}
    (hlen : (t.lineageWithin fuel id).length ≤ fuel)
    (hup : Relation.ReflTransGen t.Under id x) : x ∈ t.lineageWithin fuel id := by
  induction fuel generalizing id with
  | zero => exact absurd hlen (by rw [lineageWithin]; exact Nat.not_succ_le_zero 0)
  | succ fuel ih =>
    rw [lineageWithin] at hlen ⊢
    rcases hup.cases_head with rfl | ⟨p, hparent, hup⟩
    · exact List.mem_cons_self
    · rw [show t.parent? id = some p from hparent] at hlen ⊢
      exact List.mem_cons_of_mem _ (ih (Nat.le_of_succ_le_succ hlen) hup)

/-- No line of nodes is longer than the store. -/
theorem length_lineageWithin_le (h : t.Consistent) (fuel : Nat) {id : NodeId}
    (hid : t.contains id = true) : (t.lineageWithin fuel id).length ≤ t.nodes.size := by
  have hnodup : ((t.lineageWithin fuel id).map NodeId.index).Nodup := by
    refine (h.nodup_lineageWithin fuel id).map ?_
    rintro ⟨i⟩ ⟨j⟩ rfl
    rfl
  have hsub : (t.lineageWithin fuel id).map NodeId.index ⊆ List.range t.nodes.size := by
    intro i hi
    obtain ⟨x, hx, rfl⟩ := List.mem_map.mp hi
    have hcontains := h.contains_of_under hid (under_of_mem_lineageWithin hx)
    obtain ⟨n, hn⟩ := Option.isSome_iff_exists.mp hcontains
    exact List.mem_range.mpr (index_lt_of_get? hn)
  have hlen := (hnodup.subperm hsub).length_le
  rwa [List.length_map, List.length_range] at hlen

/-- The line of a node has all nodes above it. -/
theorem mem_lineage_iff (h : t.Consistent) {id x : NodeId} :
    x ∈ t.lineage id ↔ Relation.ReflTransGen t.Under id x := by
  refine ⟨under_of_mem_lineageWithin, fun hup => ?_⟩
  cases hid : t.contains id with
  | true => exact mem_lineageWithin (h.length_lineageWithin_le _ hid) hup
  | false =>
    -- A node that is not there has nothing above it.
    rcases hup.cases_head with rfl | ⟨p, hparent, -⟩
    · rw [lineage]
      cases t.nodes.size with
      | zero => exact List.mem_singleton.mpr rfl
      | succ fuel => exact List.mem_cons_self
    · rw [contains_of_parent? hparent] at hid
      cases hid

/-- One node is another one or stands above it. -/
theorem isAncestor_iff (h : t.Consistent) {above id : NodeId} :
    t.isAncestor above id = true ↔ Relation.ReflTransGen t.Under id above := by
  rw [isAncestor, List.contains_iff_mem, h.mem_lineage_iff]

end Consistent

/-! ### Nodes in and out of lists -/

/-- Nodes that can be put into the list of `parent`. -/
structure Ready (t : Tree) (parent : NodeId) (ids : List NodeId) : Prop where
  nodup : ids.Nodup
  contains : ∀ c ∈ ids, t.contains c = true
  detached : ∀ c ∈ ids, t.parent? c = none
  nested : ∀ c ∈ ids, t.kind? c ≠ some .root
  outside : ∀ c ∈ ids, ¬ Relation.ReflTransGen t.Under parent c

/-- The tree differs by nodes that were put into the list of `parent`. -/
structure Inserted (t t' : Tree) (parent : NodeId) (ids : List NodeId) (place : Nat) : Prop where
  contains : ∀ j, t'.contains j = t.contains j
  kind : ∀ j, t'.kind? j = t.kind? j
  block : ∀ j, t'.hasBlock j = t.hasBlock j
  links : ∀ j, t'.parent? j = if j ∈ ids then some parent else t.parent? j
  list : t'.children parent =
    (t.children parent).take place ++ ids ++ (t.children parent).drop place
  others : ∀ j, parent ≠ j → t'.children j = t.children j

/-- The tree differs by nodes that were taken out of the list of `parent`. -/
structure Removed (t t' : Tree) (parent : NodeId) (gone kept : List NodeId) : Prop where
  contains : ∀ j, t'.contains j = t.contains j
  kind : ∀ j, t'.kind? j = t.kind? j
  block : ∀ j, t'.hasBlock j = t.hasBlock j
  links : ∀ j, t'.parent? j = if j ∈ gone then none else t.parent? j
  perm : (t.children parent).Perm (gone ++ kept)
  list : t'.children parent = kept
  others : ∀ j, parent ≠ j → t'.children j = t.children j

namespace Inserted

variable {parent : NodeId} {ids : List NodeId} {place : Nat}

/-- A way up that uses a new link ends above the parent. -/
theorem under_cases (h : t.Inserted t' parent ids place) (hready : t.Ready parent ids)
    {a b : NodeId} (hup : Relation.TransGen t'.Under a b) :
    Relation.TransGen t.Under a b ∨
      ∃ c ∈ ids, Relation.ReflTransGen t.Under a c ∧ Relation.ReflTransGen t.Under parent b := by
  have hstep : ∀ {x y}, t'.Under x y → x ∈ ids ∧ y = parent ∨ t.Under x y := by
    intro x y hxy
    rw [Under, h.links] at hxy
    split_ifs at hxy with hx
    · exact Or.inl ⟨hx, (Option.some.inj hxy).symm⟩
    · exact Or.inr hxy
  -- By induction on the path: it runs through old links until it passes from a new child to the
  -- parent, and it can do so once, since the parent is outside of what was put in.
  induction hup with
  | single hab =>
    rcases hstep hab with ⟨ha, rfl⟩ | hab
    · exact Or.inr ⟨_, ha, .refl, .refl⟩
    · exact Or.inl (.single hab)
  | tail _ hbd ih =>
    rcases ih with hup | ⟨c, hc, hac, hup⟩
    · rcases hstep hbd with ⟨hb, rfl⟩ | hbd
      · exact Or.inr ⟨_, hb, hup.to_reflTransGen, .refl⟩
      · exact Or.inl (hup.tail hbd)
    · rcases hstep hbd with ⟨hb, rfl⟩ | hbd
      · exact absurd hup (hready.outside _ hb)
      · exact Or.inr ⟨c, hc, hac, hup.tail hbd⟩

/-- The container lists what was put in and what it had. -/
theorem mem_list (h : t.Inserted t' parent ids place) {c : NodeId} :
    c ∈ t'.children parent ↔ c ∈ ids ∨ c ∈ t.children parent := by
  rw [h.list, List.mem_append, List.mem_append, or_right_comm, ← List.mem_append,
    List.take_append_drop, or_comm]

theorem count_list (h : t.Inserted t' parent ids place) (c : NodeId) :
    (t'.children parent).count c = ids.count c + (t.children parent).count c := by
  have hsplit := List.take_append_drop place (t.children parent)
  conv => rhs; rw [← hsplit]
  rw [h.list, List.count_append, List.count_append, List.count_append]
  omega

/-- Any other list is what it was. -/
theorem mem_children (h : t.Inserted t' parent ids place) {p c : NodeId}
    (hc : c ∈ t'.children p) : parent = p ∧ c ∈ ids ∨ c ∈ t.children p := by
  by_cases hp : parent = p
  · subst hp
    rcases h.mem_list.mp hc with hc | hc
    · exact Or.inl ⟨rfl, hc⟩
    · exact Or.inr hc
  · rw [h.others p hp] at hc
    exact Or.inr hc

end Inserted

/-- What is ready to be put in stands in no list. -/
theorem Ready.not_mem_children {parent : NodeId} {ids : List NodeId} (hready : t.Ready parent ids)
    (h : t.Consistent) {c : NodeId} (hc : c ∈ ids) (p : NodeId) : c ∉ t.children p := by
  intro hmem
  have hparent := h.listed p c hmem
  rw [hready.detached c hc] at hparent
  cases hparent

/-- Detached nodes may be put into the list of a container they are not above of. -/
theorem Consistent.insert (h : t.Consistent) {parent : NodeId} {ids : List NodeId} {place : Nat}
    (hblock : t.hasBlock parent = true) (hready : t.Ready parent ids)
    (hins : t.Inserted t' parent ids place) : t'.Consistent where
  contains := by
    intro p c hc
    rw [hins.contains]
    rcases hins.mem_children hc with ⟨-, hc⟩ | hc
    · exact hready.contains c hc
    · exact h.contains p c hc
  listed := by
    intro p c hc
    rw [hins.links]
    rcases hins.mem_children hc with ⟨hp, hc⟩ | hc
    · rw [if_pos hc, hp]
    · rw [if_neg fun hids => hready.not_mem_children h hids p hc]
      exact h.listed p c hc
  once := by
    intro c p hparent
    rw [hins.links] at hparent
    split_ifs at hparent with hc
    · cases hparent
      rw [hins.count_list, List.count_eq_zero_of_not_mem (hready.not_mem_children h hc parent),
        List.count_eq_one_of_mem hready.nodup hc]
    · by_cases hp : parent = p
      · subst hp
        rw [hins.count_list, List.count_eq_zero_of_not_mem hc, h.once c parent hparent]
      · rw [hins.others p hp]
        exact h.once c p hparent
  acyclic := by
    intro id hcycle
    -- A cycle with a new link would lead from the parent up to one of the nodes.
    rcases hins.under_cases hready hcycle with hup | ⟨c, hc, hac, hup⟩
    · exact h.acyclic id hup
    · exact hready.outside c hc (hup.trans hac)
  nested := by
    intro p c hc
    rw [hins.kind]
    rcases hins.mem_children hc with ⟨-, hc⟩ | hc
    · exact hready.nested c hc
    · exact h.nested p c hc
  block := by
    intro p hne
    rw [hins.block]
    by_cases hp : parent = p
    · rw [← hp]
      exact hblock
    · rw [hins.others p hp] at hne
      exact h.block p hne
  canOwn := by
    intro p hp
    rw [hins.block] at hp
    rw [hins.kind]
    exact h.canOwn p hp

namespace Removed

variable {parent : NodeId} {gone kept : List NodeId}

/-- What is still listed was listed before, and is not gone. -/
theorem mem_children (hrem : t.Removed t' parent gone kept) (h : t.Consistent) {p c : NodeId}
    (hc : c ∈ t'.children p) : c ∈ t.children p ∧ c ∉ gone := by
  by_cases hp : parent = p
  · subst hp
    rw [hrem.list] at hc
    refine ⟨hrem.perm.mem_iff.mpr (List.mem_append_right _ hc), fun hgone => ?_⟩
    have hnodup : (gone ++ kept).Nodup := hrem.perm.nodup_iff.mp (h.nodup_children parent)
    exact (List.nodup_append.mp hnodup).2.2 c hgone c hc rfl
  · rw [hrem.others p hp] at hc
    refine ⟨hc, fun hgone => hp ?_⟩
    have hparent := h.listed parent c (hrem.perm.mem_iff.mpr (List.mem_append_left _ hgone))
    rw [h.listed p c hc] at hparent
    exact (Option.some.inj hparent).symm

theorem under (hrem : t.Removed t' parent gone kept) {c p : NodeId} (hcp : t'.Under c p) :
    t.Under c p ∧ c ∉ gone := by
  rw [Under, hrem.links] at hcp
  split_ifs at hcp with hgone
  exact ⟨hcp, hgone⟩

end Removed

/-- Nodes may be taken out of a list. -/
theorem Consistent.remove (h : t.Consistent) {parent : NodeId} {gone kept : List NodeId}
    (hrem : t.Removed t' parent gone kept) : t'.Consistent where
  contains := by
    intro p c hc
    rw [hrem.contains]
    exact h.contains p c (hrem.mem_children h hc).1
  listed := by
    intro p c hc
    obtain ⟨hc, hgone⟩ := hrem.mem_children h hc
    rw [hrem.links, if_neg hgone]
    exact h.listed p c hc
  once := by
    intro c p hparent
    obtain ⟨hparent, hgone⟩ := hrem.under hparent
    have honce := h.once c p hparent
    by_cases hp : parent = p
    · subst hp
      rw [hrem.perm.count_eq, List.count_append, List.count_eq_zero_of_not_mem hgone] at honce
      rw [hrem.list]
      omega
    · rw [hrem.others p hp]
      exact honce
  acyclic := by
    intro id hcycle
    -- Links only went away, so a cycle would have been there before.
    have hle : t'.Under ≤ t.Under := fun c p hcp => (hrem.under hcp).1
    exact h.acyclic id (Relation.TransGen.mono hle id id hcycle)
  nested := by
    intro p c hc
    rw [hrem.kind]
    exact h.nested p c (hrem.mem_children h hc).1
  block := by
    intro p hne
    obtain ⟨c, hc⟩ := List.exists_mem_of_ne_nil _ hne
    rw [hrem.block]
    exact h.block p (List.ne_nil_of_mem (hrem.mem_children h hc).1)
  canOwn := by
    intro p hp
    rw [hrem.block] at hp
    rw [hrem.kind]
    exact h.canOwn p hp

end Tree

end Stylesheet
