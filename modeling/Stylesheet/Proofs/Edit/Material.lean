import Stylesheet.Proofs.Edit.Ends
import Stylesheet.Proofs.Outline.Read

/-!
# What is made for insertion

Before anything is inserted it is made into nodes that are offered to a container
(`Tree.Offered`): they are there, stand in no list, are no roots and are not above the container.
Nodes that were there before keep their links (`Tree.Extends`).

* `Editing.yields_build`: the node of a bag, with all that is below it.
* `Editing.yields_adopt`: a node of the tree, or a copy of it.
* `Editing.yields_materialize`: anything that can be inserted.
-/

namespace Stylesheet

namespace Tree

variable {t u v : Tree}

/-! ### More nodes -/

theorem Extends.refl (t : Tree) : t.Extends t :=
  ⟨Nat.le_refl _, fun _ _ => rfl⟩

/-- New nodes, and then more of them. -/
theorem Extends.trans (h : t.Extends u) (h' : u.Extends v) : t.Extends v where
  size := Nat.le_trans h.size h'.size
  links j hj := by rw [h'.links j (Nat.lt_of_lt_of_le hj h.size), h.links j hj]

/-- A block stays open while nodes are made. -/
theorem Extends.keepsBlock (h : t.Extends u) {j : NodeId} (hj : t.hasBlock j = true) :
    u.hasBlock j = true := by
  rw [h.hasBlock (contains_of_hasBlock hj)]
  exact hj

/-- Above a node that was there before, nothing is new. -/
theorem Extends.under (h : t.Extends u) (ht : t.Consistent) {a b : NodeId}
    (ha : t.contains a = true) (hup : Relation.ReflTransGen u.Under a b) :
    Relation.ReflTransGen t.Under a b := by
  induction hup with
  | refl => exact .refl
  | tail _ hstep ih =>
    have hb := ht.contains_of_under ha ih
    refine ih.tail ?_
    rw [Under, h.parent? hb] at hstep
    exact hstep

/-- Numbers are given in order, so a tree with all the nodes of another is not smaller. -/
theorem size_le_of_contains (h : ∀ j, t.contains j = true → u.contains j = true) :
    t.nodes.size ≤ u.nodes.size := by
  rcases Nat.lt_or_ge u.nodes.size t.nodes.size with hlt | hge
  · have hu := h ⟨u.nodes.size⟩ (contains_iff_index_lt.mpr hlt)
    exact absurd (contains_iff_index_lt.mp hu) (Nat.lt_irrefl _)
  · exact hge

/-! ### Nodes for insertion -/

/-- Nodes that can be put into the list of `parent`, if there is one, each of them by itself. -/
structure Offered (t : Tree) (parent : Option NodeId) (ids : List NodeId) : Prop where
  contains : ∀ c ∈ ids, t.contains c = true
  detached : ∀ c ∈ ids, t.parent? c = none
  nested : ∀ c ∈ ids, t.kind? c ≠ some .root
  outside : ∀ p ∈ parent, ∀ c ∈ ids, ¬ Relation.ReflTransGen t.Under p c

namespace Offered

variable {parent : Option NodeId}

theorem nil (t : Tree) (parent : Option NodeId) : t.Offered parent [] :=
  ⟨nofun, nofun, nofun, fun _ _ => nofun⟩

/-- Nodes that are on offer one by one are on offer together. -/
theorem cons {c : NodeId} {ids : List NodeId} (h : t.Offered parent [c])
    (h' : t.Offered parent ids) : t.Offered parent (c :: ids) where
  contains := List.forall_mem_cons.mpr ⟨h.contains c List.mem_cons_self, h'.contains⟩
  detached := List.forall_mem_cons.mpr ⟨h.detached c List.mem_cons_self, h'.detached⟩
  nested := List.forall_mem_cons.mpr ⟨h.nested c List.mem_cons_self, h'.nested⟩
  outside p hp := List.forall_mem_cons.mpr ⟨h.outside p hp c List.mem_cons_self, h'.outside p hp⟩

/-- Nodes on offer can be put in when no node is named twice. -/
theorem ready {p : NodeId} {ids : List NodeId} (h : t.Offered (some p) ids) (hnodup : ids.Nodup) :
    t.Ready p ids :=
  ⟨hnodup, h.contains, h.detached, h.nested, h.outside p rfl⟩

/-- Nodes stay on offer while others are made. -/
theorem extend {ids : List NodeId} (h : t.Offered parent ids) (ht : t.Consistent)
    (hparent : ∀ p ∈ parent, t.contains p = true) (hext : t.Extends u) : u.Offered parent ids where
  contains c hc := hext.contains (h.contains c hc)
  detached c hc := by
    rw [hext.parent? (h.contains c hc)]
    exact h.detached c hc
  nested c hc := by
    rw [hext.kind? (h.contains c hc)]
    exact h.nested c hc
  outside p hp c hc hup := h.outside p hp c hc (hext.under ht (hparent p hp) hup)

/-- A node that was not there before. -/
theorem of_new {c : NodeId} (ht : t.Consistent) (hparent : ∀ p ∈ parent, t.contains p = true)
    (hext : t.Extends u) (hnew : t.nodes.size ≤ c.index) (hcontains : u.contains c = true)
    (hdetached : u.parent? c = none) (hroot : u.kind? c ≠ some .root) :
    u.Offered parent [c] where
  contains := List.forall_mem_singleton.mpr hcontains
  detached := List.forall_mem_singleton.mpr hdetached
  nested := List.forall_mem_singleton.mpr hroot
  outside p hp := List.forall_mem_singleton.mpr fun hup => by
    have hc := ht.contains_of_under (hparent p hp) (hext.under ht (hparent p hp) hup)
    have := contains_iff_index_lt.mp hc
    omega

end Offered

/-- The nodes are new, and no one is named twice. -/
structure Fresh (t : Tree) (ids : List NodeId) : Prop where
  nodup : ids.Nodup
  new : ∀ c ∈ ids, t.nodes.size ≤ c.index

theorem Fresh.nil (t : Tree) : t.Fresh [] :=
  ⟨List.nodup_nil, nofun⟩

/-- A new node, and nodes that are newer. -/
theorem Fresh.cons {c : NodeId} {ids : List NodeId} (hc : t.nodes.size ≤ c.index)
    (hlt : c.index < u.nodes.size) (hext : t.Extends u) (h : u.Fresh ids) : t.Fresh (c :: ids) where
  nodup := by
    refine List.nodup_cons.mpr ⟨fun hmem => ?_, h.nodup⟩
    have := h.new c hmem
    omega
  new := List.forall_mem_cons.mpr ⟨hc, fun d hd => Nat.le_trans hext.size (h.new d hd)⟩

/-! ### Branches -/

/-- The top of what was grafted is there, stands in no list and is of the kind that was drafted. -/
theorem top_graft (t : Tree) (b : Draft) :
    (t.graft b).2.contains (t.graft b).1 = true ∧ (t.graft b).2.parent? (t.graft b).1 = none ∧
      (t.graft b).2.kind? (t.graft b).1 = some b.label.kind := by
  obtain ⟨n, hn, hdetail, hparent, -⟩ := (Stores.holds b (Stores.of_graft t b)).get?_eq
  refine ⟨?_, ?_, ?_⟩
  · exact Option.isSome_iff_exists.mpr ⟨n, hn⟩
  · show ((t.graft b).2.get? ⟨t.nodes.size⟩).bind Node.parent = none
    rw [hn]
    exact hparent
  · show ((t.graft b).2.get? ⟨t.nodes.size⟩).map Node.kind = _
    rw [hn, ← hdetail]
    rfl

theorem hasBlock_graft (t : Tree) (b : Draft) :
    (t.graft b).2.hasBlock (t.graft b).1 = b.label.block := by
  obtain ⟨n, hn, hdetail, -, -⟩ := (Stores.holds b (Stores.of_graft t b)).get?_eq
  show ((t.graft b).2.get? ⟨t.nodes.size⟩).any Node.isContainer = _
  rw [hn, ← hdetail]
  rfl

/-- What was grafted is on offer unless it is a root. -/
theorem offered_graft (ht : t.Consistent) {parent : Option NodeId}
    (hparent : ∀ p ∈ parent, t.contains p = true) {b : Draft} (hroot : b.label.kind ≠ .root) :
    (t.graft b).2.Offered parent [(t.graft b).1] := by
  obtain ⟨hcontains, hdetached, hkind⟩ := top_graft t b
  refine .of_new ht hparent (extends_graft t b) (Nat.le_refl _) hcontains hdetached ?_
  rw [hkind]
  exact fun h => hroot (Option.some.inj h)

/-- Several branches that are put into the store. -/
theorem graftAll_spec {parent : Option NodeId} :
    ∀ {bs : List Draft} {t : Tree}, t.Consistent → (∀ p ∈ parent, t.contains p = true) →
      (∀ b ∈ bs, b.Every Detail.Sound ∧ b.label.kind ≠ .root) →
      t.Changes (t.graftAll bs).2 ∧ t.Extends (t.graftAll bs).2 ∧
        (t.graftAll bs).2.Offered parent (t.graftAll bs).1 ∧ t.Fresh (t.graftAll bs).1
  | [], t, _, _, _ => ⟨.refl, .refl t, .nil t parent, .nil t⟩
  | b :: bs, t, ht, hparent, hbs => by
    obtain ⟨hb, hroot⟩ := hbs b List.mem_cons_self
    have hext := extends_graft t b
    have hu := ht.graft hb
    have hoffered := offered_graft ht hparent hroot
    have hrest : ∀ b ∈ bs, b.Every Detail.Sound ∧ b.label.kind ≠ .root :=
      fun b hb => hbs b (List.mem_cons_of_mem _ hb)
    have hparent' : ∀ p ∈ parent, (t.graft b).2.contains p = true :=
      fun p hp => hext.contains (hparent p hp)
    -- By recursion on the drafts: the rest is laid out in the tree that the first one was added to.
    obtain ⟨hchanges, hext', hoffered', hfresh⟩ := graftAll_spec hu hparent' hrest
    refine ⟨.head (.graft hb) hchanges, hext.trans hext', ?_, ?_⟩
    · exact .cons (hoffered.extend hu hparent' hext') hoffered'
    · refine .cons (Nat.le_refl _) ?_ hext hfresh
      exact contains_iff_index_lt.mp (top_graft t b).1

/-- The tree has more nodes, and those that were there are as they were, but for the list of
`parent`. -/
structure Grows (t : Tree) (parent : NodeId) (u : Tree) : Prop where
  size : t.nodes.size ≤ u.nodes.size
  links : ∀ j, j.index < t.nodes.size → j ≠ parent → u.links j = t.links j
  top : ∃ f : List NodeId → List NodeId,
    u.links parent = (t.links parent).map fun l => { l with children := f l.children }

namespace Grows

variable {parent : NodeId}

theorem refl (t : Tree) (parent : NodeId) : t.Grows parent t := by
  refine ⟨Nat.le_refl _, fun _ _ _ => rfl, id, ?_⟩
  cases t.links parent <;> rfl

theorem trans (h : t.Grows parent u) (h' : u.Grows parent v) : t.Grows parent v where
  size := Nat.le_trans h.size h'.size
  links j hj hne := by rw [h'.links j (Nat.lt_of_lt_of_le hj h.size) hne, h.links j hj hne]
  top := by
    obtain ⟨f, hf⟩ := h.top
    obtain ⟨g, hg⟩ := h'.top
    refine ⟨g ∘ f, ?_⟩
    rw [hg, hf, Option.map_map]
    rfl

theorem hasBlock (h : t.Grows parent u) : u.hasBlock parent = t.hasBlock parent := by
  obtain ⟨f, hf⟩ := h.top
  rw [hasBlock_eq_links, hasBlock_eq_links, hf]
  cases t.links parent <;> rfl

theorem parent? (h : t.Grows parent u) : u.parent? parent = t.parent? parent := by
  obtain ⟨f, hf⟩ := h.top
  rw [parent?_eq_links, parent?_eq_links, hf]
  cases t.links parent <;> rfl

theorem kind? (h : t.Grows parent u) : u.kind? parent = t.kind? parent := by
  obtain ⟨f, hf⟩ := h.top
  rw [kind?_eq_links, kind?_eq_links, hf]
  cases t.links parent <;> rfl

theorem contains (h : t.Grows parent u) : u.contains parent = t.contains parent := by
  obtain ⟨f, hf⟩ := h.top
  rw [contains_eq_links, contains_eq_links, hf, Option.isSome_map]

/-- A new node with all that is made below it. -/
theorem extends_of_new (h' : u.Grows parent v) (h : t.Extends u)
    (hnew : t.nodes.size ≤ parent.index) : t.Extends v where
  size := Nat.le_trans h.size h'.size
  links j hj := by
    rw [h'.links j (Nat.lt_of_lt_of_le hj h.size) fun heq => ?_, h.links j hj]
    rw [heq] at hj
    omega

end Grows

/-- One more child for a detached container. -/
theorem changes_insertLast {parent child : NodeId} (hblock : t.hasBlock parent = true)
    (hext : t.Extends u) (hoffered : u.Offered (some parent) [child])
    (hnew : t.nodes.size ≤ child.index) :
    u.Change (u.insertLast parent [child]) ∧ t.Grows parent (u.insertLast parent [child]) := by
  have hparent := contains_iff_index_lt.mp (contains_of_hasBlock hblock)
  have hready := hoffered.ready (List.nodup_singleton child)
  -- The child is new, so it is in no list and not above the parent.
  have hself : parent ∉ [child] := fun hmem => hready.outside parent hmem .refl
  have hlinks := links_insert (t := u) hself (u.last? parent) false (u.children parent).length id
  have hins := inserted_splice (hext.keepsBlock hblock) hready (u.last? parent) false
    (u.children parent).length id
  refine ⟨.insert (hext.keepsBlock hblock) hready _ _ _ _, ?_, fun j hj hne => ?_, ?_⟩
  · refine size_le_of_contains fun j hj => ?_
    rw [insertLast, hins.contains]
    exact hext.contains hj
  · have hmem : j ∉ [child] := by
      intro hmem
      rw [List.mem_singleton.mp hmem] at hj
      omega
    rw [insertLast, hlinks, if_neg hne.symm, if_neg hmem, hext.links j hj]
  · refine ⟨fun list => list.take (u.children parent).length ++ [child] ++
      list.drop (u.children parent).length, ?_⟩
    rw [insertLast, hlinks, if_pos rfl, hext.links parent hparent]

end Tree

namespace BagFields

/-- A bag makes no root, and blocks only where they can be. -/
theorem sound_of_detail? {b : BagFields} {hasList : Bool} {d : Detail}
    (h : b.detail? hasList = .ok d) : d.kind ≠ .root ∧ (d.block = true → d.kind.canOwn = true) := by
  -- No field of a bag makes a root.
  have hcontent : ∀ content, b.content? = .ok content → content ≠ .root := by
    intro content hc
    rw [content?] at hc
    split at hc
    · split at hc <;> cases hc
      exact nofun
    · split at hc
      · cases hc; exact nofun
      · split at hc
        · cases hc; exact nofun
        · split at hc <;> cases hc
          exact nofun
  rw [detail?] at h
  cases hc : b.content? with
  | error e => rw [hc] at h; cases h
  | ok content =>
    have hne := hcontent content hc
    rw [hc] at h
    cases h
    cases content with
    | root => exact absurd rfl hne
    | rule selector => exact ⟨nofun, fun _ => rfl⟩
    | atRule name params => exact ⟨nofun, fun _ => rfl⟩
    | declaration prop value important => exact ⟨nofun, nofun⟩
    | comment text => exact ⟨nofun, nofun⟩

end BagFields

namespace Editing

open Stylesheet.Tree

/-! ### Bags -/

/-- A single new node is a draft without children. -/
theorem push_eq_graft (t : Tree) (d : Detail) :
    t.push { detail := d } = t.graft (.node d []) := by
  rw [push, graft, layout, layoutAll, numbers]
  show (_, { t with nodes := t.nodes.push { detail := d } }) =
    (_, { t with nodes := t.nodes ++ #[{ detail := d }] })
  rw [Array.append_singleton]

mutual

/-- The node of a bag. -/
theorem yields_build : ∀ (bag : Bag) {t : Tree}, t.Consistent →
    Yields Never (build bag) t fun id u =>
      t.Extends u ∧ t.nodes.size ≤ id.index ∧ u.contains id = true ∧ u.parent? id = none ∧
        u.kind? id ≠ some .root
  | .node fields nodes, t, ht => by
    rw [build]
    refine .bind (R := fun d u => u = t ∧ fields.detail? nodes.isSome = .ok d)
      (.lift _ fun d hd => ⟨rfl, hd⟩) ?_
    rintro d u - ⟨rfl, hd⟩
    obtain ⟨hroot, hown⟩ := BagFields.sound_of_detail? hd
    have hleaf : (Branch.node d [] : Draft).Every Detail.Sound :=
      Draft.sound_leaf hown
    -- The node itself.
    refine .bind (R := fun id v => v = (u.graft (.node d [])).2 ∧ id = (u.graft (.node d [])).1)
      (.changeGet ?_ ?_) ?_
    · rw [push_eq_graft]
      exact .single (.graft hleaf)
    · rw [push_eq_graft]
      exact ⟨rfl, rfl⟩
    rintro id v - ⟨rfl, rfl⟩
    obtain ⟨hcontains, hdetached, hkind⟩ := top_graft u (.node d [])
    have hext := extends_graft u (.node d [])
    have hv := ht.graft hleaf
    have hkind' : (u.graft (.node d [])).2.kind? (u.graft (.node d [])).1 ≠ some .root := by
      rw [hkind]
      exact fun h => hroot (Option.some.inj h)
    cases hblock : d.block with
    | false =>
      exact .pure ⟨hext, Nat.le_refl _, hcontains, hdetached, hkind'⟩
    | true =>
      -- All that is below it.
      have hhas : (u.graft (.node d [])).2.hasBlock (u.graft (.node d [])).1 = true := by
        rw [hasBlock_graft]
        exact hblock
      refine (yields_buildList nodes hv hhas hdetached).bind ?_
      intro _ v' _ hgrows
      refine .pure ⟨hgrows.extends_of_new hext (Nat.le_refl _), Nat.le_refl _, ?_, ?_, ?_⟩
      · rw [hgrows.contains]
        exact hcontains
      · rw [hgrows.parent?]
        exact hdetached
      · rw [hgrows.kind?]
        exact hkind'

/-- The children of a new node. -/
theorem yields_buildList : ∀ (nodes : Option (List Bag)) {t : Tree} {parent : NodeId},
    t.Consistent → t.hasBlock parent = true → t.parent? parent = none →
      Yields Never (buildList parent nodes) t fun _ u => t.Grows parent u
  | none, t, parent, _, _, _ => by
    rw [buildList]
    exact .pure (.refl t parent)
  | some bags, t, parent, ht, hblock, htop => by
    rw [buildList]
    exact yields_buildAll bags ht hblock htop

/-- The induction is on the bags; each leaves the container ready for the next. -/
theorem yields_buildAll : ∀ (bags : List Bag) {t : Tree} {parent : NodeId},
    t.Consistent → t.hasBlock parent = true → t.parent? parent = none →
      Yields Never (buildAll parent bags) t fun _ u => t.Grows parent u
  | [], t, parent, _, _, _ => by
    rw [buildAll]
    exact .pure (.refl t parent)
  | bag :: bags, t, parent, ht, hblock, htop => by
    rw [buildAll]
    refine (yields_build bag ht).bind ?_
    rintro child u hchanges ⟨hext, hnew, hcontains, hdetached, hroot⟩
    have hu := hchanges.consistent ht
    have hoffered : u.Offered (some parent) [child] := by
      refine .of_new ht ?_ hext hnew hcontains hdetached hroot
      rintro p ⟨⟩
      exact contains_of_hasBlock hblock
    obtain ⟨hchange, hgrows⟩ := changes_insertLast hblock hext hoffered hnew
    -- The parent has grown by one child, and the remaining bags see it as it was, with one child
    -- more.
    refine .bind (R := fun _ v => v = u.insertLast parent [child])
      (.change (.single hchange) rfl) ?_
    rintro _ v - rfl
    refine (yields_buildAll bags (hchange.consistent hu) ?_ ?_).mono fun _ v _ h => hgrows.trans h
    · rw [hgrows.hasBlock]
      exact hblock
    · rw [hgrows.parent?]
      exact htop

end

/-- The nodes of several bags. -/
theorem yields_buildEach {parent : Option NodeId} : ∀ (bags : List Bag) {t : Tree}, t.Consistent →
    (∀ p ∈ parent, t.contains p = true) → Yields Never (bags.mapM build) t fun ids u =>
      t.Extends u ∧ u.Offered parent ids ∧ t.Fresh ids
  | [], t, _, _ => by
    rw [List.mapM_nil]
    exact .pure ⟨.refl t, .nil t parent, .nil t⟩
  | bag :: bags, t, ht, hparent => by
    rw [List.mapM_cons]
    refine (yields_build bag ht).bind ?_
    rintro id u hchanges ⟨hext, hnew, hcontains, hdetached, hroot⟩
    have hu := hchanges.consistent ht
    have hparent' : ∀ p ∈ parent, u.contains p = true := fun p hp => hext.contains (hparent p hp)
    have hoffered := Offered.of_new ht hparent hext hnew hcontains hdetached hroot
    refine (yields_buildEach bags hu hparent').bind ?_
    rintro ids v - ⟨hext', hoffered', hfresh⟩
    refine .pure ⟨hext.trans hext', .cons (hoffered.extend hu hparent' hext') hoffered', ?_⟩
    -- Each node is newer than all nodes before it, so no two are one.
    exact .cons hnew (contains_iff_index_lt.mp hcontains) hext hfresh

/-! ### Nodes of the tree -/

/-- A node of the tree, or a copy of it. -/
theorem yields_adopt {t : Tree} {parent : Option NodeId} (ht : t.Consistent)
    (hparent : ∀ p ∈ parent, t.contains p = true) (id : NodeId) :
    Yields Never (adopt parent id) t fun c u => t.Extends u ∧ u.Offered parent [c] := by
  rw [adopt]
  refine .bind (R := fun n u => u = t ∧ t.get? id = some n) (.node id fun n hn => ⟨rfl, hn⟩) ?_
  rintro n u - ⟨rfl, hn⟩
  have hcontains : u.contains id = true := Option.isSome_iff_exists.mpr ⟨n, hn⟩
  have hkind : u.kind? id = some n.kind := by rw [kind?, hn]; rfl
  by_cases hroot : n.kind = .root
  · rw [if_pos hroot]
    exact .bind (R := fun _ _ => False) (.throw _) fun _ _ _ h => h.elim
  · rw [if_neg hroot]
    refine .bind (R := fun v v' => v = u ∧ v' = u) (.tree ⟨rfl, rfl⟩) ?_
    rintro _ _ - ⟨rfl, rfl⟩
    split_ifs with hcopy
    · -- A node that stands somewhere, or above the parent, is copied.
      refine .changeGet (.single (.graft (ht.sound_draft id))) ⟨extends_graft _ _, ?_⟩
      refine offered_graft ht hparent ?_
      rw [draft, Branch.label_map, shape, label_shapeWithin, detail_of_get? hn]
      exact hroot
    · rw [Bool.or_eq_true, not_or] at hcopy
      obtain ⟨hdetached, hbelow⟩ := hcopy
      refine .pure ⟨.refl _, ?_, ?_, ?_, fun p hp => ?_⟩
      · exact List.forall_mem_singleton.mpr hcontains
      · refine List.forall_mem_singleton.mpr ?_
        rw [parent?, hn]
        exact Option.not_isSome_iff_eq_none.mp hdetached
      · refine List.forall_mem_singleton.mpr ?_
        rw [hkind]
        exact fun h => hroot (Option.some.inj h)
      · refine List.forall_mem_singleton.mpr fun hup => hbelow ?_
        rw [Option.any_eq_true]
        exact ⟨p, hp, ht.isAncestor_iff.mpr hup⟩

/-- Nodes of a list are taken or copied one by one, so all are on offer in the end. -/
theorem yields_adoptEach {parent : Option NodeId} : ∀ (ids : List NodeId) {t : Tree},
    t.Consistent → (∀ p ∈ parent, t.contains p = true) →
      Yields Never (ids.mapM (adopt parent)) t fun cs u => t.Extends u ∧ u.Offered parent cs
  | [], t, _, _ => by
    rw [List.mapM_nil]
    exact .pure ⟨.refl t, .nil t parent⟩
  | id :: ids, t, ht, hparent => by
    rw [List.mapM_cons]
    refine (yields_adopt ht hparent id).bind ?_
    rintro c u hchanges ⟨hext, hoffered⟩
    have hu := hchanges.consistent ht
    -- What was offered stays on offer while the rest is adopted, since adopting only adds copies.
    have hparent' : ∀ p ∈ parent, u.contains p = true := fun p hp => hext.contains (hparent p hp)
    refine (yields_adoptEach ids hu hparent').bind ?_
    rintro cs v - ⟨hext', hoffered'⟩
    exact .pure ⟨hext.trans hext', .cons (hoffered.extend hu hparent' hext') hoffered'⟩

/-! ### All materials -/

/-- The children of the root of a consistent tree as branches. -/
theorem sound_drafts {other : Tree} (h : other.Consistent) {f : Detail → Detail}
    (hcontent : ∀ d, (f d).content = d.content) (hblock : ∀ d, (f d).block = d.block) :
    ∀ b ∈ (other.children rootId).map fun id => (other.draft id).map f,
      b.Every Detail.Sound ∧ b.label.kind ≠ .root := by
  intro b hb
  obtain ⟨c, hc, rfl⟩ := List.mem_map.mp hb
  refine ⟨Draft.sound_map hcontent hblock (h.sound_draft c), fun hroot => ?_⟩
  rw [Branch.label_map, draft, Branch.label_map, shape, label_shapeWithin, Detail.kind,
    hcontent] at hroot
  refine h.nested rootId c hc ?_
  rw [kind_detail (h.contains rootId c hc)]
  exact congrArg some hroot

end Editing

/-- A stylesheet that was read is a consistent tree. -/
theorem consistent_of_parse {w : Workspace} {css : String} {options : ParseOptions} {t : Tree}
    (h : (parse w css options).1 = .ok t) : t.Consistent := by
  obtain ⟨input, b, -, hb, rfl⟩ := parse_eq_ok h
  exact Tree.consistent_ofDraft input ((outlineText_eq_ok hb).1.mono fun d kids hd => hd.toSound)

namespace Material

/-- Another tree is consistent. -/
def Sound : Material → Prop
  | .tree other _ => other.Consistent
  | _ => True

/-- Whether the material is a list of nodes, in which one may be named twice. -/
def listsNodes : Material → Bool
  | .nodes _ => true
  | _ => false

end Material

namespace Editing

open Stylesheet.Tree

/-- Anything that can be inserted. -/
theorem yields_materialize {t : Tree} {parent : Option NodeId} (ht : t.Consistent)
    (hparent : ∀ p ∈ parent, t.contains p = true) {m : Material} (hm : m.Sound) :
    Yields Never (materialize parent m) t fun ids u =>
      t.Extends u ∧ u.Offered parent ids ∧ (m.listsNodes = false → ids.Nodup) := by
  cases m with
  | node id =>
    rw [materialize]
    refine (yields_adopt ht hparent id).bind ?_
    rintro c u - ⟨hext, hoffered⟩
    exact .pure ⟨hext, hoffered, fun _ => List.nodup_singleton c⟩
  | nodes ids =>
    -- A detached node that is named twice is not copied, so nothing is said of repetitions.
    rw [materialize]
    exact (yields_adoptEach ids ht hparent).mono fun cs u _ h => ⟨h.1, h.2, nofun⟩
  | bag bag =>
    rw [materialize]
    refine (yields_build bag ht).bind ?_
    rintro id u - ⟨hext, hnew, hcontains, hdetached, hroot⟩
    refine .pure ⟨hext, ?_, fun _ => List.nodup_singleton id⟩
    exact .of_new ht hparent hext hnew hcontains hdetached hroot
  | bags bags =>
    rw [materialize]
    exact (yields_buildEach bags ht hparent).mono fun ids u _ h =>
      ⟨h.1, h.2.1, fun _ => h.2.2.nodup⟩
  | text css =>
    rw [materialize]
    refine .bind (R := fun other u => u = t ∧ other.Consistent)
      (.parsed css {} fun w other h => ⟨rfl, consistent_of_parse h⟩) ?_
    rintro other u - ⟨rfl, hother⟩
    obtain ⟨hchanges, hext, hoffered, hfresh⟩ :=
      graftAll_spec ht hparent
        (sound_drafts hother (f := Tree.dropSource) (fun _ => rfl) fun _ => rfl)
    exact .changeGet hchanges ⟨hext, hoffered, fun _ => hfresh.nodup⟩
  | tree other shared =>
    -- The inputs of the other tree come first, for its nodes refer to them.
    rw [materialize]
    have ht' : Consistent { t with inputs := t.inputs ++ other.inputs } := ht.of_links_eq rfl
    have hext' : t.Extends { t with inputs := t.inputs ++ other.inputs } :=
      ⟨Nat.le_refl _, fun _ _ => rfl⟩
    obtain ⟨hchanges, hext, hoffered, hfresh⟩ := graftAll_spec ht' hparent
      (sound_drafts hm (f := renumberInput (t.inputNumber other shared)) (fun _ => rfl)
        fun _ => rfl)
    refine .changeGet (.head (.inputs _) hchanges) ⟨hext'.trans hext, hoffered, ?_⟩
    exact fun _ => hfresh.nodup

end Editing

end Stylesheet
