import Stylesheet.Proofs.Tree.Shape

/-!
# The order of the document

The nodes of a tree stand in the order in which they are printed, each before those below it. In a
consistent tree no node comes twice in this order (`Tree.Consistent.nodup_shape`).

When the nodes of a tree are stored anew, each gets the number of its place in the order
(`Tree.Consistent.layout_shape`).
-/

namespace Stylesheet

namespace Branch

mutual

theorem size_map (f : α → β) : ∀ b : Branch α, (b.map f).size = b.size
  | .node a bs => by rw [map, size, size, sizeAll_mapAll f bs]

theorem sizeAll_mapAll (f : α → β) : ∀ bs : List (Branch α), sizeAll (mapAll f bs) = sizeAll bs
  | [] => rfl
  | b :: bs => by rw [mapAll, sizeAll, sizeAll, size_map f b, sizeAll_mapAll f bs]

end

mutual

theorem length_toList : ∀ b : Branch α, b.toList.length = b.size
  | .node a bs => by rw [toList, List.length_cons, length_listAll bs, size, Nat.add_comm]

theorem length_listAll : ∀ bs : List (Branch α), (listAll bs).length = sizeAll bs
  | [] => rfl
  | b :: bs => by rw [listAll, List.length_append, length_toList b, length_listAll bs, sizeAll]

end

end Branch

namespace Tree

variable {t : Tree} {x y : NodeId}

/-! ### No node twice -/

/-- A node has at most one parent. -/
theorem rightUnique_under (t : Tree) : Relator.RightUnique t.Under :=
  fun _ _ _ hp hq => Option.some.inj (hp.symm.trans hq)

/-- A node stands below one child of another node at most. -/
theorem Consistent.eq_of_under {c c' : NodeId} (ht : t.Consistent) (hc : c ∈ t.children x)
    (hc' : c' ∈ t.children x) (h : Relation.ReflTransGen t.Under y c)
    (h' : Relation.ReflTransGen t.Under y c') : c = c' := by
  -- One of the two children would stand above the other one and so above their parent.
  have hself : ∀ c c', c ∈ t.children x → c' ∈ t.children x →
      Relation.ReflTransGen t.Under c c' → c = c' := by
    intro c c' hc hc' hup
    rcases Relation.ReflTransGen.cases_head hup with heq | ⟨p, hp, hup⟩
    · exact heq
    · obtain rfl : x = p := Option.some.inj ((ht.listed x c hc).symm.trans hp)
      exact absurd (Relation.TransGen.tail' hup (ht.listed x c' hc')) (ht.acyclic x)
  rcases h.total_of_right_unique t.rightUnique_under h' with hup | hup
  · exact hself c c' hc hc' hup
  · exact (hself c' c hc' hc hup).symm

/-- Branches of different children share no node. -/
theorem Consistent.nodup_listAll (ht : t.Consistent) {f : NodeId → Branch NodeId}
    (hf : ∀ c, (f c).toList.Nodup)
    (hunder : ∀ c, ∀ y ∈ (f c).toList, Relation.ReflTransGen t.Under y c) {cs : List NodeId}
    (hcs : cs.Nodup) (hmem : ∀ c ∈ cs, c ∈ t.children x) :
    (Branch.listAll (cs.map f)).Nodup := by
  induction cs with
  | nil => exact List.nodup_nil
  | cons c cs ih =>
    rw [List.nodup_cons] at hcs
    rw [List.forall_mem_cons] at hmem
    rw [List.map_cons, Branch.listAll]
    refine List.nodup_append.mpr ⟨hf c, ih hcs.2 hmem.2, ?_⟩
    rintro y hy _ hy' rfl
    obtain ⟨b, hb, hyb⟩ := Branch.mem_listAll.mp hy'
    obtain ⟨c', hc', rfl⟩ := List.mem_map.mp hb
    have heq := ht.eq_of_under hmem.1 (hmem.2 c' hc') (hunder c y hy) (hunder c' y hyb)
    exact hcs.1 (heq ▸ hc')

/-- No node comes twice in the order of the document. -/
theorem Consistent.nodup_shape (ht : t.Consistent) (x : NodeId) : (t.shape x).toList.Nodup := by
  have hwithin : ∀ fuel x, (t.shapeWithin fuel x).toList.Nodup := by
    intro fuel
    induction fuel with
    | zero => exact fun x => List.nodup_singleton x
    | succ fuel ih =>
      intro x
      rw [shapeWithin, Branch.toList]
      refine List.nodup_cons.mpr ⟨fun hmem => ?_, ?_⟩
      · -- The node would stand below one of its children.
        obtain ⟨b, hb, hx⟩ := Branch.mem_listAll.mp hmem
        obtain ⟨c, hc, rfl⟩ := List.mem_map.mp hb
        exact ht.acyclic x (.tail' (ht.under_of_mem_shapeWithin hx) (ht.listed x c hc))
      · exact ht.nodup_listAll ih (fun _ _ => ht.under_of_mem_shapeWithin) (ht.nodup_children x)
          fun _ hc => hc
  exact hwithin _ x

/-! ### Stored anew -/

/-- The numbers from `base` on. -/
def numbersFrom (base count : Nat) : List NodeId :=
  (List.range' base count).map NodeId.mk

theorem numbersFrom_add (base m n : Nat) :
    numbersFrom base (m + n) = numbersFrom base m ++ numbersFrom (base + m) n := by
  rw [numbersFrom, ← List.range'_append_1, List.map_append]
  rfl

mutual

/-- A draft in the store has the numbers of its nodes in the order of the document. -/
theorem Stores.toList_shapeWithin {base : Nat} {parent : Option NodeId} :
    ∀ (b : Draft) (fuel : Nat), b.size ≤ fuel → t.Stores base (layout base parent b) →
      (t.shapeWithin fuel ⟨base⟩).toList = numbersFrom base b.size
  | .node d kids, 0, hsize, h => by
    rw [Branch.size] at hsize
    omega
  | .node d kids, fuel + 1, hsize, h => by
    rw [layout] at h
    rw [Branch.size] at hsize
    have hchildren : t.children ⟨base⟩ = numbers (base + 1) kids := by rw [children, h.head]; rfl
    rw [shapeWithin, Branch.toList, hchildren,
      Stores.listAll_shapeWithin kids fuel (by omega) h.tail, Branch.size, numbersFrom_add]
    rfl

/-- The nodes of a stored draft are numbered in the order of their text. -/
theorem Stores.listAll_shapeWithin {base : Nat} {parent : Option NodeId} :
    ∀ (bs : List Draft) (fuel : Nat), Branch.sizeAll bs ≤ fuel →
      t.Stores base (layoutAll base parent bs) →
      Branch.listAll ((numbers base bs).map (t.shapeWithin fuel)) =
        numbersFrom base (Branch.sizeAll bs)
  | [], _, _, _ => rfl
  | b :: bs, fuel, hsize, h => by
    rw [layoutAll] at h
    rw [Branch.sizeAll] at hsize
    have hright := h.right
    rw [length_layout] at hright
    rw [numbers, List.map_cons, Branch.listAll, Branch.sizeAll, numbersFrom_add,
      Stores.toList_shapeWithin b fuel (by omega) h.left,
      Stores.listAll_shapeWithin bs fuel (by omega) hright]

end

/-- Every node of a tree that was made of a draft stands below the root. -/
theorem mem_shape_ofDraft {input : Input} {b : Draft} {n : Node}
    (h : (ofDraft input b).get? x = some n) : x ∈ ((ofDraft input b).shape rootId).toList := by
  have hlt : x.index < b.size := by
    rw [← size_ofDraft input b]
    exact (Array.getElem?_eq_some_iff.mp h).1
  have hlist := (Stores.of_ofDraft input b).toList_shapeWithin b _
    (Nat.le_of_eq (size_ofDraft input b).symm)
  rw [shape, rootId, hlist, numbersFrom, List.mem_map]
  exact ⟨x.index, by rw [List.mem_range'_1]; omega, rfl⟩

/-- The branch of a node shows its children. -/
def Shows (t : Tree) (x : NodeId) (kids : List (Branch NodeId)) : Prop :=
  kids.map Branch.label = t.children x

/-- In a shape, each node has the children that the tree lists. -/
theorem Consistent.shape_shows (ht : t.Consistent) (x : NodeId) : (t.shape x).Every t.Shows := by
  have hwithin : ∀ fuel x, (∀ z n, t.Rise z n x → n ≤ fuel) →
      (t.shapeWithin fuel x).Every t.Shows := by
    intro fuel
    induction fuel with
    | zero => exact fun x hrise => .node (ht.children_eq_nil hrise).symm nofun
    | succ fuel ih =>
      intro x hrise
      refine .node ?_ fun b hb => ?_
      · rw [Shows, List.map_map]
        exact (List.map_congr_left fun c _ => t.label_shapeWithin fuel c).trans (List.map_id _)
      · obtain ⟨c, hc, rfl⟩ := List.mem_map.mp hb
        exact ih c (ht.le_of_rise_child hrise hc)
  exact hwithin _ x fun _ _ h => ht.le_of_rise h

/-- A node in the store with the same links when numbers change by `ρ`, and with other details. -/
def entry (t : Tree) (ρ : NodeId → NodeId) (f : NodeId → Detail) (x : NodeId) : Node :=
  { detail := f x, parent := (t.parent? x).map ρ, children := (t.children x).map ρ }

variable {ρ : NodeId → NodeId} {f : NodeId → Detail}

/-- Branches whose nodes are numbered one after the other: those of the first one, and the rest. -/
theorem numbered_cons {b : Branch NodeId} {bs : List (Branch NodeId)} {base : Nat}
    (h : (Branch.listAll (b :: bs)).map ρ = numbersFrom base (Branch.sizeAll (b :: bs))) :
    b.toList.map ρ = numbersFrom base b.size ∧
      (Branch.listAll bs).map ρ = numbersFrom (base + b.size) (Branch.sizeAll bs) := by
  rw [Branch.listAll, Branch.sizeAll, List.map_append, numbersFrom_add] at h
  refine List.append_inj h ?_
  rw [List.length_map, Branch.length_toList, numbersFrom, List.length_map, List.length_range']

/-- A branch whose nodes are numbered one after the other: its top and the branches below. -/
theorem numbered_node {x : NodeId} {kids : List (Branch NodeId)} {base : Nat}
    (h : (Branch.node x kids).toList.map ρ = numbersFrom base (Branch.node x kids).size) :
    ρ x = ⟨base⟩ ∧ (Branch.listAll kids).map ρ = numbersFrom (base + 1) (Branch.sizeAll kids) := by
  rw [Branch.toList, Branch.size, List.map_cons, numbersFrom_add] at h
  exact List.cons.inj h

theorem numbers_mapAll : ∀ (bs : List (Branch NodeId)) (base : Nat),
    (Branch.listAll bs).map ρ = numbersFrom base (Branch.sizeAll bs) →
      numbers base (Branch.mapAll f bs) = (bs.map Branch.label).map ρ
  | [], _, _ => rfl
  | .node x kids :: bs, base, h => by
    obtain ⟨hfirst, hrest⟩ := numbered_cons h
    rw [Branch.mapAll, numbers, Branch.size_map, numbers_mapAll bs _ hrest]
    exact congrArg (· :: _) (numbered_node hfirst).1.symm

mutual

/-- A branch that is stored anew, when `ρ` gives its nodes the numbers from `base` on. -/
theorem Consistent.layout_map (ht : t.Consistent) : ∀ (b : Branch NodeId) (base : Nat),
    b.Every t.Shows → b.toList.map ρ = numbersFrom base b.size →
      layout base ((t.parent? b.label).map ρ) (b.map f) = b.toList.map (t.entry ρ f)
  | .node x kids, base, hb, h => by
    obtain ⟨htop, hkids⟩ := numbered_node h
    have hshows : kids.map Branch.label = t.children x := hb.top
    have hlabels : ∀ b ∈ kids, b.label ∈ t.children x := by
      rw [← hshows]
      exact fun b hb => List.mem_map_of_mem hb
    have hrest := Consistent.layoutAll_mapAll ht kids (base + 1) x hb.rest hlabels hkids
    rw [Branch.map, layout, numbers_mapAll kids _ hkids, hshows, ← htop, hrest]
    rfl

theorem Consistent.layoutAll_mapAll (ht : t.Consistent) :
    ∀ (bs : List (Branch NodeId)) (base : Nat) (p : NodeId),
      (∀ b ∈ bs, b.Every t.Shows) → (∀ b ∈ bs, b.label ∈ t.children p) →
      (Branch.listAll bs).map ρ = numbersFrom base (Branch.sizeAll bs) →
        layoutAll base (some (ρ p)) (Branch.mapAll f bs) = (Branch.listAll bs).map (t.entry ρ f)
  | [], _, _, _, _, _ => rfl
  | b :: bs, base, p, hbs, hlabels, h => by
    rw [List.forall_mem_cons] at hbs hlabels
    obtain ⟨hfirst, hrest⟩ := numbered_cons h
    have hb := Consistent.layout_map ht b base hbs.1 hfirst
    rw [ht.listed p b.label hlabels.1] at hb
    rw [Branch.mapAll, layoutAll, Branch.size_map, Branch.listAll, List.map_append,
      Consistent.layoutAll_mapAll ht bs _ p hbs.2 hlabels.2 hrest]
    exact congrArg (· ++ _) hb

end

/-! ### Places in the order -/

/-- The places in a list without duplicates are counted from the front. -/
theorem map_idxOf_of_nodup [DecidableEq α] {l : List α} (hl : l.Nodup) :
    l.map l.idxOf = List.range l.length := by
  refine List.ext_getElem (by rw [List.length_map, List.length_range]) fun i h h' => ?_
  rw [List.getElem_map, List.getElem_range, hl.idxOf_getElem]

/-- The number of a node in the order of the document. -/
def placeIn (t : Tree) (x : NodeId) : NodeId :=
  ⟨(t.shape rootId).toList.idxOf x⟩

/-- So are the places of all nodes in the order of the text. -/
theorem Consistent.map_placeIn (ht : t.Consistent) :
    (t.shape rootId).toList.map t.placeIn = numbersFrom 0 (t.shape rootId).size := by
  have hmap := map_idxOf_of_nodup (ht.nodup_shape rootId)
  rw [numbersFrom, ← List.range_eq_range', ← Branch.length_toList, ← hmap, List.map_map]
  rfl

/-- The nodes of the document, stored anew under their places. -/
theorem Consistent.layout_shape (ht : t.Consistent) (hroot : t.kind? rootId = some .root) :
    layout 0 none ((t.shape rootId).map f) =
      (t.shape rootId).toList.map (t.entry t.placeIn f) := by
  have h := ht.layout_map (f := f) _ 0 (ht.shape_shows rootId) ht.map_placeIn
  rwa [shape, label_shapeWithin, ← shape, parent?_rootId ht hroot] at h

end Tree

end Stylesheet
