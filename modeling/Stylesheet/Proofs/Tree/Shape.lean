import Stylesheet.Proofs.Tree.Later

/-!
# Up and down without a bound

The line of nodes above a node and the branch below it are read with a bound on their length, which
is the size of the store. In a consistent tree the bound is never met: any larger one gives the same
(`Tree.Consistent.lineageWithin_eq`, `Tree.Consistent.shapeWithin_eq`). So a draft of a node is its
details with the drafts of its children, and a tree that holds a draft gives it back
(`Tree.Consistent.draft_of_holds`).
-/

namespace Stylesheet

namespace Branch

mutual

theorem toList_map (f : α → β) : ∀ b : Branch α, (b.map f).toList = b.toList.map f
  | .node a bs => by
    rw [map, toList, toList, List.map_cons, listAll_mapAll f bs]

theorem listAll_mapAll (f : α → β) :
    ∀ bs : List (Branch α), listAll (mapAll f bs) = (listAll bs).map f
  | [] => rfl
  | b :: bs => by
    rw [mapAll, listAll, listAll, List.map_append, toList_map f b, listAll_mapAll f bs]

end

mutual

theorem map_map (f : α → β) (g : β → γ) : ∀ b : Branch α, (b.map f).map g = b.map (g ∘ f)
  | .node a bs => by rw [map, map, map, mapAll_mapAll f g bs]; rfl

theorem mapAll_mapAll (f : α → β) (g : β → γ) :
    ∀ bs : List (Branch α), mapAll g (mapAll f bs) = mapAll (g ∘ f) bs
  | [] => rfl
  | b :: bs => by rw [mapAll, mapAll, mapAll, map_map f g b, mapAll_mapAll f g bs]

end

mutual

theorem map_congr {f g : α → β} : ∀ b : Branch α, (∀ a ∈ b.toList, f a = g a) → b.map f = b.map g
  | .node a bs, h => by
    rw [toList, List.forall_mem_cons] at h
    rw [map, map, h.1, mapAll_congr bs h.2]

theorem mapAll_congr {f g : α → β} :
    ∀ bs : List (Branch α), (∀ a ∈ listAll bs, f a = g a) → mapAll f bs = mapAll g bs
  | [], _ => rfl
  | b :: bs, h => by
    rw [listAll, List.forall_mem_append] at h
    rw [mapAll, mapAll, map_congr b h.1, mapAll_congr bs h.2]

end

end Branch

namespace Tree

variable {t : Tree} {x y : NodeId}

/-! ### Attached nodes -/

theorem contains_of_kind? {kind : NodeKind} (h : t.kind? x = some kind) : t.contains x = true := by
  obtain ⟨n, hn, -⟩ := Option.map_eq_some_iff.mp h
  exact Option.isSome_iff_exists.mpr ⟨n, hn⟩

theorem Attached.exists_get? (hroot : t.kind? rootId = some .root) (hx : t.Attached x) :
    ∃ n, t.get? x = some n := by
  refine Option.isSome_iff_exists.mp ?_
  rcases Relation.ReflTransGen.cases_head hx with rfl | ⟨p, hparent, -⟩
  · exact contains_of_kind? hroot
  · exact contains_of_parent? hparent

/-- What an attached node lists is attached. -/
theorem Attached.child (ht : t.Consistent) (hx : t.Attached x) (hy : y ∈ t.children x) :
    t.Attached y :=
  .head (ht.listed x y hy) hx

/-- A root has no parent, so that an attached node is the root or has an attached parent. -/
theorem Attached.parent (ht : t.Consistent) (hroot : t.kind? rootId = some .root)
    (hx : t.Attached x) (hparent : t.parent? x = some y) : t.Attached y := by
  rcases Relation.ReflTransGen.cases_head hx with rfl | ⟨p, hp, hup⟩
  · exact absurd hroot (ht.nested y _ (ht.mem_children_iff.mpr hparent))
  · obtain rfl : p = y := Option.some.inj (hp.symm.trans hparent)
    exact hup

/-- The root stands in no list. -/
theorem parent?_rootId (ht : t.Consistent) (hroot : t.kind? rootId = some .root) :
    t.parent? rootId = none := by
  cases hparent : t.parent? rootId with
  | none => rfl
  | some p => exact absurd hroot (ht.nested p _ (ht.mem_children_iff.mpr hparent))

/-! ### Up -/

/-- A line that does not break off is the same with a larger bound. -/
theorem lineageWithin_of_le {fuel fuel' : Nat} (hlen : (t.lineageWithin fuel x).length ≤ fuel)
    (hle : fuel ≤ fuel') : t.lineageWithin fuel' x = t.lineageWithin fuel x := by
  induction fuel generalizing x fuel' with
  | zero => exact absurd hlen (Nat.not_succ_le_zero 0)
  | succ fuel ih =>
    obtain ⟨fuel', rfl⟩ := Nat.exists_eq_add_of_le' hle
    rw [← Nat.add_assoc, lineageWithin, lineageWithin]
    rw [lineageWithin] at hlen
    cases hparent : t.parent? x with
    | none => rfl
    | some p =>
      rw [hparent] at hlen
      exact congrArg (x :: ·) (ih (Nat.le_of_succ_le_succ hlen) (Nat.le_add_left _ _))

/-- A line is complete once it may be as long as there are nodes. -/
theorem Consistent.lineageWithin_eq (ht : t.Consistent) (hx : t.contains x = true) {fuel : Nat}
    (hle : t.nodes.size ≤ fuel) : t.lineageWithin fuel x = t.lineage x :=
  lineageWithin_of_le (ht.length_lineageWithin_le _ hx) hle

/-- The line of a node is that of its parent, one longer. -/
theorem Consistent.lineage_eq_cons (ht : t.Consistent) (hparent : t.parent? x = some y) :
    t.lineage x = x :: t.lineage y := by
  rw [← ht.lineageWithin_eq (contains_of_parent? hparent) (Nat.le_succ _), lineageWithin, hparent]
  rfl

theorem Consistent.rootOf_eq (ht : t.Consistent) (hparent : t.parent? x = some y) :
    t.rootOf x = t.rootOf y := by
  have hline : t.lineage y ≠ [] := by
    rw [lineage]
    cases t.nodes.size <;> exact List.cons_ne_nil _ _
  rw [rootOf, rootOf, ht.lineage_eq_cons hparent, List.getLast?_cons,
    List.getLast?_eq_some_getLast hline]
  rfl

/-- All nodes below a node have the same topmost node. -/
theorem Consistent.rootOf_of_mem_shape (ht : t.Consistent) (hx : x ∈ (t.shape y).toList) :
    t.rootOf x = t.rootOf y := by
  induction ht.mem_shape_iff.mp hx using Relation.ReflTransGen.head_induction_on with
  | refl => rfl
  | head hparent hup ih => exact (ht.rootOf_eq hparent).trans (ih (ht.mem_shape_iff.mpr hup))

/-! ### Down -/

theorem Rise.exists_parent {n : Nat} (h : t.Rise x (n + 1) y) :
    ∃ p, t.Under x p ∧ t.Rise p n y := by
  induction n generalizing y with
  | zero =>
    cases h with
    | succ h hy =>
      cases h with
      | zero => exact ⟨y, hy, .zero⟩
  | succ n ih =>
    cases h with
    | succ h hy =>
      obtain ⟨p, hp, hrise⟩ := ih h
      exact ⟨p, hp, .succ hrise hy⟩

/-- A rise leads upwards, -/
theorem Rise.under {n : Nat} (h : t.Rise x n y) : Relation.ReflTransGen t.Under x y := by
  induction h with
  | zero => exact .refl
  | succ _ hyz ih => exact ih.tail hyz

/-- and cannot be longer than the line. -/
theorem Rise.lt_length {n : Nat} (h : t.Rise x n y) : n < (t.lineageWithin n x).length := by
  induction n generalizing x with
  | zero => exact Nat.one_pos
  | succ n ih =>
    obtain ⟨p, hp, hrise⟩ := h.exists_parent
    rw [lineageWithin, show t.parent? x = some p from hp]
    exact Nat.succ_lt_succ (ih hrise)

/-- No node stands more levels above another one than there are nodes. -/
theorem Consistent.le_of_rise (ht : t.Consistent) {n : Nat} (h : t.Rise x n y) :
    n ≤ t.nodes.size := by
  cases n with
  | zero => exact Nat.zero_le _
  | succ n =>
    obtain ⟨p, hp, -⟩ := h.exists_parent
    exact Nat.le_of_lt (Nat.lt_of_lt_of_le h.lt_length
      (ht.length_lineageWithin_le _ (contains_of_parent? hp)))

/-- At the height of no step there are no children. -/
theorem Consistent.children_eq_nil (ht : t.Consistent) (hrise : ∀ z n, t.Rise z n x → n ≤ 0) :
    t.children x = [] := by
  refine List.eq_nil_iff_forall_not_mem.mpr fun c hc => ?_
  exact absurd (hrise c 1 (.succ .zero (ht.listed x c hc))) (Nat.not_succ_le_zero 0)

/-- A child stands one step lower. -/
theorem Consistent.le_of_rise_child (ht : t.Consistent) {fuel : Nat}
    (hrise : ∀ z n, t.Rise z n x → n ≤ fuel + 1) (hy : y ∈ t.children x) :
    ∀ z n, t.Rise z n y → n ≤ fuel :=
  fun z n h => Nat.le_of_succ_le_succ (hrise z (n + 1) (.succ h (ht.listed x y hy)))

/-- A branch whose levels are all within the bound is the same with a larger bound. -/
theorem Consistent.shapeWithin_of_le (ht : t.Consistent) {fuel fuel' : Nat}
    (hrise : ∀ z n, t.Rise z n x → n ≤ fuel) (hle : fuel ≤ fuel') :
    t.shapeWithin fuel' x = t.shapeWithin fuel x := by
  induction fuel generalizing x fuel' with
  | zero =>
    cases fuel' with
    | zero => rfl
    | succ fuel' =>
      show Branch.node x ((t.children x).map (t.shapeWithin fuel')) = Branch.node x []
      rw [ht.children_eq_nil hrise, List.map_nil]
  | succ fuel ih =>
    obtain ⟨fuel', rfl⟩ := Nat.exists_eq_add_of_le' hle
    rw [← Nat.add_assoc, shapeWithin, shapeWithin]
    refine congrArg (Branch.node x) (List.map_congr_left fun c hc => ?_)
    exact ih (ht.le_of_rise_child hrise hc) (Nat.le_add_left _ _)

/-- A shape is complete once it may be as deep as there are nodes. -/
theorem Consistent.shapeWithin_eq (ht : t.Consistent) (x : NodeId) {fuel : Nat}
    (hle : t.nodes.size ≤ fuel) : t.shapeWithin fuel x = t.shape x :=
  ht.shapeWithin_of_le (fun _ _ h => ht.le_of_rise h) hle

/-- A branch is a node with the branches of its children. -/
theorem Consistent.shape_eq_node (ht : t.Consistent) (x : NodeId) :
    t.shape x = .node x ((t.children x).map t.shape) := by
  rw [← ht.shapeWithin_eq x (Nat.le_succ _), shapeWithin]
  rfl

/-! ### Drafts -/

/-- A draft is a node with the drafts of its children. -/
theorem Consistent.draft_eq_node (ht : t.Consistent) (x : NodeId) :
    t.draft x = .node (t.detail x) ((t.children x).map t.draft) := by
  rw [draft, ht.shape_eq_node, Branch.map, Branch.mapAll_eq, List.map_map]
  rfl

theorem Consistent.label_draft (ht : t.Consistent) (x : NodeId) :
    (t.draft x).label = t.detail x := by
  rw [ht.draft_eq_node]
  rfl

/-- What holds all over the draft of the root holds of every node below it. -/
theorem Consistent.every_draft (ht : t.Consistent) {P : Detail → List Draft → Prop}
    (h : (t.draft rootId).Every P) (hx : t.Attached x) : (t.draft x).Every P := by
  induction hx using Relation.ReflTransGen.head_induction_on with
  | refl => exact h
  | head hparent _ ih =>
    rw [ht.draft_eq_node] at ih
    exact ih.rest _ (List.mem_map.mpr ⟨_, ht.mem_children_iff.mpr hparent, rfl⟩)

mutual

/-- A consistent tree that holds a draft gives it back. -/
theorem Consistent.draft_of_holds (ht : t.Consistent) {parent : Option NodeId} :
    ∀ {id : NodeId} (b : Draft), t.Holds parent id b → t.draft id = b
  | id, .node d kids, h => by
    rw [Holds] at h
    obtain ⟨n, hn, hd, -, hkids⟩ := h
    have hchildren : t.children id = n.children := by
      rw [children, hn]
      rfl
    rw [ht.draft_eq_node, detail_of_get? hn, hd, hchildren]
    exact congrArg (Branch.node d) (ht.drafts_of_holdsAll kids hkids)

/-- Drafts that a list holds are those of its nodes. -/
theorem Consistent.drafts_of_holdsAll (ht : t.Consistent) {parent : NodeId} :
    ∀ {ids : List NodeId} (bs : List Draft), t.HoldsAll parent ids bs → ids.map t.draft = bs
  | ids, [], h => by
    rw [HoldsAll] at h
    rw [h]
    rfl
  | ids, b :: bs, h => by
    rw [HoldsAll] at h
    obtain ⟨c, cs, rfl, hb, hbs⟩ := h
    rw [List.map_cons, ht.draft_of_holds b hb, ht.drafts_of_holdsAll bs hbs]

end

mutual

/-- A consistent tree holds the draft of each of its nodes. -/
theorem Consistent.holds_of_draft (ht : t.Consistent) :
    ∀ {id : NodeId} (b : Draft), t.contains id = true → t.draft id = b →
      t.Holds (t.parent? id) id b
  | id, .node d kids, hid, h => by
    obtain ⟨n, hn⟩ := Option.isSome_iff_exists.mp hid
    rw [ht.draft_eq_node, detail_of_get? hn] at h
    obtain ⟨hd, hkids⟩ := Branch.node.inj h
    have hchildren : n.children = t.children id := by
      rw [children, hn]
      rfl
    refine ⟨n, hn, hd, ?_, ?_⟩
    · rw [parent?, hn]
      rfl
    · rw [hchildren]
      exact ht.holdsAll_of_drafts kids (fun c hc => ht.listed id c hc) hkids

/-- The other way round. -/
theorem Consistent.holdsAll_of_drafts (ht : t.Consistent) {parent : NodeId} :
    ∀ {ids : List NodeId} (bs : List Draft), (∀ c ∈ ids, t.parent? c = some parent) →
      ids.map t.draft = bs → t.HoldsAll parent ids bs
  | ids, [], _, h => List.map_eq_nil_iff.mp h
  | ids, b :: bs, hids, h => by
    obtain ⟨c, cs, rfl, hb, hbs⟩ := List.map_eq_cons_iff.mp h
    obtain ⟨hc, hcs⟩ := List.forall_mem_cons.mp hids
    refine ⟨c, cs, rfl, ?_, ht.holdsAll_of_drafts bs hcs hbs⟩
    rw [← hc]
    exact ht.holds_of_draft b (contains_of_parent? hc) hb

end

/-! ### Below a node -/

section

variable {u : Tree}

/-- A shape depends on the lists below the node and on nothing else. -/
theorem shapeWithin_congr (ht : t.Consistent) (fuel : Nat)
    (h : ∀ y, Relation.ReflTransGen t.Under y x → u.children y = t.children y) :
    u.shapeWithin fuel x = t.shapeWithin fuel x := by
  induction fuel generalizing x with
  | zero => rfl
  | succ fuel ih =>
    rw [shapeWithin, shapeWithin, h x .refl]
    refine congrArg (Branch.node x) (List.map_congr_left fun c hc => ?_)
    exact ih fun y hy => h y (hy.tail (ht.listed x c hc))

/-- The branch of a node is the same when the lists of all nodes in it are. -/
theorem Consistent.shape_congr (ht : t.Consistent) (hu : u.Consistent)
    (h : ∀ y, Relation.ReflTransGen t.Under y x → u.children y = t.children y) :
    u.shape x = t.shape x := by
  rw [← hu.shapeWithin_eq x (Nat.le_max_right t.nodes.size _),
    ← ht.shapeWithin_eq x (Nat.le_max_left _ u.nodes.size)]
  exact shapeWithin_congr ht _ h

/-- What a node and those below it say. -/
def saying (t : Tree) (id : NodeId) : Branch Content :=
  (t.shape id).map fun x => (t.detail x).content

theorem content_detail (t : Tree) (x : NodeId) :
    (t.detail x).content = ((t.content? x).getD (default : Detail).content) := by
  rw [detail, content?]
  cases t.get? x <;> rfl

/-- A branch says the same when the lists and the contents of all nodes in it are the same. -/
theorem Consistent.saying_congr (ht : t.Consistent) (hu : u.Consistent)
    (h : ∀ y, Relation.ReflTransGen t.Under y x →
      u.children y = t.children y ∧ u.content? y = t.content? y) :
    u.saying x = t.saying x := by
  rw [saying, saying, ht.shape_congr hu fun y hy => (h y hy).1]
  refine Branch.map_congr _ fun y hy => ?_
  rw [content_detail, content_detail, (h y (ht.mem_shape_iff.mp hy)).2]

/-- A branch that was put into the store is found there. -/
theorem Consistent.draft_graft (ht : t.Consistent) {b : Draft} (hb : b.Every Detail.Sound) :
    (t.graft b).2.draft (t.graft b).1 = b :=
  (ht.graft hb).draft_of_holds b (Stores.holds b (Stores.of_graft t b))

/-- A copy says what the node says. -/
theorem Consistent.saying_copy (ht : t.Consistent) (x : NodeId) :
    (t.copy x).2.saying (t.copy x).1 = t.saying x := by
  have hcopied : (t.copy x).2.draft (t.copy x).1 = t.draft x := ht.draft_graft (ht.sound_draft x)
  have hsaying : ∀ (v : Tree) y, v.saying y = (v.draft y).map Detail.content := by
    intro v y
    rw [saying, draft, Branch.map_map]
    rfl
  rw [hsaying, hsaying, hcopied]

end

end Tree

end Stylesheet
