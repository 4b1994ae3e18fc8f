import Stylesheet.Proofs.Tree.Change
import Stylesheet.Proofs.Tree.Marks

/-!
# Nodes that still count as visited

Edits mark what they touch. So a node that counts as visited after an edit did so before, and
what it says, its list, the marks in its list and the cursors on it are what they were; nor can it
have come in from elsewhere. `Tree.Later` puts this down, and `Tree.Changes.later` shows it of all
edits.

Marking comes last in most edits: `Tree.LaterBut` leaves out the node that is about to be marked,
and `Tree.LaterBut.markDirty` takes it in.
-/

namespace Stylesheet

namespace Tree

variable {t u v : Tree} {bound : NodeId → Nat}

/-- The node is the root or stands below it. -/
def Attached (t : Tree) (x : NodeId) : Prop :=
  Relation.ReflTransGen t.Under x rootId

/-- What is the same about a node that still counts as visited. Of the cursors on it, those up to a
number are meant. -/
structure Kept (bound : NodeId → Nat) (t u : Tree) (x : NodeId) : Prop where
  clean : t.isClean x = true
  content : u.content? x = t.content? x
  line : ∀ y p, Relation.ReflTransGen u.Under x y → u.Under y p → t.Under y p
  children : u.children x = t.children x
  cursors : ∀ k ≤ bound x, u.cursorIndex? x k = t.cursorIndex? x k
  marks : ∀ c ∈ t.children x, t.isClean c = true → u.isClean c = true

/-- All nodes that still count as visited are the same, but for one node. -/
structure LaterBut (bound : NodeId → Nat) (but : Option NodeId) (t u : Tree) : Prop where
  kept : ∀ x, u.isClean x = true → but ≠ some x → t.Kept bound u x
  kind : ∀ x k, t.kind? x = some k → u.kind? x = some k
  lastCursor : ∀ x, t.lastCursor x ≤ u.lastCursor x
  numbered : t.Numbered → u.Numbered

/-- All nodes that still count as visited are the same. -/
def Later (bound : NodeId → Nat) : Tree → Tree → Prop :=
  LaterBut bound none

/-- The way up is the same when all of it that was there before leads to where it led. -/
theorem above_of_line {x y : NodeId}
    (hline : ∀ y p, Relation.ReflTransGen t.Under x y → u.Under y p → t.Under y p)
    (hup : Relation.ReflTransGen u.Under x y) : Relation.ReflTransGen t.Under x y := by
  induction hup with
  | refl => exact .refl
  | tail _ hstep ih => exact ih.tail (hline _ _ ih hstep)

namespace Kept

variable {x y p : NodeId}

theorem refl (hx : t.isClean x = true) : t.Kept bound t x :=
  ⟨hx, rfl, fun _ _ _ h => h, rfl, fun _ _ => rfl, fun _ _ h => h⟩

/-- What stands above the node did so before. -/
theorem above (h : t.Kept bound u x) (hup : Relation.ReflTransGen u.Under x y) :
    Relation.ReflTransGen t.Under x y := by
  induction hup with
  | refl => exact .refl
  | tail hup hstep ih => exact ih.tail (h.line _ _ hup hstep)

/-- A node that was passed over is attached if it is now. -/
theorem attached (h : t.Kept bound u x) (hx : u.Attached x) : t.Attached x :=
  h.above hx

theorem trans (h : t.Kept bound u x) (h' : u.Kept bound v x) : t.Kept bound v x where
  clean := h.clean
  content := h'.content.trans h.content
  line := fun y p hup hyp => h.line y p (h'.above hup) (h'.line y p hup hyp)
  children := h'.children.trans h.children
  cursors := fun k hk => (h'.cursors k hk).trans (h.cursors k hk)
  marks := fun c hc hclean => h'.marks c (h.children ▸ hc) (h.marks c hc hclean)

end Kept

/-- Nothing has happened yet. -/
theorem LaterBut.refl (but : Option NodeId) (t : Tree) : LaterBut bound but t t :=
  ⟨fun _ hx _ => .refl hx, fun _ _ h => h, fun _ => Nat.le_refl _, fun h => h⟩

theorem Later.refl (t : Tree) : t.Later bound t :=
  LaterBut.refl none t

/-- What counts as visited has been left alone. -/
theorem Later.kept (h : t.Later bound u) {x : NodeId} (hx : u.isClean x = true) :
    t.Kept bound u x :=
  LaterBut.kept h x hx (Option.some_ne_none x).symm

/-- A step with an exception goes behind any number of steps without one. -/
theorem Later.transBut {but : Option NodeId} (h : t.Later bound u) (h' : LaterBut bound but u v) :
    LaterBut bound but t v where
  kept := fun x hx hne => (h.kept (h'.kept x hx hne).clean).trans (h'.kept x hx hne)
  kind := fun x k hk => h'.kind x k (LaterBut.kind h x k hk)
  lastCursor := fun x => Nat.le_trans (LaterBut.lastCursor h x) (h'.lastCursor x)
  numbered := fun ht => h'.numbered (LaterBut.numbered h ht)

theorem Later.trans (h : t.Later bound u) (h' : u.Later bound v) : t.Later bound v :=
  h.transBut h'

/-! ### Marking a node -/

/-- What is attached depends on links only. -/
theorem attached_congr (hlinks : u.links = t.links) (x : NodeId) :
    u.Attached x ↔ t.Attached x := by
  have hunder : u.Under = t.Under := by
    funext c p
    rw [Under, Under, parent?_eq_links, parent?_eq_links, hlinks]
  rw [Attached, Attached, hunder]

/-- A mark on a node reaches the nodes above it, so it is seen wherever a child was marked. -/
theorem later_markDirty (bound : NodeId → Nat) (ht : t.Consistent) (id : NodeId) :
    t.Later bound (t.markDirty id) where
  kept := by
    intro x hx _
    rw [isClean_markDirty_iff] at hx
    have htame := tame_markDirty t id
    have hlinks := links_markDirty t id
    refine ⟨hx.1, htame.content?_eq x, fun y p _ hyp => ?_, ?_,
      fun k _ => htame.cursorIndex?_eq x k, fun c hc hclean => ?_⟩
    · rwa [Under, parent?_eq_links, hlinks, ← parent?_eq_links] at hyp
    · rw [children_eq_links, children_eq_links, hlinks]
    · refine isClean_markDirty_iff.mpr ⟨hclean, fun hmarked => hx.2 ⟨hmarked.1, ?_⟩⟩
      exact ht.mem_lineage_iff.mpr ((ht.mem_lineage_iff.mp hmarked.2).tail (ht.listed x c hc))
  kind := fun x k hk => ((tame_markDirty t id).kind?_eq x).trans hk
  lastCursor := fun x => Nat.le_of_eq ((tame_markDirty t id).lastCursor_eq x).symm
  numbered := (tame_markDirty t id).numbered

/-- A node that is marked as changed does not count as visited. -/
theorem not_isClean_markDirty (t : Tree) (id : NodeId) : (t.markDirty id).isClean id ≠ true := by
  intro h
  rw [isClean_markDirty_iff] at h
  refine h.2 ⟨h.1, ?_⟩
  rw [lineage]
  cases t.nodes.size <;> exact List.mem_cons_self

/-- The node that was left out is marked now. -/
theorem LaterBut.markDirty {id : NodeId} (h : LaterBut bound (some id) t u) (hu : u.Consistent) :
    t.Later bound (u.markDirty id) where
  kept := by
    intro x hx _
    have hkept := (later_markDirty bound hu id).kept hx
    refine (h.kept x hkept.clean fun heq => ?_).trans hkept
    obtain rfl := Option.some.inj heq
    exact not_isClean_markDirty u id hx
  kind := fun x k hk => (later_markDirty bound hu id).kind x k (h.kind x k hk)
  lastCursor := fun x =>
    Nat.le_trans (h.lastCursor x) ((later_markDirty bound hu id).lastCursor x)
  numbered := fun ht => (later_markDirty bound hu id).numbered (h.numbered ht)

/-! ### Changes of one node -/

/-- A change that touches no list and takes nodes out of lists at most. -/
theorem later_of_tame (htame : t.Tame u) (hclean : u.isClean = t.isClean)
    (hchildren : u.children = t.children) (hunder : ∀ x p, u.Under x p → t.Under x p) :
    t.Later bound u where
  kept := by
    intro x hx _
    exact ⟨hclean ▸ hx, htame.content?_eq x, fun y p _ => hunder y p, congrFun hchildren x,
      fun k _ => htame.cursorIndex?_eq x k, fun c _ hc => hclean ▸ hc⟩
  kind := fun x k hk => (htame.kind?_eq x).trans hk
  lastCursor := fun x => Nat.le_of_eq (htame.lastCursor_eq x).symm
  numbered := htame.numbered

/-- The node keeps its parent, its mark and the numbers of its cursors. -/
structure Steady (f : Node → Node) : Prop where
  parent : ∀ n, (f n).parent = n.parent
  clean : ∀ n, (f n).clean = n.clean
  lastCursor : ∀ n, (f n).lastCursor = n.lastCursor
  ids : ∀ n, (f n).cursors.map Cursor.id = n.cursors.map Cursor.id

theorem Steady.parent?_modify {f : Node → Node} (hf : Steady f) (t : Tree) (id : NodeId) :
    (t.modify id f).parent? = t.parent? := by
  funext x
  rw [parent?, parent?, get?_modify]
  split_ifs
  · cases h : t.get? x with
    | none => rfl
    | some n => exact hf.parent n
  · rfl

/-- A steady change of one node is later for all others. -/
theorem Steady.laterBut {f : Node → Node} (hf : Steady f) (t : Tree) {id : NodeId}
    (hkind : ∀ x k, t.kind? x = some k → (t.modify id f).kind? x = some k) :
    LaterBut bound (some id) t (t.modify id f) where
  kept := by
    intro x hx hne
    have hclean := isClean_modify hf.clean t id
    have hparent := hf.parent?_modify t id
    have hget : (t.modify id f).get? x = t.get? x := by
      rw [get?_modify, if_neg fun heq => hne (congrArg some heq)]
    refine ⟨hclean ▸ hx, ?_, fun y p _ hyp => ?_, ?_, fun k _ => ?_, fun c _ hc => ?_⟩
    · rw [content?, content?, hget]
    · rwa [Under, hparent] at hyp
    · rw [children, children, hget]
    · rw [cursorIndex?, cursorIndex?, hget]
    · rwa [hclean]
  kind := hkind
  lastCursor := fun x => Nat.le_of_eq (lastCursor_modify hf.lastCursor t id x).symm
  numbered := numbered_modify hf.lastCursor fun n _ hc => hf.ids n ▸ List.mem_map_of_mem hc

/-- Changing a list, with the cursors on it, keeps a node steady. -/
theorem steady_relist (f : List NodeId → List NodeId) (move : Int → Int) :
    Steady fun n => (n.withChildren f).moveCursors move where
  parent := fun _ => rfl
  clean := fun _ => rfl
  lastCursor := fun _ => rfl
  ids := fun n => by
    show (n.cursors.map fun c => { c with index := move c.index }).map Cursor.id = _
    rw [List.map_map]
    rfl

/-- A list that is changed is a list whose owner is marked. -/
theorem later_relist {parent : NodeId} {f : List NodeId → List NodeId} {move : Int → Int}
    (h : t.Later bound u) (hrelist : (u.relist parent f move).Consistent) :
    t.Later bound (u.relist parent f move) := by
  have hkind : ∀ x k, u.kind? x = some k →
      (u.modify parent fun n => (n.withChildren f).moveCursors move).kind? x = some k := by
    intro x k hk
    rw [kind?_eq_links,
      links_modify (g := fun l => { l with children := f l.children }) fun n => rfl]
    rw [kind?_eq_links] at hk
    split_ifs
    · rw [Option.map_map]
      exact hk
    · exact hk
  have hsteady : LaterBut bound (some parent) u _ := (steady_relist f move).laterBut u hkind
  refine (h.transBut hsteady).markDirty (hrelist.of_links_eq ?_)
  rw [relist, links_markDirty]

/-! ### Nodes in and out of lists -/

/-- What settles in comes from elsewhere, and is marked. -/
theorem later_settle (ht : t.Consistent) {parent : NodeId} {ids : List NodeId}
    (hready : t.Ready parent ids) (sample : Option NodeId) (inFront : Bool) :
    t.Later bound (t.settle parent sample inFront ids) where
  kept := by
    intro x hx _
    rw [isClean_settle_iff] at hx
    obtain ⟨hclean, houtside⟩ := hx
    have htame := tame_settle t parent sample inFront ids
    -- A node that still counts as visited is not below any of the nodes that are moved.
    have hout : ∀ y, Relation.ReflTransGen t.Under x y → y ∉ ids := fun y hup hy =>
      houtside y hy (ht.mem_shape_iff.mpr hup)
    have hparent : ∀ y, y ∉ ids → ∀ p, (t.settle parent sample inFront ids).parent? y = some p →
        t.parent? y = some p := by
      intro y hy p hp
      rwa [parent?_eq_links, links_settle, if_neg hy, ← parent?_eq_links] at hp
    have hline : ∀ y p, Relation.ReflTransGen t.Under x y →
        (t.settle parent sample inFront ids).Under y p → t.Under y p :=
      fun y p hup => hparent y (hout y hup) p
    refine ⟨hclean, htame.content?_eq x, fun y p hup => hline y p (above_of_line hline hup), ?_,
      fun k _ => htame.cursorIndex?_eq x k, fun c hc hkid => ?_⟩
    · rw [children_eq_links, children_eq_links, links_settle]
      split_ifs
      · rw [Option.map_map]
        rfl
      · rfl
    · refine (isClean_settle_iff t parent sample inFront ids c).mpr ⟨hkid, fun id hid hmem => ?_⟩
      have hcx := ht.listed x c hc
      rcases Relation.ReflTransGen.cases_head (ht.mem_shape_iff.mp hmem) with rfl | ⟨p, hcp, hup⟩
      · rw [hready.detached c hid] at hcx
        cases hcx
      · obtain rfl := Option.some.inj (hcx.symm.trans hcp)
        exact hout id hup hid
  kind := fun x k hk => ((tame_settle t parent sample inFront ids).kind?_eq x).trans hk
  lastCursor := fun x =>
    Nat.le_of_eq ((tame_settle t parent sample inFront ids).lastCursor_eq x).symm
  numbered := (tame_settle t parent sample inFront ids).numbered

theorem later_detach (t : Tree) (id : NodeId) : t.Later bound (t.detach id) := by
  refine later_of_tame (tame_detach t id)
    (isClean_modify (f := fun n => { n with parent := none }) (fun _ => rfl) t id) ?_ ?_
  · funext x
    rw [children_eq_links, children_eq_links, links_detach]
    split_ifs
    · rw [Option.map_map]
      rfl
    · rfl
  · intro x p hxp
    rw [Under, parent?_eq_links, links_detach] at hxp
    split_ifs at hxp
    · cases h : t.links x with
      | none => rw [h] at hxp; cases hxp
      | some l => rw [h] at hxp; cases hxp
    · rwa [Under, parent?_eq_links]

/-- Nodes may lose their parents one after the other. -/
theorem later_detachAll (ids : List NodeId) (t : Tree) :
    t.Later bound (ids.foldl detach t) := by
  induction ids generalizing t with
  | nil => exact .refl t
  | cons id ids ih => exact (later_detach t id).trans (ih _)

/-- A tree with the same links and marks is later when nothing else was lost. -/
theorem later_of_links_eq (htame : t.Tame u) (hclean : u.isClean = t.isClean)
    (hlinks : u.links = t.links) : t.Later bound u := by
  refine later_of_tame htame hclean ?_ fun x p hxp => ?_
  · funext x
    rw [children_eq_links, children_eq_links, hlinks]
  · rwa [Under, parent?_eq_links, hlinks, ← parent?_eq_links] at hxp

theorem later_handOverBefore (t : Tree) (parent child : NodeId) (i : Nat) :
    t.Later bound (t.handOverBefore parent child i) := by
  refine later_of_links_eq (tame_handOverBefore t parent child i) ?_
    (links_handOverBefore t parent child i)
  rw [handOverBefore]
  split_ifs
  · cases (t.children parent)[1]? with
    | none => rfl
    | some second => exact isClean_setBefore t _ second
  · rfl

/-! ### New nodes -/

/-- The node is new: it counts as changed, and has no cursors. -/
structure Untouched (n : Node) : Prop where
  clean : n.clean = false
  cursors : n.cursors = []

mutual

/-- Nodes that were just laid out carry no mark and no cursor. -/
theorem untouched_layout : ∀ (b : Draft) (base : Nat) (parent : Option NodeId),
    ∀ n ∈ layout base parent b, Untouched n
  | .node d kids, base, parent => by
    intro n hn
    rw [layout, List.mem_cons] at hn
    rcases hn with rfl | hn
    · exact ⟨rfl, rfl⟩
    · exact untouched_layoutAll kids _ _ n hn

theorem untouched_layoutAll : ∀ (bs : List Draft) (base : Nat) (parent : Option NodeId),
    ∀ n ∈ layoutAll base parent bs, Untouched n
  | [], base, parent => by
    intro n hn
    rw [layoutAll] at hn
    exact absurd hn List.not_mem_nil
  | b :: bs, base, parent => by
    intro n hn
    rw [layoutAll, List.mem_append] at hn
    rcases hn with hn | hn
    · exact untouched_layout b _ _ n hn
    · exact untouched_layoutAll bs _ _ n hn

end

/-- A node was there before, or it is new. -/
theorem untouched_of_get?_graft {b : Draft} {x : NodeId} {n : Node}
    (hn : (t.graft b).2.get? x = some n) : t.get? x = some n ∨ Untouched n :=
  (mem_layout_of_get?_graft hn).imp_right fun h => untouched_layout b _ _ n h

/-- Making nodes is later than not making them. -/
theorem later_graft (ht : t.Consistent) (b : Draft) : t.Later bound (t.graft b).2 := by
  have hget : ∀ {x : NodeId}, t.contains x = true → (t.graft b).2.get? x = t.get? x :=
    fun hx => get?_graft_of_lt b (contains_iff_index_lt.mp hx)
  constructor
  case kept =>
    intro x hx _
    obtain ⟨n, hn, hclean⟩ := isClean_iff.mp hx
    rcases untouched_of_get?_graft hn with hx' | huntouched
    · have hcontains : t.contains x = true := by rw [Tree.contains, hx']; rfl
      -- The way up does not leave the nodes that were there.
      have hline : ∀ y p, Relation.ReflTransGen t.Under x y → (t.graft b).2.Under y p →
          t.Under y p := by
        intro y p hup hyp
        rwa [Under, parent?, hget (ht.contains_of_under hcontains hup)] at hyp
      refine ⟨isClean_iff.mpr ⟨n, hx', hclean⟩, ?_,
        fun y p hup => hline y p (above_of_line hline hup), ?_, fun k _ => ?_, fun c hc hkid => ?_⟩
      · rw [content?, content?, hget hcontains]
      · rw [children, children, hget hcontains]
      · rw [cursorIndex?, cursorIndex?, hget hcontains]
      · rwa [isClean, hget (ht.contains x c hc)]
    · rw [huntouched.clean] at hclean
      cases hclean
  case kind =>
    intro x k hk
    have hcontains : t.contains x = true := by
      rw [kind?, Option.map_eq_some_iff] at hk
      obtain ⟨n, hn, -⟩ := hk
      rw [Tree.contains, hn]
      rfl
    rwa [kind?, hget hcontains]
  case lastCursor =>
    intro x
    cases hx : t.get? x with
    | none =>
      rw [lastCursor, hx]
      exact Nat.zero_le _
    | some n =>
      have hcontains : t.contains x = true := by rw [Tree.contains, hx]; rfl
      exact Nat.le_of_eq (by rw [lastCursor, lastCursor, hget hcontains])
  case numbered =>
    intro hnumbered x n hn c hc
    rcases untouched_of_get?_graft hn with hn | huntouched
    · exact hnumbered x n hn c hc
    · rw [huntouched.cursors] at hc
      exact absurd hc List.not_mem_nil

/-! ### All changes -/

theorem later_restyle (t : Tree) (id : NodeId) {f : Detail → Detail}
    (hcontent : ∀ d, (f d).content = d.content) :
    t.Later bound (t.modify id (·.withDetail f)) := by
  have htame : t.Tame (t.modify id (·.withDetail f)) :=
    .modify (f := (·.withDetail f)) (fun n => ⟨hcontent n.detail, rfl, rfl, fun h => h⟩) t id
  -- A change of style is tame: the marks, the lists and the parents stay.
  refine later_of_tame htame
    (isClean_modify (f := (·.withDetail f)) (fun _ => rfl) t id) ?_ fun x p hxp => ?_
  · funext x
    rw [children, children, get?_modify]
    split_ifs
    · rw [Option.map_map]
      rfl
    · rfl
  · rw [Under, parent?, get?_modify] at hxp
    rw [Under, parent?]
    split_ifs at hxp
    · rw [Option.bind_map] at hxp
      exact hxp
    · exact hxp

/-- A node whose contents are set is marked if they differ. -/
theorem later_setContent (ht : t.Consistent) {id : NodeId} {n : Node} {new : Content}
    (hget : t.get? id = some n) (hkind : new.kind = n.kind) :
    t.Later bound (t.setContent id n.content new) := by
  have hlinks := links_setContent hget hkind
  have hconsistent := ht.of_links_eq hlinks
  rw [setContent] at hlinks hconsistent ⊢
  split_ifs at hlinks hconsistent ⊢ with hsame
  · exact .refl t
  · rw [links_markDirty] at hlinks
    have hsteady : Steady (·.withDetail fun d => { d with content := new }) :=
      ⟨fun _ => rfl, fun _ => rfl, fun _ => rfl, fun _ => rfl⟩
    refine (hsteady.laterBut t fun x k hk => ?_).markDirty (ht.of_links_eq hlinks)
    rwa [kind?_eq_links, hlinks, ← kind?_eq_links]

/-- A change leaves nodes that count as visited afterwards as they were. -/
theorem Change.later (ht : t.Consistent) (hchange : t.Change u) : t.Later bound u := by
  have hu := hchange.consistent ht
  cases hchange with
  | inputs inputs => exact later_of_links_eq (.refl t) rfl rfl
  | graft hb => exact later_graft ht _
  | insert hblock hready sample inFront place move =>
    exact later_relist (later_settle ht hready sample inFront) hu
  | removeAt hindex =>
    exact later_relist ((later_handOverBefore t _ _ _).trans (later_detach _ _)) hu
  | removeChildren parent => exact later_relist (later_detachAll _ t) hu
  | openBlock hkind hown => exact later_restyle t _ fun _ => rfl
  | setContent hget hkind => exact later_setContent ht hget hkind
  | restyle id hcontent hblock => exact later_restyle t id hcontent
  | markDirty id => exact later_markDirty bound ht id

/-- Any number of changes leaves nodes that count as visited afterwards as they were. -/
theorem Changes.later (ht : t.Consistent) (hchanges : t.Changes u) : t.Later bound u := by
  induction hchanges with
  | refl => exact .refl t
  | tail hchanges hchange ih => exact ih.trans (hchange.later (Changes.consistent ht hchanges))

end Tree

end Stylesheet
