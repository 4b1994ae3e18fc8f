import Stylesheet.Proofs.Tree.Consistent

/-!
# Marks

Which nodes are marked as visited after a change. Marking a node as changed reaches the nodes above
it, marking a branch reaches the nodes below its top (`Tree.Consistent.mem_shape_iff`).

`Tree.Tame` says of a change that it leaves alone what nodes say and where cursors on them stand,
and that no node is marked as visited by it.
-/

namespace Stylesheet

namespace Branch

theorem mem_listAll {x : α} {bs : List (Branch α)} :
    x ∈ listAll bs ↔ ∃ b ∈ bs, x ∈ b.toList := by
  induction bs with
  | nil =>
    rw [listAll]
    constructor
    · exact fun h => absurd h List.not_mem_nil
    · rintro ⟨b, hb, -⟩
      exact absurd hb List.not_mem_nil
  | cons b bs ih =>
    rw [listAll, List.mem_append, ih]
    constructor
    · rintro (h | ⟨b', hb', h⟩)
      · exact ⟨b, List.mem_cons_self, h⟩
      · exact ⟨b', List.mem_cons_of_mem _ hb', h⟩
    · rintro ⟨b', hb', h⟩
      rcases List.mem_cons.mp hb' with rfl | hb'
      · exact Or.inl h
      · exact Or.inr ⟨b', hb', h⟩

end Branch

namespace Tree

variable {t u v : Tree}

/-! ### Nodes below a node -/

/-- The node `y` stands `n` levels above `x`. -/
inductive Rise (t : Tree) (x : NodeId) : Nat → NodeId → Prop
  | zero : Rise t x 0 x
  | succ {n : Nat} {y z : NodeId} (h : Rise t x n y) (hyz : t.Under y z) : Rise t x (n + 1) z

/-- A rise may begin one step lower. -/
theorem Rise.head {x y z : NodeId} {n : Nat} (hxy : t.Under x y) (h : t.Rise y n z) :
    t.Rise x (n + 1) z := by
  induction h with
  | zero => exact .succ .zero hxy
  | succ _ hyz ih => exact .succ ih hyz

/-- A node on the line is risen to in as many steps as the line has. -/
theorem rise_of_mem_lineageWithin {fuel : Nat} {x y : NodeId}
    (h : y ∈ t.lineageWithin fuel x) : ∃ n ≤ fuel, t.Rise x n y := by
  induction fuel generalizing x with
  | zero =>
    rw [lineageWithin, List.mem_singleton] at h
    rw [h]
    exact ⟨0, Nat.le_refl _, .zero⟩
  | succ fuel ih =>
    rw [lineageWithin, List.mem_cons] at h
    rcases h with rfl | h
    · exact ⟨0, Nat.zero_le _, .zero⟩
    · cases hparent : t.parent? x with
      | none => rw [hparent] at h; exact absurd h List.not_mem_nil
      | some p =>
        rw [hparent] at h
        obtain ⟨n, hn, hrise⟩ := ih h
        exact ⟨n + 1, Nat.succ_le_succ hn, hrise.head hparent⟩

/-- A node that rises to another in few steps is in its branch. -/
theorem Consistent.mem_shapeWithin (ht : t.Consistent) {fuel n : Nat} {x y : NodeId}
    (h : t.Rise x n y) (hn : n ≤ fuel) : x ∈ (t.shapeWithin fuel y).toList := by
  induction h generalizing fuel with
  | zero => cases fuel <;> exact List.mem_cons_self
  | succ _ hyz ih =>
    cases fuel with
    | zero => exact absurd hn (Nat.not_succ_le_zero _)
    | succ fuel =>
      rw [shapeWithin, Branch.toList]
      refine List.mem_cons_of_mem _ (Branch.mem_listAll.mpr ⟨_, ?_, ih (Nat.le_of_succ_le_succ hn)⟩)
      exact List.mem_map.mpr ⟨_, ht.mem_children_iff.mpr hyz, rfl⟩

/-- A branch has only nodes that are below its top. -/
theorem Consistent.under_of_mem_shapeWithin (ht : t.Consistent) {fuel : Nat} {x y : NodeId}
    (h : x ∈ (t.shapeWithin fuel y).toList) : Relation.ReflTransGen t.Under x y := by
  induction fuel generalizing y with
  | zero =>
    rw [shapeWithin, Branch.toList, Branch.listAll, List.mem_singleton] at h
    rw [h]
  | succ fuel ih =>
    rw [shapeWithin, Branch.toList, List.mem_cons] at h
    rcases h with rfl | h
    · exact .refl
    · obtain ⟨b, hb, hx⟩ := Branch.mem_listAll.mp h
      obtain ⟨c, hc, rfl⟩ := List.mem_map.mp hb
      exact (ih hx).tail (ht.listed y c hc)

/-- The nodes below a node, and the node itself. -/
theorem Consistent.mem_shape_iff (ht : t.Consistent) {x y : NodeId} :
    x ∈ (t.shape y).toList ↔ Relation.ReflTransGen t.Under x y := by
  refine ⟨ht.under_of_mem_shapeWithin, fun h => ?_⟩
  obtain ⟨n, hn, hrise⟩ := rise_of_mem_lineageWithin (ht.mem_lineage_iff.mpr h)
  exact ht.mem_shapeWithin hrise hn

/-- Shapes depend on lists only. -/
theorem shape_congr (hchildren : u.children = t.children) (hsize : u.nodes.size = t.nodes.size)
    (y : NodeId) : u.shape y = t.shape y := by
  have hwithin : ∀ fuel y, u.shapeWithin fuel y = t.shapeWithin fuel y := by
    intro fuel
    induction fuel with
    | zero => exact fun y => rfl
    | succ fuel ih =>
      intro y
      rw [shapeWithin, shapeWithin, hchildren]
      exact congrArg (Branch.node y) (List.map_congr_left fun c _ => ih c)
  rw [shape, shape, hsize, hwithin]

/-! ### Visited nodes -/

theorem isClean_iff {x : NodeId} :
    t.isClean x = true ↔ ∃ n, t.get? x = some n ∧ n.clean = true := by
  rw [isClean, Option.any_eq_true]

/-- A node still counts as visited when its mark is not taken away. -/
theorem any_clean_unmark_iff {p : Prop} [Decidable p] {found : Option Node} :
    (if p then found.map unmark else found).any (·.clean) = true ↔
      found.any (·.clean) = true ∧ ¬ p := by
  split_ifs with h
  · refine iff_of_false ?_ fun h' => h'.2 h
    cases found <;> exact Bool.false_ne_true
  · exact ⟨fun h' => ⟨h', h⟩, fun h' => h'.1⟩

/-- Marks go from the node up, when the node was not marked already. -/
theorem isClean_markDirty_iff {id x : NodeId} :
    (t.markDirty id).isClean x = true ↔
      t.isClean x = true ∧ ¬ (t.isClean id = true ∧ x ∈ t.lineage id) := by
  rw [isClean, get?_markDirty]
  exact any_clean_unmark_iff

/-- All nodes of the branch are marked. -/
theorem isClean_markTreeDirty_iff {id x : NodeId} :
    (t.markTreeDirty id).isClean x = true ↔ t.isClean x = true ∧ x ∉ (t.shape id).toList := by
  rw [isClean, get?_markTreeDirty]
  exact any_clean_unmark_iff

/-- Other changes of a node leave its mark. -/
theorem isClean_modify {f : Node → Node} (hf : ∀ n : Node, (f n).clean = n.clean) (t : Tree)
    (id : NodeId) : (t.modify id f).isClean = t.isClean := by
  funext x
  rw [isClean, isClean, get?_modify]
  split_ifs
  · cases h : t.get? x with
    | none => rfl
    | some n => exact hf n
  · rfl

theorem isClean_foldl {step : Tree → NodeId → Tree}
    (hstep : ∀ (t : Tree) (id : NodeId), (step t id).isClean = t.isClean) (ids : List NodeId)
    (t : Tree) : (ids.foldl step t).isClean = t.isClean := by
  induction ids generalizing t with
  | nil => rfl
  | cons id ids ih => rw [List.foldl_cons, ih, hstep]

theorem isClean_setBefore (t : Tree) (before : Option String) (id : NodeId) :
    (t.setBefore before id).isClean = t.isClean :=
  isClean_modify (f := (·.withRaws fun r => { r with before })) (fun _ => rfl) t id

/-- A node that is put in is marked with its branch, and so is what lists it. -/
theorem isClean_settleOne_iff (parent : NodeId) (parentIsRoot : Bool)
    (sampleBefore : Option String) (t : Tree) (id x : NodeId) :
    (settleOne parent parentIsRoot sampleBefore t id).isClean x = true ↔
      t.isClean x = true ∧ x ∉ (t.shape id).toList := by
  rw [settleOne, isClean_modify, isClean_markTreeDirty_iff]
  exact fun n => rfl

theorem shape_settleOne (parent : NodeId) (parentIsRoot : Bool) (sampleBefore : Option String)
    (t : Tree) (id y : NodeId) :
    (settleOne parent parentIsRoot sampleBefore t id).shape y = t.shape y := by
  refine shape_congr (funext fun j => ?_) ?_ y
  · rw [children_eq_links, children_eq_links, links_settleOne]
    split_ifs
    · rw [Option.map_map]
      rfl
    · rfl
  · rw [settleOne, size_modify, markTreeDirty, size_modifyAll]

/-- Nodes that settle in, and all that is below them, count as changed. -/
theorem isClean_settle_iff (t : Tree) (parent : NodeId) (sample : Option NodeId) (inFront : Bool)
    (ids : List NodeId) (x : NodeId) :
    (t.settle parent sample inFront ids).isClean x = true ↔
      t.isClean x = true ∧ ∀ id ∈ ids, x ∉ (t.shape id).toList := by
  have hfold : ∀ (parentIsRoot : Bool) (sampleBefore : Option String) (ids : List NodeId)
      (t : Tree), (ids.foldl (settleOne parent parentIsRoot sampleBefore) t).isClean x = true ↔
        t.isClean x = true ∧ ∀ id ∈ ids, x ∉ (t.shape id).toList := by
    intro parentIsRoot sampleBefore ids
    induction ids with
    | nil => exact fun t => ⟨fun h => ⟨h, fun id hid => absurd hid List.not_mem_nil⟩, fun h => h.1⟩
    | cons id ids ih =>
      intro t
      rw [List.foldl_cons, ih, isClean_settleOne_iff, List.forall_mem_cons, and_assoc]
      simp only [shape_settleOne]
  -- The white space that is adjusted afterwards makes no difference to marks.
  unfold settle
  cases sample with
  | none => exact hfold _ _ ids t
  | some s =>
    dsimp only
    by_cases hroot : t.isRoot parent = true
    · rw [if_pos hroot, settleAtTop]
      split_ifs
      · rw [isClean_setBefore]
        exact hfold _ _ ids t
      · exact hfold _ _ ids t
      · rw [isClean_foldl fun t id => isClean_setBefore t _ id]
        exact hfold _ _ ids t
    · rw [if_neg hroot]
      exact hfold _ _ ids t

/-! ### What nodes say, and cursors -/

/-- What a node says. -/
def content? (t : Tree) (x : NodeId) : Option Content :=
  (t.get? x).map Node.content

/-- A node says of which kind it is. -/
theorem kind?_eq_content? (t : Tree) (x : NodeId) :
    t.kind? x = (t.content? x).map Content.kind := by
  rw [kind?, content?, Option.map_map]
  rfl

/-- Where a cursor on a node stands. -/
def cursorIndex? (t : Tree) (x : NodeId) (k : Nat) : Option Int :=
  (t.get? x).bind fun n => (n.cursors.find? (·.id == k)).map Cursor.index

/-- The number of the last cursor that was opened on a node. -/
def lastCursor (t : Tree) (x : NodeId) : Nat :=
  ((t.get? x).map Node.lastCursor).getD 0

/-- All cursors have numbers that were given out. -/
def Numbered (t : Tree) : Prop :=
  ∀ x n, t.get? x = some n → ∀ c ∈ n.cursors, c.id ≤ n.lastCursor

/-- No number of a cursor is given away. -/
theorem lastCursor_modify {f : Node → Node} (hlast : ∀ n, (f n).lastCursor = n.lastCursor)
    (t : Tree) (p x : NodeId) : (t.modify p f).lastCursor x = t.lastCursor x := by
  rw [lastCursor, lastCursor, get?_modify]
  split_ifs
  · cases t.get? x with
    | none => rfl
    | some n => exact hlast n
  · rfl

/-- Cursors stay numbered as long as none is added. -/
theorem numbered_modify {f : Node → Node} (hlast : ∀ n, (f n).lastCursor = n.lastCursor)
    (hids : ∀ n, ∀ c ∈ (f n).cursors, c.id ∈ n.cursors.map Cursor.id) {id : NodeId}
    (ht : t.Numbered) : (t.modify id f).Numbered := by
  intro x n hn c hc
  rw [get?_modify] at hn
  split_ifs at hn
  · obtain ⟨m, hm, rfl⟩ := Option.map_eq_some_iff.mp hn
    obtain ⟨d, hd, hid⟩ := List.mem_map.mp (hids m c hc)
    rw [hlast, ← hid]
    exact ht x m hm d hd
  · exact ht x n hn c hc

end Tree

/-- The node says the same, its cursors are where they were, and it is not newly marked as
visited. -/
structure Node.Tame (n n' : Node) : Prop where
  content : n'.content = n.content
  cursors : n'.cursors = n.cursors
  lastCursor : n'.lastCursor = n.lastCursor
  clean : n'.clean = true → n.clean = true

namespace Tree

variable {t u v : Tree}

/-- No nodes are new, and all are tame. -/
def Tame (t u : Tree) : Prop :=
  ∀ x, (t.get? x = none ∧ u.get? x = none) ∨
    ∃ n n', t.get? x = some n ∧ u.get? x = some n' ∧ n.Tame n'

namespace Tame

theorem refl (t : Tree) : t.Tame t := by
  intro x
  cases h : t.get? x with
  | none => exact Or.inl ⟨rfl, rfl⟩
  | some n => exact Or.inr ⟨n, n, rfl, rfl, rfl, rfl, rfl, fun h => h⟩

theorem trans (h : t.Tame u) (h' : u.Tame v) : t.Tame v := by
  intro x
  rcases h x with ⟨ht, hu⟩ | ⟨n, n', hn, hn', htame⟩
  · rcases h' x with ⟨-, hv⟩ | ⟨m, m', hm, -, -⟩
    · exact Or.inl ⟨ht, hv⟩
    · rw [hu] at hm; cases hm
  · rcases h' x with ⟨hu, -⟩ | ⟨m, m', hm, hm', htame'⟩
    · rw [hn'] at hu; cases hu
    · rw [hn'] at hm
      cases hm
      refine Or.inr ⟨n, m', hn, hm', ?_, ?_, ?_, ?_⟩
      · rw [htame'.content, htame.content]
      · rw [htame'.cursors, htame.cursors]
      · rw [htame'.lastCursor, htame.lastCursor]
      · exact fun hclean => htame.clean (htame'.clean hclean)

theorem modify {f : Node → Node} (hf : ∀ n : Node, n.Tame (f n)) (t : Tree) (id : NodeId) :
    t.Tame (t.modify id f) := by
  intro x
  rw [get?_modify]
  cases h : t.get? x with
  | none =>
    refine Or.inl ⟨rfl, ?_⟩
    split_ifs <;> rfl
  | some n =>
    refine Or.inr ⟨n, if id = x then f n else n, rfl, ?_, ?_⟩
    · split_ifs <;> rfl
    · split_ifs
      · exact hf n
      · exact ⟨rfl, rfl, rfl, fun h => h⟩

/-- Tame steps, one for each node of a list. -/
theorem foldl {step : Tree → NodeId → Tree}
    (hstep : ∀ (t : Tree) (id : NodeId), Tame t (step t id))
    (ids : List NodeId) (t : Tree) : t.Tame (ids.foldl step t) := by
  induction ids generalizing t with
  | nil => exact .refl t
  | cons id ids ih => exact (hstep t id).trans (ih _)

/-- A tame change leaves what nodes say, -/
theorem content?_eq (h : t.Tame u) (x : NodeId) : u.content? x = t.content? x := by
  rw [content?, content?]
  rcases h x with ⟨ht, hu⟩ | ⟨n, n', hn, hn', htame⟩
  · rw [ht, hu]
  · rw [hn, hn', Option.map_some, Option.map_some, htame.content]

/-- and where cursors stand. -/
theorem cursorIndex?_eq (h : t.Tame u) (x : NodeId) (k : Nat) :
    u.cursorIndex? x k = t.cursorIndex? x k := by
  rw [cursorIndex?, cursorIndex?]
  rcases h x with ⟨ht, hu⟩ | ⟨n, n', hn, hn', htame⟩
  · rw [ht, hu]
  · rw [hn, hn', Option.bind_some, Option.bind_some, htame.cursors]

theorem lastCursor_eq (h : t.Tame u) (x : NodeId) : u.lastCursor x = t.lastCursor x := by
  rw [lastCursor, lastCursor]
  rcases h x with ⟨ht, hu⟩ | ⟨n, n', hn, hn', htame⟩
  · rw [ht, hu]
  · rw [hn, hn', Option.map_some, Option.map_some, htame.lastCursor]

/-- Cursors stay numbered. -/
theorem numbered (h : t.Tame u) (ht : t.Numbered) : u.Numbered := by
  intro x m hm c hc
  rcases h x with ⟨-, hu⟩ | ⟨n, n', hn, hn', htame⟩
  · rw [hu] at hm; cases hm
  · rw [hm] at hn'
    cases hn'
    rw [htame.cursors] at hc
    rw [htame.lastCursor]
    exact ht x n hn c hc

theorem kind?_eq (h : t.Tame u) (x : NodeId) : u.kind? x = t.kind? x := by
  have hcontent := h.content?_eq x
  rw [content?, content?] at hcontent
  have := congrArg (Option.map Content.kind) hcontent
  rwa [Option.map_map, Option.map_map] at this

end Tame

/-! ### Tame changes -/

theorem tame_unmark (n : Node) : n.Tame (unmark n) :=
  ⟨rfl, rfl, rfl, nofun⟩

theorem tame_markDirty (t : Tree) (id : NodeId) : t.Tame (t.markDirty id) := by
  rw [markDirty]
  split_ifs
  · exact .foldl (fun t id => .modify tame_unmark t id) _ t
  · exact .refl t

theorem tame_markTreeDirty (t : Tree) (id : NodeId) : t.Tame (t.markTreeDirty id) :=
  .foldl (fun t id => .modify tame_unmark t id) _ t

theorem tame_setBefore (t : Tree) (before : Option String) (id : NodeId) :
    t.Tame (t.setBefore before id) :=
  .modify (f := (·.withRaws fun r => { r with before })) (fun _ => ⟨rfl, rfl, rfl, fun h => h⟩) t id

theorem tame_settleOne (parent : NodeId) (parentIsRoot : Bool) (sampleBefore : Option String)
    (t : Tree) (id : NodeId) : t.Tame (settleOne parent parentIsRoot sampleBefore t id) := by
  refine (tame_markTreeDirty t id).trans ?_
  rw [settleOne]
  apply Tame.modify
  exact fun n => ⟨rfl, rfl, rfl, fun h => h⟩

/-- Settling is tame: it changes marks, fronts and parents. -/
theorem tame_settle (t : Tree) (parent : NodeId) (sample : Option NodeId) (inFront : Bool)
    (ids : List NodeId) : t.Tame (t.settle parent sample inFront ids) := by
  have hfold := Tame.foldl (tame_settleOne parent (t.isRoot parent) (sample.bind t.before?)) ids t
  unfold settle
  cases sample with
  | none => exact hfold
  | some s =>
    dsimp only
    by_cases hroot : t.isRoot parent = true
    · rw [if_pos hroot, settleAtTop]
      refine hfold.trans ?_
      split_ifs
      · exact tame_setBefore _ _ s
      · exact .refl _
      · exact .foldl (fun t id => tame_setBefore t _ id) ids _
    · rw [if_neg hroot]
      exact hfold

theorem tame_handOverBefore (t : Tree) (parent child : NodeId) (i : Nat) :
    t.Tame (t.handOverBefore parent child i) := by
  rw [handOverBefore]
  split_ifs
  · cases (t.children parent)[1]? with
    | none => exact .refl t
    | some second => exact tame_setBefore t _ second
  · exact .refl t

theorem tame_detach (t : Tree) (id : NodeId) : t.Tame (t.detach id) :=
  .modify (f := fun n => { n with parent := none }) (fun _ => ⟨rfl, rfl, rfl, fun h => h⟩) t id

/-! ### What nodes say while lists change -/

/-- Lists do not change what nodes say. -/
theorem content?_relist (t : Tree) (parent : NodeId) (f : List NodeId → List NodeId)
    (move : Int → Int) : (t.relist parent f move).content? = t.content? := by
  funext x
  rw [relist, (tame_markDirty _ parent).content?_eq, content?, content?, get?_modify]
  split_ifs
  · rw [Option.map_map]
    rfl
  · rfl

/-- Nor do insertions. -/
theorem content?_splice (t : Tree) (parent : NodeId) (sample : Option NodeId) (inFront : Bool)
    (place : Nat) (ids : List NodeId) (move : Int → Int) :
    ((t.settle parent sample inFront ids).splice parent place ids move).content? = t.content? := by
  rw [splice, content?_relist]
  exact funext (tame_settle t parent sample inFront ids).content?_eq

/-- Nor removals. -/
theorem content?_removeAt (t : Tree) (parent child : NodeId) (i : Nat) :
    (t.removeAt parent child i).content? = t.content? := by
  rw [removeAt, content?_relist]
  exact funext ((tame_handOverBefore t parent child i).trans (tame_detach _ child)).content?_eq

theorem content?_openBlock (t : Tree) (id : NodeId) :
    (t.modify id (·.withDetail fun d => { d with block := true })).content? = t.content? := by
  funext x
  rw [content?, content?, get?_modify]
  split_ifs
  · rw [Option.map_map]
    rfl
  · rfl

end Tree

end Stylesheet
