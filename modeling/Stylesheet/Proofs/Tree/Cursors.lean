import Stylesheet.Proofs.Tree.Later

/-!
# Cursors and marks of a traversal

Opening, moving and closing a cursor changes nothing but this cursor, and marking a node as visited
nothing but its mark. `Tree.cursorChild?_eq_some` says which child stands at a cursor.
-/

namespace Stylesheet

namespace Tree

variable {t u : Tree} {bound : NodeId → Nat} {x p : NodeId} {j k : Nat}

/-! ### Trees that differ by cursors -/

/-- Nodes say the same, stand in the same places and have the same marks. -/
structure Alike (t u : Tree) : Prop where
  links : u.links = t.links
  content : u.content? = t.content?
  clean : u.isClean = t.isClean

theorem Alike.refl (t : Tree) : t.Alike t :=
  ⟨rfl, rfl, rfl⟩

theorem Alike.modify {f : Node → Node} (hlinks : ∀ n, (f n).links = n.links)
    (hcontent : ∀ n, (f n).content = n.content) (hclean : ∀ n, (f n).clean = n.clean) (t : Tree)
    (id : NodeId) : t.Alike (t.modify id f) where
  links := links_modify_of hlinks t id
  content := by
    funext x
    rw [content?, content?, get?_modify]
    split_ifs
    · rw [Option.map_map]
      exact congrArg (Option.map · (t.get? x)) (funext hcontent)
    · rfl
  clean := isClean_modify hclean t id

theorem Alike.parent? (h : t.Alike u) : u.parent? = t.parent? := by
  funext x
  rw [parent?_eq_links, parent?_eq_links, h.links]

theorem Alike.children (h : t.Alike u) : u.children = t.children := by
  funext x
  rw [children_eq_links, children_eq_links, h.links]

theorem Alike.kind? (h : t.Alike u) : u.kind? = t.kind? := by
  funext x
  rw [kind?_eq_links, kind?_eq_links, h.links]

/-- The same nodes are attached. -/
theorem Alike.attached_iff (h : t.Alike u) : u.Attached x ↔ t.Attached x :=
  attached_congr h.links x

/-- A tree that differs in cursors is later, as long as no cursor in use has moved. -/
theorem Alike.later (h : t.Alike u)
    (hcursors : ∀ x, ∀ k ≤ bound x, u.cursorIndex? x k = t.cursorIndex? x k)
    (hlast : ∀ x, t.lastCursor x ≤ u.lastCursor x) (hnumbered : t.Numbered → u.Numbered) :
    t.Later bound u where
  kept := by
    intro x hx _
    refine ⟨h.clean ▸ hx, congrFun h.content x, fun y p _ hyp => ?_, congrFun h.children x,
      hcursors x, fun c _ hc => h.clean ▸ hc⟩
    rwa [Under, h.parent?] at hyp
  kind := fun x k hk => h.kind? ▸ hk
  lastCursor := hlast
  numbered := hnumbered

/-! ### One cursor -/

/-- Other nodes keep their cursors. -/
theorem cursorIndex?_modify_of_ne {f : Node → Node} (hne : p ≠ x) (t : Tree) (k : Nat) :
    (t.modify p f).cursorIndex? x k = t.cursorIndex? x k := by
  rw [cursorIndex?, cursorIndex?, get?_modify, if_neg hne]

theorem cursorIndex?_of_get? {n : Node} (hn : t.get? x = some n) (k : Nat) :
    t.cursorIndex? x k = (n.cursors.find? (·.id == k)).map Cursor.index := by
  rw [cursorIndex?, hn]
  rfl

/-- The child at a cursor. -/
theorem cursorChild?_eq_some {i : Nat} {c : NodeId} :
    t.cursorChild? p k = some (i, c) ↔
      t.cursorIndex? p k = some (i : Int) ∧ (t.children p)[i]? = some c := by
  rw [cursorChild?, cursorIndex?, children]
  cases t.get? p with
  | none => simp
  | some n =>
    show (n.cursors.find? (·.id == k)).bind _ = _ ↔
      (n.cursors.find? (·.id == k)).map Cursor.index = _ ∧ n.children[i]? = some c
    cases n.cursors.find? (·.id == k) with
    | none => simp
    | some cursor =>
      obtain ⟨id, index⟩ := cursor
      show (if index < 0 then none else (n.children[index.toNat]?).bind fun child =>
        some (index.toNat, child)) = _ ↔ some index = some (i : Int) ∧ _
      rcases index with index | index
      · rw [if_neg (Int.not_lt.mpr (Int.natCast_nonneg index) : ¬ Int.ofNat index < 0)]
        show (n.children[index]?).bind _ = _ ↔ _
        rw [Option.bind_eq_some_iff]
        constructor
        · rintro ⟨child, hchild, heq⟩
          cases heq
          exact ⟨rfl, hchild⟩
        · rintro ⟨hindex, hchild⟩
          obtain rfl := Int.ofNat.inj (Option.some.inj hindex)
          exact ⟨c, hchild, rfl⟩
      -- A cursor in front of the first child is at no child.
      · rw [if_pos (Int.negSucc_lt_zero index)]
        simp

/-! ### Opening -/

/-- The node with one more cursor, at the first child. -/
def withCursor (k : Nat) (n : Node) : Node :=
  { n with lastCursor := k, cursors := n.cursors ++ [⟨k, 0⟩] }

/-- A new cursor has the next number. -/
theorem openCursor_eq_some (h : t.openCursor p = some (k, u)) :
    ∃ n, t.get? p = some n ∧ k = n.lastCursor + 1 ∧ u = t.modify p (withCursor k) := by
  rw [openCursor] at h
  cases hget : t.get? p with
  | none => rw [hget] at h; cases h
  | some n =>
    rw [hget] at h
    dsimp only [bind, Option.bind] at h
    split_ifs at h
    cases h
    exact ⟨n, rfl, rfl, rfl⟩

/-- A cursor can be opened on a node with a block. -/
theorem exists_openCursor (h : t.hasBlock p = true) : ∃ k u, t.openCursor p = some (k, u) := by
  rw [hasBlock] at h
  rw [openCursor]
  cases hget : t.get? p with
  | none => rw [hget] at h; cases h
  | some n =>
    rw [hget] at h
    have hblock : n.isContainer = true := h
    dsimp only [bind, Option.bind]
    rw [if_pos hblock]
    exact ⟨_, _, rfl⟩

/-- A node without a block has no children. -/
theorem children_eq_nil_of_openCursor (ht : t.Consistent) (hopen : t.openCursor p = none) :
    t.children p = [] := by
  refine Classical.byContradiction fun hne => ?_
  obtain ⟨k, u, hsome⟩ := exists_openCursor (ht.block p hne)
  rw [hopen] at hsome
  cases hsome

/-- Opening a cursor changes nothing but cursors. -/
theorem alike_openCursor (h : t.openCursor p = some (k, u)) : t.Alike u := by
  obtain ⟨n, -, -, rfl⟩ := openCursor_eq_some h
  exact .modify (f := withCursor k) (fun _ => rfl) (fun _ => rfl) (fun _ => rfl) t p

/-- Cursors with lower numbers stay where they are. -/
theorem cursorIndex?_openCursor (h : t.openCursor p = some (k, u)) (hj : j ≤ t.lastCursor x) :
    u.cursorIndex? x j = t.cursorIndex? x j := by
  obtain ⟨n, hn, hk, rfl⟩ := openCursor_eq_some h
  by_cases hpx : p = x
  · subst hpx
    have hne : (k == j) = false := by
      rw [lastCursor, hn] at hj
      have hle : j ≤ n.lastCursor := hj
      rw [beq_eq_false_iff_ne]
      omega
    have hn' : (t.modify p (withCursor k)).get? p = some (withCursor k n) := by
      rw [get?_modify, if_pos rfl, hn]
      rfl
    rw [cursorIndex?_of_get? hn', cursorIndex?_of_get? hn, withCursor, List.find?_append,
      List.find?_singleton, if_neg (ne_true_of_eq_false hne), Option.or_none]
  · exact cursorIndex?_modify_of_ne hpx t j

theorem lastCursor_openCursor (h : t.openCursor p = some (k, u)) (x : NodeId) :
    t.lastCursor x ≤ u.lastCursor x := by
  obtain ⟨n, hn, hk, rfl⟩ := openCursor_eq_some h
  rw [lastCursor, lastCursor, get?_modify]
  split_ifs with hpx
  · subst hpx
    rw [hn]
    show n.lastCursor ≤ k
    omega
  · exact Nat.le_refl _

/-- Numbers are given in order. -/
theorem numbered_openCursor (h : t.openCursor p = some (k, u)) (ht : t.Numbered) : u.Numbered := by
  intro x m hm c hc
  obtain ⟨n, hn, hk, rfl⟩ := openCursor_eq_some h
  rw [get?_modify] at hm
  split_ifs at hm with hpx
  · subst hpx
    rw [hn] at hm
    cases hm
    show c.id ≤ k
    rcases List.mem_append.mp hc with hc | hc
    · have hle := ht p n hn c hc
      omega
    · exact Nat.le_of_eq (congrArg Cursor.id (List.mem_singleton.mp hc))
  · exact ht x m hm c hc

/-- A new cursor stands at the first child. -/
theorem cursorIndex?_opened (h : t.openCursor p = some (k, u)) (ht : t.Numbered) :
    u.cursorIndex? p k = some 0 := by
  obtain ⟨n, hn, hk, rfl⟩ := openCursor_eq_some h
  have hnone : n.cursors.find? (·.id == k) = none := by
    refine List.find?_eq_none.mpr fun c hc heq => ?_
    have hle := ht p n hn c hc
    rw [beq_iff_eq.mp heq, hk] at hle
    exact Nat.not_succ_le_self _ hle
  have hn' : (t.modify p (withCursor k)).get? p = some (withCursor k n) := by
    rw [get?_modify, if_pos rfl, hn]
    rfl
  rw [cursorIndex?_of_get? hn', withCursor, List.find?_append, hnone, Option.none_or,
    List.find?_singleton, if_pos (beq_self_eq_true k)]
  rfl

/-- The new number is higher than the last one, and is the last one now. -/
theorem lastCursor_opened (h : t.openCursor p = some (k, u)) :
    t.lastCursor p < k ∧ u.lastCursor p = k := by
  obtain ⟨n, hn, hk, rfl⟩ := openCursor_eq_some h
  rw [lastCursor, lastCursor, get?_modify, if_pos rfl, hn]
  exact ⟨by show n.lastCursor < k; omega, rfl⟩

/-! ### Moving and closing -/

/-- The node with one cursor moved to the next child. -/
def advanced (k : Nat) (n : Node) : Node :=
  { n with cursors := n.cursors.map fun c =>
      if c.id == k then { c with index := c.index + 1 } else c }

/-- The cursor is moved on by one; others are passed over. -/
theorem find?_advanced (cursors : List Cursor) (k j : Nat) :
    ((cursors.map fun c => if c.id == k then { c with index := c.index + 1 } else c).find?
        (·.id == j)).map Cursor.index =
      ((cursors.find? (·.id == j)).map Cursor.index).map fun i => if j = k then i + 1 else i := by
  induction cursors with
  | nil => rfl
  | cons c cursors ih =>
    have hid : (if c.id == k then { c with index := c.index + 1 } else c : Cursor).id = c.id := by
      split_ifs <;> rfl
    rw [List.map_cons, List.find?_cons, List.find?_cons, hid]
    cases hj : c.id == j with
    | false => exact ih
    | true =>
      have hk : (c.id == k) = true ↔ j = k := by rw [beq_iff_eq, beq_iff_eq.mp hj]
      by_cases hjk : j = k
      · simp only [if_pos hjk, if_pos (hk.mpr hjk), Option.map_some]
      · simp only [if_neg hjk, if_neg fun h => hjk (hk.mp h), Option.map_some]

theorem alike_advanceCursor (t : Tree) (p : NodeId) (k : Nat) : t.Alike (t.advanceCursor p k) :=
  .modify (f := advanced k) (fun _ => rfl) (fun _ => rfl) (fun _ => rfl) t p

/-- One cursor of one node is moved on. -/
theorem cursorIndex?_advanceCursor (t : Tree) (p : NodeId) (k : Nat) (x : NodeId) (j : Nat) :
    (t.advanceCursor p k).cursorIndex? x j =
      (t.cursorIndex? x j).map fun i => if p = x ∧ j = k then i + 1 else i := by
  by_cases hpx : p = x
  · subst hpx
    simp only [true_and]
    show (t.modify p (advanced k)).cursorIndex? p j = _
    rw [cursorIndex?, cursorIndex?, get?_modify, if_pos rfl]
    cases t.get? p with
    | none => rfl
    | some n => exact find?_advanced n.cursors k j
  · refine (cursorIndex?_modify_of_ne hpx t j).trans ?_
    simp only [hpx, false_and, if_false]
    exact Option.map_id'.symm

theorem lastCursor_advanceCursor (t : Tree) (p : NodeId) (k : Nat) (x : NodeId) :
    (t.advanceCursor p k).lastCursor x = t.lastCursor x :=
  lastCursor_modify (f := advanced k) (fun _ => rfl) t p x

theorem numbered_advanceCursor (p : NodeId) (k : Nat) (ht : t.Numbered) :
    (t.advanceCursor p k).Numbered := by
  refine numbered_modify (f := advanced k) (fun _ => rfl) (fun n c hc => ?_) ht
  obtain ⟨d, hd, rfl⟩ := List.mem_map.mp hc
  have hid : (if d.id == k then { d with index := d.index + 1 } else d : Cursor).id = d.id := by
    split_ifs <;> rfl
  rw [hid]
  exact List.mem_map_of_mem hd

/-- The node with one cursor less. -/
def withoutCursor (k : Nat) (n : Node) : Node :=
  { n with cursors := n.cursors.filter (·.id != k) }

theorem alike_closeCursor (t : Tree) (p : NodeId) (k : Nat) : t.Alike (t.closeCursor p k) :=
  .modify (f := withoutCursor k) (fun _ => rfl) (fun _ => rfl) (fun _ => rfl) t p

theorem alike_closeCursor? (t : Tree) (p : NodeId) (cursor : Option Nat) :
    t.Alike ((cursor.map fun k => t.closeCursor p k).getD t) := by
  cases cursor with
  | none => exact .refl t
  | some k => exact alike_closeCursor t p k

/-- Only the cursor that is closed is gone. -/
theorem cursorIndex?_closeCursor (t : Tree) (hne : p = x → j ≠ k) :
    (t.closeCursor p k).cursorIndex? x j = t.cursorIndex? x j := by
  by_cases hpx : p = x
  · subst hpx
    show (t.modify p (withoutCursor k)).cursorIndex? p j = _
    rw [cursorIndex?, cursorIndex?, get?_modify, if_pos rfl]
    cases t.get? p with
    | none => rfl
    | some n =>
      show ((n.cursors.filter (·.id != k)).find? (·.id == j)).map Cursor.index = _
      rw [List.find?_filter]
      refine congrArg (Option.map Cursor.index) (congrArg (List.find? · n.cursors) ?_)
      funext c
      rw [Bool.eq_iff_iff]
      simp only [bne_iff_ne, ne_eq, beq_iff_eq, decide_eq_true_eq]
      exact ⟨fun h => h.2, fun h => ⟨h ▸ hne rfl, h⟩⟩
  · exact cursorIndex?_modify_of_ne hpx t j

theorem lastCursor_closeCursor (t : Tree) (p : NodeId) (k : Nat) (x : NodeId) :
    (t.closeCursor p k).lastCursor x = t.lastCursor x :=
  lastCursor_modify (f := withoutCursor k) (fun _ => rfl) t p x

/-- The numbers of closed cursors are not used again. -/
theorem numbered_closeCursor (p : NodeId) (k : Nat) (ht : t.Numbered) :
    (t.closeCursor p k).Numbered :=
  numbered_modify (f := withoutCursor k) (fun _ => rfl)
    (fun _ _ hc => List.mem_map_of_mem (List.mem_of_mem_filter hc)) ht

/-! ### Marking a node as visited -/

/-- The node as it is with its mark. -/
def mark (n : Node) : Node :=
  { n with clean := true }

theorem links_markClean (t : Tree) (id : NodeId) : (t.markClean id).links = t.links :=
  links_modify_of (f := mark) (fun _ => rfl) t id

/-- A node counts as visited when it is marked now or was before. -/
theorem isClean_markClean_iff (t : Tree) (id x : NodeId) :
    (t.markClean id).isClean x = true ↔ id = x ∧ t.contains x = true ∨ t.isClean x = true := by
  show (t.modify id mark).isClean x = true ↔ _
  rw [isClean, isClean, Tree.contains, get?_modify]
  cases t.get? x with
  | none => simp
  | some n =>
    split_ifs with hid
    · exact ⟨fun _ => Or.inl ⟨hid, rfl⟩, fun _ => rfl⟩
    · exact ⟨Or.inr, fun h => h.elim (fun h => absurd h.1 hid) fun h => h⟩

theorem content?_markClean (t : Tree) (id x : NodeId) :
    (t.markClean id).content? x = t.content? x := by
  show (t.modify id mark).content? x = _
  rw [content?, content?, get?_modify]
  split_ifs
  · rw [Option.map_map]
    rfl
  · rfl

theorem cursorIndex?_markClean (t : Tree) (id x : NodeId) (k : Nat) :
    (t.markClean id).cursorIndex? x k = t.cursorIndex? x k := by
  show (t.modify id mark).cursorIndex? x k = _
  rw [cursorIndex?, cursorIndex?, get?_modify]
  split_ifs
  · rw [Option.bind_map]
    rfl
  · rfl

theorem lastCursor_markClean (t : Tree) (id x : NodeId) :
    (t.markClean id).lastCursor x = t.lastCursor x :=
  lastCursor_modify (f := mark) (fun _ => rfl) t id x

theorem numbered_markClean (id : NodeId) (ht : t.Numbered) : (t.markClean id).Numbered :=
  numbered_modify (f := mark) (fun _ => rfl) (fun _ _ hc => List.mem_map_of_mem hc) ht

end Tree

end Stylesheet
