import Stylesheet.Proofs.Tree.Cursors

/-!
# A cursor while the list changes

A cursor cuts a list of children in two: those it has passed and those ahead of it
(`Tree.Midway`). While a child is visited it counts as passed, so a cursor at place `i` has passed
`i + 1` children.

A change leaves all lists and cursors alone (`Tree.Still`), puts nodes into one list
(`Tree.Placed`) or takes a node out of one (`Tree.Taken`). In each case the cursor moves along: what
was passed stays passed, and what was ahead stays ahead in its order (`Passage`), but for nodes
that are taken out.
-/

namespace Stylesheet

/-! ### What a cursor has passed -/

/-- The children that a cursor has passed and those ahead of it, before and after a change. Nodes
with `gone` were taken out, and nodes with `came` were put in. -/
structure Passage (gone came : NodeId → Prop) (passed ahead passed' ahead' : List NodeId) :
    Prop where
  stays : ∀ x ∈ passed, ¬ gone x → x ∈ passed'
  order : ∀ l : List NodeId, l.Sublist ahead → (∀ x ∈ l, ¬ gone x) → l.Sublist ahead'
  new : ∀ x ∈ ahead', x ∈ ahead ∨ came x

namespace Passage

variable {gone gone' came came' : NodeId → Prop} {a b a' b' a'' b'' : List NodeId}

theorem refl (a b : List NodeId) : Passage gone came a b a b :=
  ⟨fun _ hx _ => hx, fun _ hl _ => hl, fun _ hx => Or.inl hx⟩

/-- A passage after a passage: what went or came in either did so on the way. -/
theorem trans (h : Passage gone came a b a' b') (h' : Passage gone' came' a' b' a'' b'') :
    Passage (fun x => gone x ∨ gone' x) (fun x => came x ∨ came' x) a b a'' b'' where
  stays x hx hkept := by
    rw [not_or] at hkept
    exact h'.stays x (h.stays x hx hkept.1) hkept.2
  order l hl hkept := by
    refine h'.order l (h.order l hl fun x hx hgone => ?_) fun x hx hgone => ?_
    · exact hkept x hx (Or.inl hgone)
    · exact hkept x hx (Or.inr hgone)
  new x hx := by
    rcases h'.new x hx with hx | hcame
    · exact (h.new x hx).imp_right Or.inl
    · exact Or.inr (Or.inr hcame)

/-- More may be allowed to go and to come. -/
theorem mono (h : Passage gone came a b a' b') (hgone : ∀ x, gone x → gone' x)
    (hcame : ∀ x, came x → came' x) : Passage gone' came' a b a' b' where
  stays x hx hkept := h.stays x hx fun hx => hkept (hgone x hx)
  order l hl hkept := h.order l hl fun x hx hgone' => hkept x hx (hgone x hgone')
  new x hx := (h.new x hx).imp_right (hcame x)

/-- A node ahead stays ahead. -/
theorem mem_ahead (h : Passage gone came a b a' b') {x : NodeId} (hx : x ∈ b) (hkept : ¬ gone x) :
    x ∈ b' := by
  have hsub := h.order [x] (List.singleton_sublist.mpr hx) (List.forall_mem_singleton.mpr hkept)
  exact List.singleton_sublist.mp hsub

end Passage

namespace Tree

variable {t u v : Tree} {p q : NodeId} {k : Nat} {passed ahead ids : List NodeId}

/-! ### Cursors on a node -/

/-- The cursors on a node. -/
def cursors (t : Tree) (x : NodeId) : List Cursor :=
  ((t.get? x).map Node.cursors).getD []

theorem cursorIndex?_eq_cursors (t : Tree) (x : NodeId) (k : Nat) :
    t.cursorIndex? x k = ((t.cursors x).find? (·.id == k)).map Cursor.index := by
  rw [cursorIndex?, cursors]
  cases t.get? x <;> rfl

/-- A node with a cursor is there. -/
theorem contains_of_cursorIndex? {i : Int} (h : t.cursorIndex? p k = some i) :
    t.contains p = true := by
  rw [cursorIndex?] at h
  obtain ⟨n, hn, -⟩ := Option.bind_eq_some_iff.mp h
  exact Option.isSome_iff_exists.mpr ⟨n, hn⟩

theorem Tame.cursors_eq (h : t.Tame u) (x : NodeId) : u.cursors x = t.cursors x := by
  rw [cursors, cursors]
  rcases h x with ⟨ht, hu⟩ | ⟨n, n', hn, hn', htame⟩
  · rw [ht, hu]
  · rw [hn, hn', Option.map_some, Option.map_some, htame.cursors]

/-- The cursors of one node are changed. -/
theorem cursors_modify {f : Node → Node} (g : List Cursor → List Cursor) (hg : g [] = [])
    (hf : ∀ n, (f n).cursors = g n.cursors) (t : Tree) (id x : NodeId) :
    (t.modify id f).cursors x = if id = x then g (t.cursors x) else t.cursors x := by
  rw [cursors, cursors, get?_modify]
  split_ifs
  · cases t.get? x with
    | none => exact hg.symm
    | some n => exact hf n
  · rfl

/-- The cursors with their places moved. -/
def moved (move : Int → Int) (cursors : List Cursor) : List Cursor :=
  cursors.map fun c => { c with index := move c.index }

/-- A cursor that is moved with others is found where it was moved to. -/
theorem find?_moved (move : Int → Int) (cursors : List Cursor) (k : Nat) :
    ((moved move cursors).find? (·.id == k)).map Cursor.index =
      ((cursors.find? (·.id == k)).map Cursor.index).map move := by
  rw [moved, List.find?_map, Option.map_map, Option.map_map]
  rfl

theorem map_id_moved (move : Int → Int) (cursors : List Cursor) :
    (moved move cursors).map Cursor.id = cursors.map Cursor.id := by
  rw [moved, List.map_map]
  rfl

/-- Only cursors on the list that is changed are moved. -/
theorem cursors_relist (t : Tree) (parent : NodeId) (f : List NodeId → List NodeId)
    (move : Int → Int) (x : NodeId) :
    (t.relist parent f move).cursors x =
      if parent = x then moved move (t.cursors x) else t.cursors x := by
  rw [relist, (tame_markDirty _ parent).cursors_eq]
  exact cursors_modify (moved move) rfl (fun _ => rfl) t parent x

/-! ### Changes that leave lists and cursors alone -/

/-- Nodes that were there have the lists and the cursors that they had; new ones have no
cursors. -/
structure Still (t u : Tree) : Prop where
  contains : ∀ p, t.contains p = true → u.contains p = true
  children : ∀ p, t.contains p = true → u.children p = t.children p
  cursors : ∀ p, u.cursors p = t.cursors p

namespace Still

theorem refl (t : Tree) : t.Still t :=
  ⟨fun _ h => h, fun _ _ => rfl, fun _ => rfl⟩

theorem trans (h : t.Still u) (h' : u.Still v) : t.Still v where
  contains p hp := h'.contains p (h.contains p hp)
  children p hp := (h'.children p (h.contains p hp)).trans (h.children p hp)
  cursors p := (h'.cursors p).trans (h.cursors p)

/-- When links and cursors are the same, lists stand still. -/
theorem of_links_eq (hlinks : u.links = t.links) (hcursors : ∀ p, u.cursors p = t.cursors p) :
    t.Still u where
  contains p hp := by
    rw [contains_eq_links, hlinks, ← contains_eq_links]
    exact hp
  children p _ := by rw [children_eq_links, children_eq_links, hlinks]
  cursors := hcursors

theorem markDirty (t : Tree) (id : NodeId) : t.Still (t.markDirty id) :=
  .of_links_eq (links_markDirty t id) (tame_markDirty t id).cursors_eq

/-- Formatting, contents and blocks have no part in lists and cursors. -/
theorem withDetail (f : Detail → Detail) (t : Tree) (id : NodeId) :
    t.Still (t.modify id (·.withDetail f)) where
  contains p hp := by
    rw [Tree.contains, get?_modify]
    split_ifs
    · rw [Option.isSome_map]
      exact hp
    · exact hp
  children p _ := by
    rw [Tree.children, Tree.children, get?_modify]
    split_ifs
    · rw [Option.map_map]
      rfl
    · rfl
  cursors p := by
    rw [cursors_modify (f := (·.withDetail f)) (fun l => l) rfl fun _ => rfl]
    split_ifs <;> rfl

theorem setContent (t : Tree) (id : NodeId) (old new : Content) :
    t.Still (t.setContent id old new) := by
  rw [Tree.setContent]
  split_ifs
  · exact .refl t
  · exact (withDetail _ t id).trans (.markDirty _ id)

theorem cleanRaws (t : Tree) (id : NodeId) (keepBetween : Bool) :
    t.Still (t.cleanRaws id keepBetween) := by
  rw [Tree.cleanRaws]
  generalize (t.shape id).toList = ids
  induction ids generalizing t with
  | nil => exact .refl t
  | cons id ids ih =>
    rw [List.foldl_cons]
    exact ((withDetail _ t id).trans (.markDirty _ id)).trans (ih _)

/-- New nodes. -/
theorem graft (t : Tree) (b : Draft) : t.Still (t.graft b).2 where
  contains p hp := (extends_graft t b).contains hp
  children p hp := (extends_graft t b).children hp
  cursors p := by
    rw [Tree.cursors, Tree.cursors]
    by_cases hp : t.contains p = true
    · rw [get?_graft_of_lt b (contains_iff_index_lt.mp hp)]
    · have hnone : t.get? p = none := Option.not_isSome_iff_eq_none.mp hp
      rw [hnone]
      cases hn : (t.graft b).2.get? p with
      | none => rfl
      | some n =>
        rcases untouched_of_get?_graft hn with hget | huntouched
        · rw [hnone] at hget; cases hget
        · exact huntouched.cursors

theorem graftAll (t : Tree) (bs : List Draft) : t.Still (t.graftAll bs).2 := by
  induction bs generalizing t with
  | nil => exact .refl t
  | cons b bs ih => exact (graft t b).trans (ih _)

/-- More children for a node that was not there at first. -/
theorem insertLast (h : t.Still u) {parent : NodeId} (hnew : t.contains parent = false)
    (ids : List NodeId) : t.Still (u.insertLast parent ids) := by
  -- The parent is new, so the lists that count are all other lists.
  have hlinks : ∀ p, parent ≠ p → (u.insertLast parent ids).children p = u.children p := by
    intro p hp
    rw [Tree.insertLast, splice, children_eq_links, links_relist, if_neg hp, links_settle,
      children_eq_links u p]
    split_ifs
    · rw [Option.map_map]
      rfl
    · rfl
  constructor
  case contains =>
    intro p hp
    rw [Tree.insertLast, splice, contains_eq_links, links_relist, links_settle]
    have hu := h.contains p hp
    rw [contains_eq_links] at hu
    split_ifs <;> simpa only [Option.isSome_map] using hu
  case children =>
    intro p hp
    rw [hlinks p fun heq => ?_, h.children p hp]
    rw [heq, hp] at hnew
    cases hnew
  case cursors =>
    intro p
    rw [Tree.insertLast, splice, cursors_relist, (tame_settle _ _ _ _ _).cursors_eq, h.cursors]
    split_ifs
    · exact List.map_id _
    · rfl

end Still

/-! ### The place of a cursor -/

/-- The cursor on the node has passed some of the children, and the others are ahead. -/
structure Midway (t : Tree) (p : NodeId) (k : Nat) (passed ahead : List NodeId) : Prop where
  children : t.children p = passed ++ ahead
  index : t.cursorIndex? p k = some ((passed.length : Int) - 1)

theorem Midway.contains (h : t.Midway p k passed ahead) : t.contains p = true :=
  contains_of_cursorIndex? h.index

/-- Standing still does not take a cursor anywhere. -/
theorem Midway.still (h : t.Midway p k passed ahead) (hstill : t.Still u) :
    u.Midway p k passed ahead where
  children := (hstill.children p h.contains).trans h.children
  index := by
    rw [cursorIndex?_eq_cursors, hstill.cursors, ← cursorIndex?_eq_cursors]
    exact h.index

/-! ### Nodes that are put in -/

/-- Cursors on a list move along when `count` nodes come in at `place`: a cursor that has passed the
place goes on by as many, and one before it stays. -/
def Along (length place count : Nat) (move : Int → Int) : Prop :=
  ∀ c : Int, -1 ≤ c → c < length →
    move c = c ∧ c + 1 ≤ place ∨ move c = c + count ∧ (place : Int) ≤ c + 1

/-- Nodes were put into the list of `parent`, and the cursors on it moved along. -/
structure Placed (t u : Tree) (parent : NodeId) (ids : List NodeId) (place : Nat)
    (move : Int → Int) : Prop where
  contains : ∀ p, t.contains p = true → u.contains p = true
  new : ∀ c ∈ ids, c ∉ t.children parent
  list : u.children parent =
    (t.children parent).take place ++ ids ++ (t.children parent).drop place
  others : ∀ p, t.contains p = true → parent ≠ p → u.children p = t.children p
  cursors : ∀ p, u.cursors p = if parent = p then moved move (t.cursors p) else t.cursors p
  along : Along (t.children parent).length place ids.length move

/-- The node came into the list of `p`. -/
def Came (t u : Tree) (p x : NodeId) : Prop :=
  x ∉ t.children p ∧ x ∈ u.children p

section Placed

variable {parent : NodeId} {place : Nat} {move : Int → Int}

/-- Nodes on offer that are put into a list. -/
theorem placed_splice (ht : t.Consistent) (hblock : t.hasBlock parent = true)
    (hready : t.Ready parent ids) (halong : Along (t.children parent).length place ids.length move)
    (sample : Option NodeId) (inFront : Bool) :
    t.Placed ((t.settle parent sample inFront ids).splice parent place ids move) parent ids place
      move := by
  have hins := inserted_splice hblock hready sample inFront place move
  refine ⟨fun p hp => (hins.contains p).trans hp, fun c hc => hready.not_mem_children ht hc parent,
    hins.list, fun p _ hne => hins.others p hne, fun p => ?_, halong⟩
  rw [splice, cursors_relist, (tame_settle _ _ _ _ _).cursors_eq]

/-- Behind the last place no cursor is moved. -/
theorem along_last (n count : Nat) : Along n n count id :=
  fun _ _ hlt => Or.inl ⟨rfl, hlt⟩

/-- In front of the first one all of them are. -/
theorem along_first (n count : Nat) : Along n 0 count (· + count) := by
  refine fun c hle _ => Or.inr ⟨rfl, ?_⟩
  omega

/-- In front of a node, a cursor on this node is moved along, -/
theorem along_inFront (n i count : Nat) :
    Along n i count fun c => if (i : Int) ≤ c then c + count else c := by
  intro c _ _
  by_cases hi : (i : Int) ≤ c
  · exact Or.inr ⟨if_pos hi, by omega⟩
  · exact Or.inl ⟨if_neg hi, by omega⟩

/-- and behind it, it is not. -/
theorem along_behind (n i count : Nat) :
    Along n (i + 1) count fun c => if (i : Int) < c then c + count else c := by
  intro c _ _
  by_cases hi : (i : Int) < c
  · exact Or.inr ⟨if_pos hi, by omega⟩
  · exact Or.inl ⟨if_neg hi, by omega⟩

/-- Nodes that are put into a list with the others staying in their order. -/
theorem sublist_put_in {b l : List NodeId} (h : l.Sublist b) (i : Nat) (ids : List NodeId) :
    l.Sublist (b.take i ++ ids ++ b.drop i) := by
  rw [← List.take_append_drop i b] at h
  exact h.trans ((List.sublist_append_left _ ids).append_right _)

/-- The new list has the nodes of the old one and those that are put in. -/
theorem mem_put_in {b : List NodeId} {i : Nat} {x : NodeId} :
    x ∈ b.take i ++ ids ++ b.drop i ↔ x ∈ b ∨ x ∈ ids := by
  rw [List.mem_append, List.mem_append, or_right_comm, ← List.mem_append, List.take_append_drop]

/-- The nodes come in behind the cursor or ahead of it. -/
theorem Placed.passage (h : t.Placed u parent ids place move)
    (hmidway : t.Midway p k passed ahead) :
    ∃ passed' ahead', u.Midway p k passed' ahead' ∧
      Passage (fun _ => False) (t.Came u p) passed ahead passed' ahead' ∧
        (move = id → passed' = passed) := by
  by_cases hp : parent = p
  · subst hp
    have hindex : u.cursorIndex? parent k = some (move (passed.length - 1)) := by
      rw [cursorIndex?_eq_cursors, h.cursors, if_pos rfl, find?_moved, ← cursorIndex?_eq_cursors,
        hmidway.index]
      rfl
    have hcame : ∀ x ∈ ids, t.Came u parent x := by
      intro x hx
      refine ⟨h.new x hx, ?_⟩
      rw [h.list]
      exact mem_put_in.mpr (Or.inr hx)
    have hlist := h.list
    have halong := h.along ((passed.length : Int) - 1) (by omega) (by
      rw [hmidway.children, List.length_append]
      omega)
    rw [hmidway.children] at hlist
    rcases halong with ⟨hmove, hle⟩ | ⟨hmove, hle⟩
    · -- Ahead of the cursor.
      have hle' : passed.length ≤ place := by omega
      refine ⟨passed, ahead.take (place - passed.length) ++ ids ++
        ahead.drop (place - passed.length), ⟨?_, ?_⟩, ⟨fun _ hx _ => hx, ?_, ?_⟩, fun _ => rfl⟩
      · rw [hlist, List.take_append, List.drop_append, List.take_of_length_le hle',
          List.drop_of_length_le hle', List.nil_append, List.append_assoc, List.append_assoc,
          List.append_assoc]
      · rw [hindex, hmove]
      · exact fun l hl _ => sublist_put_in hl _ ids
      · exact fun x hx => (mem_put_in.mp hx).imp_right (hcame x)
    · -- Behind it.
      have hle' : place ≤ passed.length := by omega
      refine ⟨passed.take place ++ ids ++ passed.drop place, ahead, ⟨?_, ?_⟩,
        ⟨?_, fun _ hl _ => hl, fun _ hx => Or.inl hx⟩, fun hid => ?_⟩
      · rw [hlist, List.take_append_of_le_length hle', List.drop_append_of_le_length hle',
          List.append_assoc _ _ ahead]
      · rw [hindex, hmove, List.length_append, List.length_append, List.length_take,
          List.length_drop]
        congr 1
        omega
      · exact fun x hx _ => mem_put_in.mpr (Or.inl hx)
      · rw [hid, id_eq] at hmove
        have hnil : ids = [] := List.eq_nil_of_length_eq_zero (by omega)
        rw [hnil, List.append_nil, List.take_append_drop]
  · refine ⟨passed, ahead, ⟨?_, ?_⟩, .refl passed ahead, fun _ => rfl⟩
    · exact (h.others p hmidway.contains hp).trans hmidway.children
    · rw [cursorIndex?_eq_cursors, h.cursors, if_neg hp, ← cursorIndex?_eq_cursors]
      exact hmidway.index

end Placed

/-! ### A node that is taken out -/

/-- The child at place `i` was taken out of the list of `parent`, and the cursors on it moved
along. -/
structure Taken (t u : Tree) (parent child : NodeId) (i : Nat) : Prop where
  contains : ∀ p, t.contains p = true → u.contains p = true
  child : (t.children parent)[i]? = some child
  list : u.children parent = (t.children parent).eraseIdx i
  others : ∀ p, parent ≠ p → u.children p = t.children p
  cursors : ∀ p, u.cursors p =
    if parent = p then moved (fun c => if (i : Int) ≤ c then c - 1 else c) (t.cursors p)
    else t.cursors p

section Taken

variable {parent child : NodeId} {i : Nat}

theorem mem_of_mem_eraseIdx {l : List NodeId} (h : l[i]? = some child) {x : NodeId} (hx : x ∈ l)
    (hne : x ≠ child) : x ∈ l.eraseIdx i := by
  obtain ⟨hlt, hchild⟩ := List.getElem?_eq_some_iff.mp h
  have hperm := List.getElem_cons_eraseIdx_perm hlt
  rw [hchild] at hperm
  exact (List.mem_cons.mp (hperm.mem_iff.mpr hx)).resolve_left hne

/-- What does not have the child keeps its order when the child goes. -/
theorem sublist_eraseIdx {l m : List NodeId} (h : l[i]? = some child) (hm : m.Sublist l)
    (hne : child ∉ m) : m.Sublist (l.eraseIdx i) := by
  obtain ⟨hlt, hchild⟩ := List.getElem?_eq_some_iff.mp h
  have hsplit : l = l.take i ++ child :: l.drop (i + 1) := by
    rw [← hchild, List.getElem_cons_drop, List.take_append_drop]
  rw [List.eraseIdx_eq_take_drop_succ]
  rw [hsplit, List.sublist_append_iff] at hm
  obtain ⟨m₁, m₂, rfl, h₁, h₂⟩ := hm
  refine h₁.append ?_
  cases h₂ with
  | cons _ h₂ => exact h₂
  | cons_cons _ h₂ => exact absurd (List.mem_append_right m₁ List.mem_cons_self) hne

/-- The node was passed or is ahead of the cursor. -/
theorem Taken.passage (h : t.Taken u parent child i) (hmidway : t.Midway p k passed ahead) :
    ∃ passed' ahead', u.Midway p k passed' ahead' ∧
      Passage (fun x => parent = p ∧ x = child) (fun _ => False) passed ahead passed' ahead' := by
  by_cases hp : parent = p
  · subst hp
    have hindex : u.cursorIndex? parent k = some (if (i : Int) ≤ passed.length - 1 then
        (passed.length - 1 : Int) - 1 else passed.length - 1) := by
      rw [cursorIndex?_eq_cursors, h.cursors, if_pos rfl, find?_moved, ← cursorIndex?_eq_cursors,
        hmidway.index]
      rfl
    have hlist := h.list
    have hchild := h.child
    rw [hmidway.children] at hlist hchild
    -- What was taken had been passed, and the cursor moves back by one; or it lay ahead, and it
    -- stays.
    rcases Nat.lt_or_ge i passed.length with hlt | hge
    · rw [List.getElem?_append_left hlt] at hchild
      refine ⟨passed.eraseIdx i, ahead, ⟨?_, ?_⟩, fun x hx hne => ?_, fun _ hl _ => hl,
        fun _ hx => Or.inl hx⟩
      · rw [hlist, List.eraseIdx_append_of_lt_length hlt]
      · rw [hindex, if_pos (by omega), List.length_eraseIdx_of_lt hlt]
        congr 1
        omega
      · exact mem_of_mem_eraseIdx hchild hx fun heq => hne ⟨rfl, heq⟩
    · rw [List.getElem?_append_right hge] at hchild
      refine ⟨passed, ahead.eraseIdx (i - passed.length), ⟨?_, ?_⟩, fun _ hx _ => hx,
        fun l hl hkept => ?_, fun x hx => ?_⟩
      · rw [hlist, List.eraseIdx_append_of_length_le hge]
      · rw [hindex, if_neg (by omega)]
      · exact sublist_eraseIdx hchild hl fun hmem => hkept child hmem ⟨rfl, rfl⟩
      · exact Or.inl ((List.eraseIdx_sublist _ _).subset hx)
  · refine ⟨passed, ahead, ⟨?_, ?_⟩, .refl passed ahead⟩
    · exact (h.others p hp).trans hmidway.children
    · rw [cursorIndex?_eq_cursors, h.cursors, if_neg hp, ← cursorIndex?_eq_cursors]
      exact hmidway.index

end Taken

end Tree

end Stylesheet
