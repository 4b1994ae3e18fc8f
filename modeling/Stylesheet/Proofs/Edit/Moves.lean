import Stylesheet.Proofs.Edit.Intact
import Stylesheet.Proofs.Edit.Put

/-!
# Moves

A move takes a node out of its list and inserts it at another place. When the container is not below
the node, it is the node itself that is put in, with all that stands below it. A node cannot be put
into itself, so otherwise a new node takes its place, and the node stays out.

The node is taken out before it is known whether it can be put in. So when the insertion fails, only
the place of the node itself may have changed, and whether the at-rule that it was to be put into
has a block (`Edit.moved_or_unmoved`).
-/

namespace Stylesheet

namespace Tree

variable {t u v : Tree} {id : NodeId}

/-! ### Out of a list -/

/-- The node stands in no list, and all else stands where it stood. -/
structure Out (t v : Tree) (id : NodeId) : Prop where
  contains : ∀ j, v.contains j = t.contains j
  parent : ∀ j, v.parent? j = if j = id then none else t.parent? j
  lists : ∀ p, v.children p = (t.children p).erase id
  blocks : ∀ p, v.hasBlock p = t.hasBlock p
  content : v.content? = t.content?

/-- A node without a parent stands in no list. -/
theorem Consistent.not_mem_children (ht : t.Consistent) (hnone : t.parent? id = none) (p : NodeId) :
    id ∉ t.children p := by
  intro hmem
  rw [ht.listed p id hmem] at hnone
  cases hnone

/-- A node that stands in no list is out already. -/
theorem out_self (ht : t.Consistent) (hnone : t.parent? id = none) : t.Out t id where
  contains _ := rfl
  parent j := by
    split_ifs with hj
    · rw [hj, hnone]
    · rfl
  lists p := (List.erase_of_not_mem (ht.not_mem_children hnone p)).symm
  blocks _ := rfl
  content := rfl

/-- A node that is not there stands in no list. -/
theorem out_of_not_contains (ht : t.Consistent) (hid : t.contains id = false) : t.Out t id := by
  refine out_self ht ?_
  rw [parent?, Option.not_isSome_iff_eq_none.mp (ne_true_of_eq_false hid)]
  rfl

/-- A node that is removed from the list of its parent is out. -/
theorem out_removeAt (ht : t.Consistent) {parent : NodeId} {i : Nat}
    (hindex : t.indexIn? parent id = some i) : t.Out (t.removeAt parent id i) id := by
  have hrem := removed_removeAt ht hindex
  obtain ⟨hlt, hid⟩ := List.getElem?_eq_some_iff.mp (getElem?_of_indexIn? hindex)
  have hup := ht.listed parent id (List.mem_of_getElem? (getElem?_of_indexIn? hindex))
  refine ⟨hrem.contains, fun j => ?_, fun p => ?_, hrem.block, content?_removeAt t parent id i⟩
  · rw [hrem.links]
    simp only [List.mem_singleton]
  -- The parent loses one occurrence; elsewhere erasing does nothing, as the node is listed once.
  · by_cases hp : parent = p
    · subst hp
      rw [hrem.list, ← (ht.nodup_children parent).erase_getElem i hlt, hid]
    · rw [hrem.others p hp, List.erase_of_not_mem]
      intro hmem
      rw [ht.listed p id hmem] at hup
      exact hp (Option.some.inj hup).symm

namespace Out

/-- A node that has a parent now had the same one. -/
theorem parent?_of_eq_some (h : t.Out v id) {c p : NodeId} (hc : v.parent? c = some p) :
    t.parent? c = some p := by
  rw [h.parent] at hc
  split_ifs at hc
  exact hc

/-- Taking a node out opens and closes no block. -/
theorem lacksBlock_eq (h : t.Out v id) (p : NodeId) : v.lacksBlock p = t.lacksBlock p := by
  rw [lacksBlock, lacksBlock, kind?_eq_content?, kind?_eq_content?, h.content, h.blocks]

/-- What stands below the node still does. -/
theorem under_iff (h : t.Out v id) {p : NodeId} :
    Relation.ReflTransGen v.Under p id ↔ Relation.ReflTransGen t.Under p id := by
  constructor
  · exact fun hup => Relation.ReflTransGen.mono (fun x y => h.parent?_of_eq_some) _ _ hup
  · intro hup
    induction hup using Relation.ReflTransGen.head_induction_on with
    | refl => exact .refl
    -- The path climbs from below; the node that was taken out can only be its end.
    | @head x y hxy _ ih =>
      by_cases hx : x = id
      · rw [hx]
      · refine .head ?_ ih
        rw [Under, h.parent, if_neg hx]
        exact hxy

/-- It can be put in again wherever this is not below itself. -/
theorem free_eq (h : t.Out v id) (ht : t.Consistent) (hv : v.Consistent) (p : NodeId) :
    v.free p id = !t.isAncestor id p := by
  have hnone : v.parent? id = none := by rw [h.parent, if_pos rfl]
  rw [free, hnone, Option.isNone_none, Bool.true_and, Bool.eq_iff_iff, Bool.not_eq_true',
    Bool.not_eq_true', Bool.eq_false_iff, Bool.eq_false_iff, Ne, Ne, hv.isAncestor_iff,
    ht.isAncestor_iff, h.under_iff]

/-- The lists below the node are what they were. -/
theorem children_eq (h : t.Out v id) (ht : t.Consistent) {x : NodeId}
    (hx : Relation.ReflTransGen t.Under x id) : v.children x = t.children x := by
  rw [h.lists, List.erase_of_not_mem]
  intro hmem
  exact ht.acyclic id (.head' (ht.listed x id hmem) hx)

/-- The node says what it said, and so does all that is below it. -/
theorem saying_eq (h : t.Out v id) (ht : t.Consistent) (hv : v.Consistent) :
    v.saying id = t.saying id :=
  ht.saying_congr hv fun x hx => ⟨h.children_eq ht hx, congrFun h.content x⟩

/-- The branch of a node that was taken out and put into a list that is not below it. -/
theorem shape_eq (h : t.Out v id) (ht : t.Consistent) (hu : u.Consistent) {parent : NodeId}
    {place : Nat} {ids : List NodeId} (hput : v.Put u parent place ids)
    (hid : t.contains id = true) (hapart : ¬ Relation.ReflTransGen t.Under parent id) :
    u.shape id = t.shape id := by
  refine ht.shape_congr hu fun x hx => ?_
  have hcontains : v.contains x = true := (h.contains x).trans (contains_of_below hid hx)
  have hne : parent ≠ x := by
    rintro rfl
    exact hapart hx
  rw [hput.others x hcontains hne, h.children_eq ht hx]

end Out

end Tree

namespace Editing

open Stylesheet.Tree

variable {t : Tree} {id : NodeId}

/-- A node that is there can be taken out of its list. -/
theorem ends_out (ht : t.Consistent) (id : NodeId) :
    Ends (remove id) t (fun u => t = u ∧ t.contains id = false) fun _ v =>
      t.contains id = true ∧ v.Consistent ∧ t.Out v id := by
  intro w
  rw [runOn_remove]
  dsimp only
  cases hn : t.get? id with
  | none => exact ⟨rfl, by rw [Tree.contains, hn]; rfl⟩
  | some n =>
    have hcontains : t.contains id = true := by rw [Tree.contains, hn]; rfl
    dsimp only
    cases hup : n.parent with
    -- Three ends: no such node, a node without a parent, and a node that is taken off its list.
    | none =>
      have hnone : t.parent? id = none := by rw [parent?, hn]; exact hup
      exact ⟨hcontains, ht, out_self ht hnone⟩
    | some parent =>
      have hparent : t.parent? id = some parent := by rw [parent?, hn]; exact hup
      dsimp only
      rw [runOn_removeChild]
      dsimp only
      obtain ⟨i, hindex⟩ := exists_indexIn? (ht.mem_children_iff.mpr hparent)
      rw [hindex]
      dsimp only
      exact ⟨hcontains, (Change.removeAt hindex).consistent ht, out_removeAt ht hindex⟩

/-- What a node that was taken out is put in as: the node that it is or, if this would put it into
itself, a new node that says the same. -/
def Readopted (t : Tree) (id parent : NodeId) (ids : List NodeId) (w : Tree) : Prop :=
  ∃ c, ids = [c] ∧ w.saying c = t.saying id ∧
    if t.isAncestor id parent = true then t.contains c = false else c = id

/-- Out of its list the node is free, unless the container is below it. -/
theorem ends_readopted {v u : Tree} (ht : t.Consistent) (hid : t.contains id = true)
    (hv : v.Consistent) (hout : t.Out v id) (hstay : Undisturbed v u) (hu : u.Consistent)
    {parent : NodeId} (hparent : u.contains parent = true) :
    Ends (materialize (some parent) (.node id)) u v.SameLists (Readopted t id parent) := by
  obtain ⟨hsame, hcontent⟩ := hstay
  have hthere : u.contains id = true := by rw [hsame.contains, hout.contains, hid]
  rw [materialize]
  refine ((ends_adopt_free hu hu (.refl u) hparent hthere).mono (fun _ h => h ▸ hsame)
    fun c w h => ?_).andReturn (R := fun c _ => _) fun c _ h => ⟨c, rfl, h⟩
  obtain ⟨-, -, -, hsaying, hcase⟩ := h
  rw [hsame.saying_eq hcontent hv hu, hout.saying_eq ht hv] at hsaying
  refine ⟨hsaying, ?_⟩
  rw [hsame.free_eq hv hu, hout.free_eq ht hv] at hcase
  cases hbelow : t.isAncestor id parent with
  | false =>
    rw [hbelow] at hcase
    exact hcase
  -- Beneath the node itself: the copy is taken, and it is new in all three trees.
  | true =>
    rw [hbelow] at hcase
    show t.contains c = false
    rw [← hout.contains, ← hsame.contains]
    exact not_contains_of_size_le hcase

/-- A node that was taken out of its list is put into another one. -/
def PutBack (t : Tree) (id : NodeId) (e : Edit) (u : Tree) : Prop :=
  ∃ v parent place c, t.contains id = true ∧ v.Consistent ∧ t.Out v id ∧
    e.spot? v = some (parent, place) ∧ v.Put u parent place [c] ∧ u.Consistent ∧
      Readopted t id parent [c] u

/-- The node was taken out, if it was there at all, but could not be put in: nothing else is
different from then on but for the block of the container. -/
def LeftOut (t : Tree) (id : NodeId) (e : Edit) (u : Tree) : Prop :=
  ∃ v, t.Out v id ∧ v.SameLists u ∧ ∀ p, t.contains p = true →
    ¬ (t.contains id = true ∧ p ∈ e.container? ∧ t.lacksBlock p = true) →
      u.hasBlock p = v.hasBlock p

/-- An insertion that fails leaves the nodes as they are once the block is open. -/
theorem leftOut_of_intact {v u : Tree} {e : Edit} (hid : t.contains id = true) (hout : t.Out v id)
    (hsame : v.SameLists u) (hintact : (e.opened v).Intact u) : LeftOut t id e u := by
  refine ⟨v, hout, hsame, fun p hp hopen => ?_⟩
  have hcontains : (e.opened v).contains p = true := by
    rw [Edit.contains_opened, hout.contains, hp]
  rw [hasBlock, hintact p hcontains, Edit.get?_opened, hout.lacksBlock_eq,
    if_neg fun h => hopen ⟨hid, h⟩]
  rfl

/-- All moves. -/
theorem ends_putBack (ht : t.Consistent) {id target : NodeId} {e : Edit}
    (he : e ∈ [Edit.append target (.node id), .prepend target (.node id),
      .insertBefore target (.node id), .insertAfter target (.node id)]) :
    Ends (do remove id; let _ ← e.perform) t (LeftOut t id e) fun _ u => PutBack t id e u := by
  refine .bind ((ends_out ht id).mono ?_ fun _ _ h => h) ?_
  · rintro u ⟨rfl, hid⟩
    exact ⟨t, out_of_not_contains ht hid, .refl t, fun _ _ _ => rfl⟩
  rintro _ v ⟨hid, hv, hout⟩
  have hmaterial : e.material?.isSome = true := by
    simp only [List.mem_cons, List.not_mem_nil, or_false] at he
    rcases he with rfl | rfl | rfl | rfl <;> rfl
  -- The insertion of a node that has just come out: two statements about one run are joined here,
  -- what it does when it succeeds and what it leaves alone when it fails.
  have hends := Edit.ends_put hv (m := .node id) trivial he (E := v.SameLists)
    (R := Readopted t id) (fun _ h => h.1)
    fun _ _ hstay hu => ends_readopted ht hid hv hout hstay hu
  refine ((hends.and (Edit.ends_insertion hv hmaterial)).mono
    (fun u h => leftOut_of_intact hid hout h.1 h.2) fun ids u h => ?_).andReturn
    (R := fun _ u => PutBack t id e u) fun _ _ h => h
  replace h := h.1
  obtain ⟨parent, place, hspot, ⟨w, ⟨c, rfl, hsaying, hc⟩, hsame⟩, hput, hconsistent⟩ := h
  have hu := hconsistent.mpr (List.nodup_singleton c)
  have hsaid := (hsame hu c (List.mem_singleton_self c)).trans hsaying
  exact ⟨v, parent, place, c, hid, hv, hout, hspot, hput, hu, c, rfl, hsaid, hc⟩

end Editing

namespace Edit

open Stylesheet.Tree Editing

/-- The container that a move puts the node into. -/
def movesInto? (e : Edit) (t : Tree) : Option NodeId :=
  match e with
  | moveTo _ parent => some parent
  | moveBefore _ target | moveAfter _ target => t.parent? target
  | _ => none

/-- Where the list, without the node before, has `c` after the move: at the end, or directly in
front of the target or behind it. -/
def Seats (e : Edit) (c : NodeId) (before after : List NodeId) : Prop :=
  match e with
  | moveTo _ _ => after = before ++ [c]
  | moveBefore _ target =>
    ∃ front back, before = front ++ target :: back ∧ after = front ++ c :: target :: back
  | moveAfter _ target =>
    ∃ front back, before = front ++ target :: back ∧ after = front ++ target :: c :: back
  | _ => False

/-- The insertion that a move ends with. -/
def seating? (e : Edit) : Option Edit :=
  match e with
  | moveTo id parent => some (append parent (.node id))
  | moveBefore id target => some (insertBefore target (.node id))
  | moveAfter id target => some (insertAfter target (.node id))
  | _ => none

/-- The place of the insertion is the one that the move names, and its list that of the container in
front of the move. -/
theorem seats_of_put {t v u : Tree} {id target : NodeId} {e ins : Edit}
    (he : e ∈ [moveTo id target, moveBefore id target, moveAfter id target])
    (hins : e.seating? = some ins) (hout : t.Out v id) {parent : NodeId} {place : Nat}
    (hspot : ins.spot? v = some (parent, place)) {c : NodeId} (hput : v.Put u parent place [c]) :
    e.movesInto? t = some parent ∧
      e.Seats c ((t.children parent).erase id) (u.children parent) := by
  have hlist := hput.list
  rw [← hout.lists]
  simp only [List.mem_cons, List.not_mem_nil, or_false] at he
  rcases he with rfl | rfl | rfl
  case inl =>
    cases hins
    cases hspot
    rw [List.take_length, List.drop_length, List.append_nil] at hlist
    exact ⟨rfl, hlist⟩
  -- Next to a node: the list is split around it, which is how the seat is described.
  case inr.inl =>
    cases hins
    obtain ⟨hup, hindex⟩ := place?_eq_some_iff.mp hspot
    obtain ⟨front, back, hsplit, rfl⟩ := split_of_indexIn? hindex
    rw [hsplit, List.take_left, List.drop_left] at hlist
    exact ⟨hout.parent?_of_eq_some hup, front, back, hsplit, by simpa using hlist⟩
  case inr.inr =>
    cases hins
    obtain ⟨⟨p, i⟩, hplace, hpair⟩ := Option.map_eq_some_iff.mp hspot
    cases hpair
    obtain ⟨hup, hindex⟩ := place?_eq_some_iff.mp hplace
    obtain ⟨front, back, hsplit, rfl⟩ := split_of_indexIn? hindex
    rw [hsplit, List.take_length_add_append, List.drop_length_add_append] at hlist
    exact ⟨hout.parent?_of_eq_some hup, front, back, hsplit, by simpa using hlist⟩

/-- A move has put the node `c` into the list of `parent`: where it belongs, saying what `id` said
with all that stood below it, and with no other list, block or link changed. It is the node `id`
itself, unless the list is below this node. -/
structure Moved (e : Edit) (t u : Tree) (id parent c : NodeId) : Prop where
  into : e.movesInto? t = some parent
  seat : e.Seats c ((t.children parent).erase id) (u.children parent)
  link : u.parent? c = some parent
  saying : u.saying c = t.saying id
  others : ∀ p, t.contains p = true → parent ≠ p → u.children p = (t.children p).erase id
  blocks : ∀ p, t.contains p = true → parent ≠ p → u.hasBlock p = t.hasBlock p
  links : ∀ j, t.contains j = true → j ≠ id → u.parent? j = t.parent? j
  which : if t.isAncestor id parent = true then t.contains c = false ∧ u.parent? id = none
    else c = id ∧ u.shape id = t.shape id

/-- Whether a move opens the block of a container before it puts the node in. -/
def Opens (e : Edit) (t : Tree) (p : NodeId) : Prop :=
  match e with
  | moveTo id parent => t.contains id = true ∧ parent = p ∧ t.lacksBlock p = true
  | _ => False

/-- No list, block or link has changed but for the place of one node, and none at all if the node
stood in no list. A container whose block was opened for the node is left out. -/
structure Unmoved (e : Edit) (t u : Tree) (id : NodeId) : Prop where
  lists : ∀ p, (u.children p).erase id = (t.children p).erase id
  blocks : ∀ p, t.contains p = true → ¬ e.Opens t p → u.hasBlock p = t.hasBlock p
  links : ∀ j, j ≠ id → u.parent? j = t.parent? j
  same : t.parent? id = none → u.children = t.children ∧ u.parent? = t.parent?

/-- A move takes the node out and inserts it. -/
theorem exists_seating {id target : NodeId} {e : Edit}
    (he : e ∈ [moveTo id target, moveBefore id target, moveAfter id target]) :
    ∃ ins ∈ [append target (.node id), prepend target (.node id), insertBefore target (.node id),
      insertAfter target (.node id)], e.seating? = some ins ∧
        e.perform = silently (do Editing.remove id; let _ ← ins.perform) := by
  simp only [List.mem_cons, List.not_mem_nil, or_false] at he
  rcases he with rfl | rfl | rfl
  · exact ⟨append target (.node id), by simp, rfl, rfl⟩
  · exact ⟨insertBefore target (.node id), by simp, rfl, rfl⟩
  · exact ⟨insertAfter target (.node id), by simp, rfl, rfl⟩

/-- Taking out and putting in make up a move. -/
theorem moved_of_putBack {t u : Tree} (ht : t.Consistent) {id target : NodeId} {e ins : Edit}
    (he : e ∈ [moveTo id target, moveBefore id target, moveAfter id target])
    (hins : e.seating? = some ins) (h : PutBack t id ins u) :
    ∃ parent c, e.Moved t u id parent c := by
  obtain ⟨v, parent, place, c, hid, hv, hout, hspot, hput, hu, _, ⟨⟩, hsaid, hwhich⟩ := h
  obtain ⟨hinto, hseat⟩ := seats_of_put he hins hout hspot hput
  have hlinks : ∀ j, t.contains j = true →
      u.parent? j = if j = c then some parent else if j = id then none else t.parent? j := by
    intro j hj
    rw [hput.links j ((hout.contains j).trans hj), hout.parent]
    simp only [List.mem_singleton]
  refine ⟨parent, c, hinto, hseat, (hput.placed c List.mem_cons_self).2, hsaid, ?_, ?_, ?_, ?_⟩
  · intro p hp hne
    rw [hput.others p ((hout.contains p).trans hp) hne, hout.lists]
  · intro p hp hne
    rw [hput.blocks p ((hout.contains p).trans hp) hne, hout.blocks]
  · intro j hj hne
    -- `c` is the moved node or a new one.
    have hc : j ≠ c := by
      rintro rfl
      split_ifs at hwhich
      · rw [hj] at hwhich
        cases hwhich
      · exact hne hwhich
    rw [hlinks j hj, if_neg hc, if_neg hne]
  · split_ifs at hwhich ⊢ with hbelow
    · have hc : id ≠ c := by
        rintro rfl
        rw [hid] at hwhich
        cases hwhich
      rw [hlinks id hid, if_neg hc, if_pos rfl]
      exact ⟨hwhich, rfl⟩
    · rw [ht.isAncestor_iff] at hbelow
      exact ⟨hwhich, hout.shape_eq ht hu hput hid hbelow⟩

/-- Of the moves, only the one to the end of a container opens its block. -/
theorem opens_of_container {t : Tree} {id target p : NodeId} {e ins : Edit}
    (he : e ∈ [moveTo id target, moveBefore id target, moveAfter id target])
    (hins : e.seating? = some ins)
    (h : t.contains id = true ∧ p ∈ ins.container? ∧ t.lacksBlock p = true) : e.Opens t p := by
  obtain ⟨hid, hp, hlacks⟩ := h
  simp only [List.mem_cons, List.not_mem_nil, or_false] at he
  rcases he with rfl | rfl | rfl
  case inl =>
    cases hins
    exact ⟨hid, Option.some.inj hp, hlacks⟩
  all_goals
    cases hins
    cases hp

/-- A node that was left out has not been moved, and nor has any other. -/
theorem unmoved_of_leftOut {t u : Tree} (ht : t.Consistent) {id target : NodeId} {e ins : Edit}
    (he : e ∈ [moveTo id target, moveBefore id target, moveAfter id target])
    (hins : e.seating? = some ins) (h : LeftOut t id ins u) : e.Unmoved t u id := by
  -- Everything is said of the tree between, where the node has been taken out.
  obtain ⟨v, hout, hsame, hblocks⟩ := h
  refine ⟨fun p => ?_, fun p hp hopens => ?_, fun j hj => ?_, fun hnone => ?_⟩
  · rw [hsame.children, hout.lists]
    exact List.erase_of_not_mem (ht.nodup_children p).not_mem_erase
  · rw [hblocks p hp fun h => hopens (opens_of_container he hins h), hout.blocks]
  · rw [hsame.parent, hout.parent, if_neg hj]
  -- A node without a parent was in no list, so taking it out changed nothing.
  · rw [hsame.children, hsame.parent]
    refine ⟨funext fun p => ?_, funext fun j => ?_⟩
    · rw [hout.lists, List.erase_of_not_mem (ht.not_mem_children hnone p)]
    · rw [hout.parent]
      split_ifs with hj
      · rw [hj, hnone]
      · rfl

/-- Where a move leaves the two nodes, wherever they stand: when it has a result, the node is where
it is to be, or else, where it would be put into itself, a copy of it; when it fails, all other
nodes are where they were, with the blocks that they had, but for a container that was opened. -/
theorem moved_or_unmoved {d : Desk} (hd : d.tree.Consistent) {id target : NodeId} {e : Edit}
    (he : e ∈ [moveTo id target, moveBefore id target, moveAfter id target]) :
    let u := (e.run d).2.tree
    (∀ ids, (e.run d).1 = .ok ids → ∃ parent c, e.Moved d.tree u id parent c) ∧
      ∀ error, (e.run d).1 = .error error → e.Unmoved d.tree u id := by
  intro u
  obtain ⟨ins, hmem, hins, hperform⟩ := exists_seating he
  -- The node is taken out, and then either it is put in or it stays out.
  have hends : Ends e.perform d.tree (e.Unmoved d.tree · id) fun _ u =>
      ∃ parent c, e.Moved d.tree u id parent c := by
    rw [hperform, silently]
    exact ((ends_putBack hd hmem).mono (fun _ h => unmoved_of_leftOut hd he hins h)
      fun _ _ h => moved_of_putBack hd he hins h).andReturn fun _ _ h => h
  exact ⟨fun _ hok => hends.of_ok hok, fun _ herror => hends.of_error herror⟩

/-- A rule that stands nowhere is put behind a rule in another one. -/
theorem moved_strayBehindNest :
    let u := ((moveAfter ⟨4⟩ ⟨2⟩).run nestAndStray).2.tree
    u.children ⟨1⟩ = [⟨2⟩, ⟨4⟩] ∧ u.parent? ⟨4⟩ = some ⟨1⟩ ∧
      u.shape ⟨4⟩ = nestAndStray.tree.shape ⟨4⟩ := by
  intro u
  have hmem : moveAfter ⟨4⟩ ⟨2⟩ ∈ [moveTo ⟨4⟩ ⟨2⟩, moveBefore ⟨4⟩ ⟨2⟩, moveAfter ⟨4⟩ ⟨2⟩] := by simp
  have hrun : ((moveAfter ⟨4⟩ ⟨2⟩).run nestAndStray).1 = .ok [] := by decide +kernel
  obtain ⟨parent, c, hmoved⟩ := (moved_or_unmoved consistent_nestAndStray hmem).1 [] hrun
  have hup : nestAndStray.tree.parent? ⟨2⟩ = some ⟨1⟩ := by decide +kernel
  obtain rfl : ⟨1⟩ = parent := Option.some.inj (hup.symm.trans hmoved.into)
  have hwhich := hmoved.which
  rw [if_neg (by decide +kernel)] at hwhich
  obtain ⟨rfl, hshape⟩ := hwhich
  exact ⟨by decide +kernel, hmoved.link, hshape⟩

/-- A rule that is moved into a rule below it stays out, and a copy is put in. A rule that is moved
into a declaration is lost, although this fails. -/
theorem copied_or_lost :
    let t := nestAndStray.tree
    let u := ((moveTo ⟨1⟩ ⟨2⟩).run nestAndStray).2.tree
    let v := ((moveTo ⟨2⟩ ⟨3⟩).run nestAndStray).2.tree
    t.Consistent ∧ t.children rootId = [⟨1⟩] ∧ t.children ⟨1⟩ = [⟨2⟩] ∧
      ((moveTo ⟨1⟩ ⟨2⟩).run nestAndStray).1 = .ok [] ∧
        u.children ⟨2⟩ = [⟨3⟩, ⟨5⟩] ∧ u.parent? ⟨1⟩ = none ∧ u.children rootId = [] ∧
          ((moveTo ⟨2⟩ ⟨3⟩).run nestAndStray).1 = .error (.notAContainer .declaration) ∧
            v.children ⟨1⟩ = [] ∧ v.parent? ⟨2⟩ = none := by
  refine ⟨consistent_nestAndStray, ?_⟩
  decide +kernel

end Edit

end Stylesheet
