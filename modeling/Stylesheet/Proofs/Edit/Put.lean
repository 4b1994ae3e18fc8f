import Stylesheet.Proofs.Edit.Command
import Stylesheet.Proofs.Edit.Ends
import Stylesheet.Proofs.Tree.Intact
import Stylesheet.Proofs.Tree.Shape

/-!
# What is put into a list

An insertion that does not fail puts what was made into one list, at one place, and leaves all other
lists and links as they were (`Tree.Put`, `Edit.ends_put`).

A node of the tree is taken as it is when it stands in no list and is not above the container, and
copied otherwise (`Tree.free`). Whether it stands in a list is asked before anything is put into
one, so the tree stays consistent exactly when no node that is taken as it is is named twice
(`Edit.nodes_put`).
-/

namespace Stylesheet

namespace Tree

variable {t u v : Tree} {parent : NodeId} {place : Nat} {ids : List NodeId}

/-! ### Nodes that are taken as they are -/

/-- Whether a node is taken as it is when it is to be put into the list of `parent`: it stands in no
list itself, and it is neither the parent nor above it. -/
def free (t : Tree) (parent id : NodeId) : Bool :=
  (t.parent? id).isNone && !t.isAncestor id parent

/-- A node is free when it has no parent and the container is not below it. -/
theorem Consistent.free_iff (ht : t.Consistent) {c : NodeId} :
    t.free parent c = true ↔ t.parent? c = none ∧ ¬ Relation.ReflTransGen t.Under parent c := by
  rw [free, Bool.and_eq_true, Option.isNone_iff_eq_none, Bool.not_eq_true', Bool.eq_false_iff, Ne,
    ht.isAncestor_iff]

theorem SameLists.free_eq (hsame : t.SameLists u) (ht : t.Consistent) (hu : u.Consistent)
    (parent c : NodeId) : u.free parent c = t.free parent c := by
  rw [Bool.eq_iff_iff, hu.free_iff, ht.free_iff, hsame.parent, hsame.under]

/-- Where lists and contents are the same, nodes say the same. -/
theorem SameLists.saying_eq (hsame : t.SameLists u) (hcontent : u.content? = t.content?)
    (ht : t.Consistent) (hu : u.Consistent) (c : NodeId) : u.saying c = t.saying c := by
  refine ht.saying_congr hu fun x _ => ?_
  rw [hsame.children, hcontent]
  exact ⟨rfl, rfl⟩

/-- A tree in which no node has changed has at most more of them. -/
theorem Intact.extends (h : t.Intact u) : t.Extends u where
  size := size_le_of_contains fun _ hj => h.contains hj
  links j hj := by rw [links, links, h j (contains_iff_index_lt.mpr hj)]

/-- New nodes make no difference to those that were there. -/
theorem Intact.saying_eq (h : t.Intact u) (ht : t.Consistent) (hu : u.Consistent) {c : NodeId}
    (hc : t.contains c = true) : u.saying c = t.saying c := by
  refine ht.saying_congr hu fun x hx => ?_
  rw [children, children, content?, content?, h x (contains_of_below hc hx)]
  exact ⟨rfl, rfl⟩

/-- New nodes neither free a node nor bind one. -/
theorem Extends.free_eq (hext : t.Extends u) (ht : t.Consistent) (hu : u.Consistent)
    (hparent : t.contains parent = true) {c : NodeId} (hc : t.contains c = true) :
    u.free parent c = t.free parent c := by
  have hstep : ∀ x y, t.Under x y → u.Under x y := by
    intro x y hxy
    rw [Under, hext.parent? (contains_of_parent? hxy)]
    exact hxy
  have hup : Relation.ReflTransGen u.Under parent c ↔ Relation.ReflTransGen t.Under parent c :=
    ⟨hext.under ht hparent, fun hup => Relation.ReflTransGen.mono hstep _ _ hup⟩
  rw [Bool.eq_iff_iff, hu.free_iff, ht.free_iff, hext.parent? hc, hup]

/-! ### What was put into a list -/

/-- The container whose list holds the node, and the place in this list. -/
def place? (t : Tree) (id : NodeId) : Option (NodeId × Nat) := do
  let parent ← t.parent? id
  let i ← t.indexIn? parent id
  return (parent, i)

theorem place?_eq_some_iff {id : NodeId} {i : Nat} :
    t.place? id = some (parent, i) ↔
      t.parent? id = some parent ∧ t.indexIn? parent id = some i := by
  constructor
  · intro h
    obtain ⟨p, hparent, hrest⟩ := Option.bind_eq_some_iff.mp h
    obtain ⟨j, hindex, hpair⟩ := Option.bind_eq_some_iff.mp hrest
    cases hpair
    exact ⟨hparent, hindex⟩
  · rintro ⟨hparent, hindex⟩
    unfold place?
    simp [hparent, hindex]

/-- The nodes were put into the list of `parent` at a place, and nodes that were there keep their
lists, blocks and parents otherwise. -/
structure Put (t u : Tree) (parent : NodeId) (place : Nat) (ids : List NodeId) : Prop where
  contains : ∀ j, t.contains j = true → u.contains j = true
  kind : ∀ j, t.contains j = true → u.kind? j = t.kind? j
  list : u.children parent =
    (t.children parent).take place ++ ids ++ (t.children parent).drop place
  others : ∀ p, t.contains p = true → parent ≠ p → u.children p = t.children p
  blocks : ∀ p, t.contains p = true → parent ≠ p → u.hasBlock p = t.hasBlock p
  links : ∀ j, t.contains j = true → u.parent? j = if j ∈ ids then some parent else t.parent? j
  placed : ∀ c ∈ ids, u.contains c = true ∧ u.parent? c = some parent
  free : ∀ c ∈ ids, t.contains c = true → t.free parent c = true
  once : ∀ c ∈ ids, ∀ p, (u.children p).count c = if parent = p then ids.count c else 0

/-- Nodes on offer are put into a list, after they were made. -/
theorem put_of_inserted (ht : t.Consistent) (hv : v.Consistent) (hparent : t.contains parent = true)
    (hext : t.Extends v) (hoffered : v.Offered (some parent) ids)
    (hins : v.Inserted u parent ids place) : t.Put u parent place ids where
  contains j hj := by
    rw [hins.contains]
    exact hext.contains hj
  kind j hj := by
    rw [hins.kind]
    exact hext.kind? hj
  list := by rw [hins.list, hext.children hparent]
  others p hp hne := by rw [hins.others p hne, hext.children hp]
  blocks p hp _ := by rw [hins.block, hext.hasBlock hp]
  links j hj := by rw [hins.links, hext.parent? hj]
  placed c hc := by
    rw [hins.contains, hins.links, if_pos hc]
    exact ⟨hoffered.contains c hc, rfl⟩
  free c hc hcontains := by
    rw [← hext.free_eq ht hv hparent hcontains, hv.free_iff]
    exact ⟨hoffered.detached c hc, hoffered.outside parent rfl c hc⟩
  -- What is put in had no parent, so no list named it before.
  once c hc p := by
    have hnone : ∀ q, (v.children q).count c = 0 := by
      refine fun q => List.count_eq_zero_of_not_mem fun hmem => ?_
      have hlisted := hv.listed q c hmem
      rw [hoffered.detached c hc] at hlisted
      cases hlisted
    split_ifs with hp
    · subst hp
      rw [hins.count_list, hnone, Nat.add_zero]
    · rw [hins.others p hp]
      exact hnone p

/-- The container may have got its block first. -/
theorem Put.of_same (hsame : t.SameLists v)
    (hblocks : ∀ p, parent ≠ p → v.hasBlock p = t.hasBlock p) (ht : t.Consistent)
    (hv : v.Consistent) (h : v.Put u parent place ids) : t.Put u parent place ids where
  contains := by
    rw [← hsame.contains]
    exact h.contains
  kind := by
    rw [← hsame.contains, ← hsame.kind]
    exact h.kind
  list := by
    rw [← hsame.children]
    exact h.list
  others := by
    rw [← hsame.contains, ← hsame.children]
    exact h.others
  blocks p hp hne := by
    rw [← hsame.contains] at hp
    rw [h.blocks p hp hne, hblocks p hne]
  links := by
    rw [← hsame.contains, ← hsame.parent]
    exact h.links
  placed := h.placed
  free c hc hcontains := by
    rw [← hsame.contains] at hcontains
    rw [← hsame.free_eq ht hv]
    exact h.free c hc hcontains
  once := h.once

/-- Nodes on offer say the same when they are put in, with all that is below them. -/
theorem saying_of_inserted (hv : v.Consistent) (hu : u.Consistent)
    (hoffered : v.Offered (some parent) ids) (hins : v.Inserted u parent ids place)
    (hcontent : u.content? = v.content?) {c : NodeId} (hc : c ∈ ids) :
    u.saying c = v.saying c := by
  refine hv.saying_congr hu fun x hx => ⟨hins.others x ?_, congrFun hcontent x⟩
  rintro rfl
  exact hoffered.outside parent rfl c hc hx

/-- A tree that nodes on offer were put into is consistent unless one of them was put in twice. -/
theorem consistent_iff_nodup (hv : v.Consistent) (hblock : v.hasBlock parent = true)
    (hoffered : v.Offered (some parent) ids) (hins : v.Inserted u parent ids place) :
    u.Consistent ↔ ids.Nodup := by
  refine ⟨fun hu => ?_, fun hnodup => hv.insert hblock (hoffered.ready hnodup) hins⟩
  have hnodup := hu.nodup_children parent
  rw [hins.list] at hnodup
  exact hnodup.of_append_left.of_append_right

end Tree

namespace Editing

open Stylesheet.Tree

variable {t : Tree} {m : Material} {E : Tree → Prop}

/-- The material is made, in a tree with `R`, and put into a list. -/
theorem ends_splice (ht : t.Consistent) (hm : m.Sound) {parent : NodeId}
    (hblock : t.hasBlock parent = true) {R : List NodeId → Tree → Prop}
    (hmade : Ends (materialize (some parent) m) t E R) (place : Nat) {f : List NodeId → Tree → Tree}
    (hf : ∀ ids v, v.children parent = t.children parent → ∃ sample inFront move,
      f ids v = (v.settle parent sample inFront ids).splice parent place ids move) :
    Ends (do let ids ← materialize (some parent) m; change (f ids); return ids) t E fun ids u =>
      (∃ v, R ids v ∧ (u.Consistent → ∀ c ∈ ids, u.saying c = v.saying c)) ∧
        t.Put u parent place ids ∧ (u.Consistent ↔ ids.Nodup) := by
  have hparent := contains_of_hasBlock hblock
  have hcontains : ∀ p ∈ some parent, t.contains p = true := by
    rintro p ⟨⟩
    exact hparent
  refine .bind ((hmade.and (.of_yields (yields_materialize ht hcontains hm))).mono
    (fun _ h => h.1) fun _ _ h => h) ?_
  rintro ids v ⟨hR, hchanges, hext, hoffered, -⟩
  have hv := hchanges.consistent ht
  obtain ⟨sample, inFront, move, hsplice⟩ := hf ids v (hext.children hparent)
  -- The parent is none of the nodes, and all of them exist: that is all that putting them in needs.
  -- Whether one is named twice decides only if the new tree is consistent.
  have hself : parent ∉ ids := fun hmem => hoffered.outside parent rfl parent hmem .refl
  have hins : v.Inserted (f ids v) parent ids place := by
    rw [hsplice]
    exact inserted_of_contains (hext.contains hparent) hself hoffered.contains _ _ _ _
  have hcontent : (f ids v).content? = v.content? := by rw [hsplice, content?_splice]
  refine .bind (R := fun _ u => u = f ids v) (.change rfl) ?_
  rintro _ u rfl
  refine .pure ⟨⟨v, hR, fun hu c hc => ?_⟩, put_of_inserted ht hv hparent hext hoffered hins, ?_⟩
  · exact saying_of_inserted hv hu hoffered hins hcontent hc
  · exact consistent_iff_nodup hv (hext.keepsBlock hblock) hoffered hins

/-- The nodes have the lists that they had, and say what they said. -/
def Undisturbed (t u : Tree) : Prop :=
  t.SameLists u ∧ u.content? = t.content?

/-- Opening a block disturbs nothing, and failing to do so neither. -/
theorem undisturbed_openBlock (t : Tree) (parent : NodeId) :
    Ends (openBlock parent) t (Undisturbed t) fun _ u => Undisturbed t u := by
  have hstay : Undisturbed t t := ⟨.refl t, rfl⟩
  rw [openBlock]
  refine .bind (R := fun _ u => t = u) (.node parent hstay fun _ _ => rfl) ?_
  rintro n _ rfl
  split
  · exact .throw _ hstay
  · exact .throw _ hstay
  · exact .change ⟨sameLists_openBlock t parent, content?_openBlock t parent⟩

/-- Only the container that gets its block can differ in having one. -/
theorem ends_openBlock_others (t : Tree) (parent : NodeId) :
    Ends (openBlock parent) t (fun _ => True) fun _ u =>
      ∀ p, parent ≠ p → u.hasBlock p = t.hasBlock p := by
  rw [openBlock]
  refine .bind (R := fun _ u => t = u) (.node parent trivial fun _ _ => rfl) ?_
  rintro n _ rfl
  split
  · exact .throw _ trivial
  · exact .throw _ trivial
  · refine .change fun p hp => ?_
    rw [hasBlock, get?_modify, if_neg hp]
    rfl

/-- Insertion at an end of a container. -/
theorem ends_spliceInside (ht : t.Consistent) (hm : m.Sound) (parent : NodeId)
    {R : List NodeId → Tree → Prop} (hE : ∀ u, Undisturbed t u → E u)
    (hmade : ∀ u, Undisturbed t u → u.Consistent → u.contains parent = true →
      Ends (materialize (some parent) m) u E R) (place : Nat) {f : List NodeId → Tree → Tree}
    (hf : ∀ ids v, v.children parent = t.children parent → ∃ sample inFront move,
      f ids v = (v.settle parent sample inFront ids).splice parent place ids move) :
    Ends (do openBlock parent; let ids ← materialize (some parent) m; change (f ids); return ids) t
      E fun ids u => (∃ v, R ids v ∧ (u.Consistent → ∀ c ∈ ids, u.saying c = v.saying c)) ∧
        t.Put u parent place ids ∧ (u.Consistent ↔ ids.Nodup) := by
  refine .bind (((undisturbed_openBlock t parent).and ((ends_openBlock_others t parent).and
    (.of_yields (yields_openBlock t parent)))).mono (fun u h => hE u h.1) fun _ _ h => h) ?_
  rintro _ u ⟨hsame, hblocks, hchanges, hblock⟩
  have hu := hchanges.consistent ht
  refine (ends_splice hu hm hblock (hmade u hsame hu (contains_of_hasBlock hblock)) place
    fun ids v hv => hf ids v ?_).mono (fun _ h => h) fun ids v h => ?_
  · rw [hv, hsame.1.children]
  · exact ⟨h.1, h.2.1.of_same hsame.1 hblocks ht hu, h.2.2⟩

/-- Insertion next to a node. -/
theorem ends_spliceNextTo (ht : t.Consistent) (hm : m.Sound) (exist : NodeId)
    {R : NodeId → List NodeId → Tree → Prop} (hE : E t)
    (hmade : ∀ parent, t.contains parent = true →
      Ends (materialize (some parent) m) t E (R parent))
    {f : NodeId → Nat → List NodeId → Tree → Tree} (offset : Nat)
    (hf : ∀ parent i ids v, ∃ sample inFront move, f parent i ids v =
      (v.settle parent sample inFront ids).splice parent (i + offset) ids move) :
    Ends (do
      let (parent, i) ← placeOf exist
      let ids ← materialize (some parent) m
      change (f parent i ids)
      return ids) t E fun ids u => ∃ parent i, t.place? exist = some (parent, i) ∧
        (∃ v, R parent ids v ∧ (u.Consistent → ∀ c ∈ ids, u.saying c = v.saying c)) ∧
          t.Put u parent (i + offset) ids ∧ (u.Consistent ↔ ids.Nodup) := by
  refine .bind ((ends_placeOf t exist).mono (fun u h => h ▸ hE) fun _ _ h => h) ?_
  rintro ⟨parent, i⟩ _ ⟨rfl, hparent, hindex⟩
  have hblock := ht.block parent (List.ne_nil_of_mem (ht.mem_children_iff.mpr hparent))
  refine (ends_splice ht hm hblock (hmade parent (contains_of_hasBlock hblock)) (i + offset)
    fun ids v _ => hf parent i ids v).mono (fun _ h => h) fun ids u h => ?_
  exact ⟨parent, i, place?_eq_some_iff.mpr ⟨hparent, hindex⟩, h⟩

end Editing

namespace Edit

open Stylesheet.Tree Editing

/-- The container into whose list the edit inserts something, and the place in it. -/
def spot? (e : Edit) (t : Tree) : Option (NodeId × Nat) :=
  match e with
  | append parent _ => some (parent, (t.children parent).length)
  | prepend parent _ => some (parent, 0)
  | insertBefore exist _ => t.place? exist
  | insertAfter exist _ => (t.place? exist).map fun (parent, i) => (parent, i + 1)
  | _ => none

/-- What the four insertions do to lists and links. -/
theorem ends_put {t : Tree} (ht : t.Consistent) {m : Material} (hm : m.Sound) {target : NodeId}
    {e : Edit} (he : e ∈ [append target m, prepend target m, insertBefore target m,
      insertAfter target m]) {E : Tree → Prop} {R : NodeId → List NodeId → Tree → Prop}
    (hE : ∀ u, Undisturbed t u → E u)
    (hmade : ∀ parent u, Undisturbed t u → u.Consistent → u.contains parent = true →
      Ends (materialize (some parent) m) u E (R parent)) :
    Ends e.perform t E fun ids u => ∃ parent place, e.spot? t = some (parent, place) ∧
      (∃ v, R parent ids v ∧ (u.Consistent → ∀ c ∈ ids, u.saying c = v.saying c)) ∧
        t.Put u parent place ids ∧ (u.Consistent ↔ ids.Nodup) := by
  have hstay := hE t ⟨.refl t, rfl⟩
  have hnext := fun parent => hmade parent t ⟨.refl t, rfl⟩ ht
  simp only [List.mem_cons, List.not_mem_nil, or_false] at he
  rcases he with rfl | rfl | rfl | rfl
  case inl =>
    -- The four insertions differ in the spot alone.
    have hends := ends_spliceInside (f := fun ids u => u.insertLast target ids) ht hm target hE
      (hmade target) (t.children target).length fun ids v hv => ⟨_, _, _, by rw [insertLast, hv]⟩
    exact hends.mono (fun _ h => h) fun ids u h => ⟨target, _, rfl, h⟩
  case inr.inl =>
    have hends := ends_spliceInside (f := fun ids u => u.insertFirst target ids) ht hm target hE
      (hmade target) 0 fun ids v _ => ⟨_, _, _, rfl⟩
    exact hends.mono (fun _ h => h) fun ids u h => ⟨target, _, rfl, h⟩
  case inr.inr.inl =>
    have hends := ends_spliceNextTo (f := fun parent i ids u => u.insertInFront parent target i ids)
      ht hm target hstay hnext 0 fun parent i ids v => ⟨_, _, _, rfl⟩
    exact hends.mono (fun _ h => h) fun ids u h => h
  case inr.inr.inr =>
    have hends := ends_spliceNextTo (f := fun parent i ids u => u.insertBehind parent target i ids)
      ht hm target hstay hnext 1 fun parent i ids v => ⟨_, _, _, rfl⟩
    refine hends.mono (fun _ h => h) fun ids u h => ?_
    obtain ⟨parent, i, hplace, h⟩ := h
    exact ⟨parent, i + 1, by rw [spot?, hplace, Option.map_some], h⟩

end Edit

/-! ### Lists of nodes -/

/-- When the rest of a list has no duplicates, they are to be looked for in one part of it. -/
theorem nodup_iff_nodup_filter {α : Type} (p : α → Bool) {l : List α}
    (h : (l.filter fun a => !p a).Nodup) : l.Nodup ↔ (l.filter p).Nodup := by
  refine ⟨fun hl => hl.filter p, fun hp => ?_⟩
  rw [← (List.filter_append_perm p l).nodup_iff, List.nodup_append]
  refine ⟨hp, h, ?_⟩
  rintro a ha b hb rfl
  have hnot := (List.mem_filter.mp hb).2
  rw [(List.mem_filter.mp ha).2] at hnot
  cases hnot

namespace Editing

open Stylesheet.Tree

variable {t u : Tree}

/-- A node is taken as it is when it is free, and copied otherwise. Nodes that were made since `t`
make no difference. -/
theorem ends_adopt_free (ht : t.Consistent) (hu : u.Consistent) (hintact : t.Intact u)
    {parent id : NodeId} (hparent : t.contains parent = true) (hid : t.contains id = true) :
    Ends (adopt (some parent) id) u (u = ·) fun c v => u.Intact v ∧ v.Consistent ∧
      v.contains c = true ∧ v.saying c = t.saying id ∧
        if t.free parent id = true then c = id else u.nodes.size ≤ c.index := by
  -- The question is asked of the tree as it was, though copies have been added since.
  have hfree (n : Node) (hn : u.get? id = some n) :
      t.free parent id = !(n.parent.isSome || (some parent).any (u.isAncestor id)) := by
    rw [← hintact.extends.free_eq ht hu hparent hid, free, parent?, hn, Bool.not_or,
      Option.not_isSome]
    rfl
  have hsaying := hintact.saying_eq ht hu hid
  refine .adopt _ id rfl (fun n hn _ hcopy => ?_) fun n hn _ htake => ?_
  · refine ⟨.graft u _, hu.graft (hu.sound_draft id), (top_graft u _).1,
      (hu.saying_copy id).trans hsaying, ?_⟩
    rw [hfree n hn, hcopy]
    exact Nat.le_refl _
  · refine ⟨.refl u, hu, hintact.contains hid, hsaying, ?_⟩
    rw [hfree n hn, htake]
    rfl

/-- What a list of nodes is made into: nodes that say the same, which are the free ones among them,
as often as they are named, and new ones, of which no one is named twice. -/
theorem ends_adoptEach_free (ht : t.Consistent) {parent : NodeId}
    (hparent : t.contains parent = true) : ∀ (ids : List NodeId) {u : Tree}, u.Consistent →
      t.Intact u → (∀ id ∈ ids, t.contains id = true) →
        Ends (ids.mapM (adopt (some parent))) u (fun _ => True) fun cs v =>
          u.Intact v ∧ v.Consistent ∧ cs.map v.saying = ids.map t.saying ∧
            cs.filter t.contains = ids.filter (t.free parent) ∧
              u.Fresh (cs.filter fun c => !t.contains c)
  | [], u, hu, _, _ => by
    rw [List.mapM_nil]
    exact .pure ⟨.refl u, hu, rfl, rfl, .nil u⟩
  | id :: ids, u, hu, hintact, hids => by
    rw [List.forall_mem_cons] at hids
    rw [List.mapM_cons]
    refine .bind ((ends_adopt_free ht hu hintact hparent hids.1).mono (fun _ _ => trivial)
      fun _ _ h => h) ?_
    rintro c v ⟨hmade, hv, hc, hsaying, hcase⟩
    refine (ends_adoptEach_free ht hparent ids hv (hintact.trans hmade) hids.2).andReturn ?_
    rintro cs w ⟨hrest, hw, hsayings, htaken, hfresh⟩
    refine ⟨hmade.trans hrest, hw, ?_, ?_⟩
    · rw [List.map_cons, List.map_cons, hrest.saying_eq hv hw hc, hsaying, hsayings]
    -- A free node goes to the part that was there, a copy to the part that is new.
    split_ifs at hcase with hfree
    · subst hcase
      rw [List.filter_cons_of_pos hids.1, List.filter_cons_of_pos hfree, htaken,
        List.filter_cons_of_neg (by rw [hids.1]; decide)]
      have hsize := hmade.extends.size
      exact ⟨rfl, hfresh.nodup, fun c hc => Nat.le_trans hsize (hfresh.new c hc)⟩
    · have hnew : t.contains c = false := hintact.not_contains (not_contains_of_size_le hcase)
      rw [List.filter_cons_of_neg (by rw [hnew]; decide), List.filter_cons_of_neg hfree, htaken,
        List.filter_cons_of_pos (by rw [hnew]; rfl)]
      exact ⟨rfl, .cons hcase (contains_iff_index_lt.mp hc) hmade.extends hfresh⟩

end Editing

namespace Edit

open Stylesheet.Tree Editing

/-- A list of nodes is inserted, with any nodes in it: the container lists what comes back, and each
of these nodes has it as its parent, is listed there as often as it comes back, and nowhere else.
The tree stays consistent exactly when no node comes back twice, and that is when no free node is
named twice: other nodes are copied anew each time. What comes back says what was named. -/
theorem nodes_put {d : Desk} (hd : d.tree.Consistent) {target : NodeId} {ids cs : List NodeId}
    {e : Edit} (he : e ∈ [append target (.nodes ids), prepend target (.nodes ids),
      insertBefore target (.nodes ids), insertAfter target (.nodes ids)])
    (hrun : (e.run d).1 = .ok cs) :
    let t := d.tree
    let u := (e.run d).2.tree
    ∃ parent place, e.spot? t = some (parent, place) ∧ t.Put u parent place cs ∧
      (u.Consistent ↔ cs.Nodup) ∧ ((∀ id ∈ ids, t.contains id = true) →
        cs.filter t.contains = ids.filter (t.free parent) ∧
          (cs.Nodup ↔ (ids.filter (t.free parent)).Nodup) ∧
            (u.Consistent → cs.map u.saying = ids.map t.saying)) := by
  intro t u
  have hends := ends_put hd (m := .nodes ids) trivial he (E := fun _ => True)
    (R := fun parent cs v => (∀ id ∈ ids, t.contains id = true) →
      cs.filter t.contains = ids.filter (t.free parent) ∧
        (cs.filter fun c => !t.contains c).Nodup ∧ cs.map v.saying = ids.map t.saying)
    (fun _ _ => trivial) ?_
  · obtain ⟨parent, place, hspot, ⟨v, hmade, hsame⟩, hput, hiff⟩ := hends.of_ok hrun
    refine ⟨parent, place, hspot, hput, hiff, fun hids => ?_⟩
    obtain ⟨htaken, hnew, hsaying⟩ := hmade hids
    refine ⟨htaken, ?_, fun hconsistent => ?_⟩
    · rw [nodup_iff_nodup_filter t.contains hnew, htaken]
    · rw [← hsaying]
      exact List.map_congr_left (hsame hconsistent)
  · rintro parent v ⟨hsame, hcontent⟩ hv hparent
    -- Numbers that no node has yet may be those of nodes that are made for others in the list.
    by_cases hids : ∀ id ∈ ids, t.contains id = true
    · rw [materialize]
      rw [← hsame.contains] at hids
      refine (ends_adoptEach_free hv hparent ids hv (.refl v) hids).mono (fun _ h => h) ?_
      rintro cs w ⟨-, -, hsaying, htaken, hfresh⟩ -
      rw [← hsame.contains, htaken, hsaying, funext (hsame.free_eq hd hv parent),
        funext (hsame.saying_eq hcontent hd hv)]
      exact ⟨rfl, hfresh.nodup, rfl⟩
    · intro w
      split
      · exact fun hall => absurd hall hids
      · trivial

/-- A rule in a rule, and a rule that stands nowhere. -/
def nestAndStray : Desk :=
  runAll [append rootId (.text "a\x7bb\x7bc:d\x7d\x7d"), create (.bag (.rule "x"))]
    ⟨Tree.empty, {}⟩

/-- The tree of the examples below. -/
theorem consistent_nestAndStray : nestAndStray.tree.Consistent := by
  refine (Reached.runAll (d := ⟨Tree.empty, {}⟩) .empty (by decide) ?_).orderly.consistent
  simp only [List.forall_mem_cons]
  exact ⟨nofun, nofun, fun e he => absurd he List.not_mem_nil⟩

/-- The rule around the container and a node in it, the latter twice, are copied; the rule that
stands nowhere is put in as it is. -/
theorem nodes_put_nestAndStray :
    let e := append ⟨2⟩ (.nodes [⟨1⟩, ⟨3⟩, ⟨4⟩, ⟨3⟩])
    (e.run nestAndStray).1 = .ok [⟨5⟩, ⟨8⟩, ⟨4⟩, ⟨9⟩] ∧
      (e.run nestAndStray).2.tree.Consistent := by
  intro e
  have hrun : (e.run nestAndStray).1 = .ok [⟨5⟩, ⟨8⟩, ⟨4⟩, ⟨9⟩] := by decide +kernel
  obtain ⟨parent, place, -, -, hiff, -⟩ :=
    nodes_put consistent_nestAndStray (e := e) List.mem_cons_self hrun
  exact ⟨hrun, hiff.mpr (by decide)⟩

/-- A rule that stands nowhere and is named twice is taken as it is both times. -/
theorem stray_listed_twice :
    let e := append rootId (.nodes [⟨4⟩, ⟨4⟩])
    let u := (e.run nestAndStray).2.tree
    nestAndStray.tree.Consistent ∧ (e.run nestAndStray).1 = .ok [⟨4⟩, ⟨4⟩] ∧
      u.children rootId = [⟨1⟩, ⟨4⟩, ⟨4⟩] ∧ ¬ u.Consistent := by
  intro e u
  have hlist : u.children rootId = [⟨1⟩, ⟨4⟩, ⟨4⟩] := by decide +kernel
  refine ⟨consistent_nestAndStray, by decide +kernel, hlist, fun hu => ?_⟩
  have hnodup := hu.nodup_children rootId
  rw [hlist] at hnodup
  exact absurd hnodup (by decide)

end Edit

end Stylesheet
