import Stylesheet.Proofs.Edit.Effect

/-!
# What edits do to lists and cursors

Every edit has one of the effects of `Edit.Effect` and leaves the tree consistent
(`Edit.works_run`), also when it fails on the way. Two things are left out: the edit that empties a
list, which moves no cursors, and lists that name a node twice.
-/

namespace Stylesheet

namespace Editing

open Stylesheet.Tree

variable {t u : Tree} {m : Material}

/-! ### Insertion -/

/-- Something was put into a list, at the end of it where `last` says so, or nothing changed. -/
def Given (t : Tree) (last : Option NodeId) (u : Tree) : Prop :=
  u.Consistent ∧ t.Gains u last

/-- Opening a block moves nothing. -/
theorem still_openBlock (t : Tree) (parent : NodeId) :
    Ends (openBlock parent) t t.Still fun _ u => t.Still u := by
  rw [openBlock]
  refine .bind (R := fun _ u => t = u) (.node parent (.refl t) fun _ _ => rfl) ?_
  rintro n _ rfl
  split
  · exact .throw _ (.refl t)
  · exact .throw _ (.refl t)
  · exact .change (.withDetail _ t parent)

/-- Something was put into the list of `parent`, at a place and with a move of the cursors as `S`
says, or nothing changed. -/
def PutIn (t : Tree) (parent : NodeId) (S : List NodeId → Nat → (Int → Int) → Prop) (u : Tree) :
    Prop :=
  u.Consistent ∧ (t.Still u ∨ ∃ v ids place move, t.Still v ∧ v.Placed u parent ids place move ∧
    S ids place move)

/-- All ways to insert: the material is made, and put next to a node or at an end of a list. -/
theorem ends_putIn (ht : t.Consistent) (hm : m.Sound) {parent : NodeId}
    (hblock : t.hasBlock parent = true) {S : List NodeId → Nat → (Int → Int) → Prop}
    {f : List NodeId → Tree → Tree}
    (hf : ∀ ids u, ∃ sample inFront place move,
      f ids u = (u.settle parent sample inFront ids).splice parent place ids move ∧
        Along (u.children parent).length place ids.length move ∧ S ids place move) :
    Ends (do let ids ← materialize (some parent) m; change (f ids); return ids) t
      (PutIn t parent S) fun _ u => m.Distinct t u → PutIn t parent S u := by
  have hcontains : ∀ p ∈ some parent, t.contains p = true := by
    rintro p ⟨⟩
    exact contains_of_hasBlock hblock
  refine .bind ((ends_materialize ht hcontains hm).mono (fun u h => ⟨h.1, Or.inl h.2⟩)
    fun _ _ h => h) ?_
  rintro ids u ⟨hu, hstill, hext, hoffered, hnodup⟩
  obtain ⟨sample, inFront, place, move, hsplice, halong, hallowed⟩ := hf ids u
  refine .bind (R := fun _ v => m.Distinct t v → PutIn t parent S v) (.change fun hdistinct => ?_)
    fun _ v h => .pure h
  -- A list names the same nodes before and after they are put in.
  have hids : ids.Nodup := by
    refine hnodup ?_
    cases m with
    | nodes named =>
      refine ⟨hdistinct.1, fun i hi => (hdistinct.2 i hi).imp_right fun hnone => ?_⟩
      rw [Bool.eq_false_iff] at hnone ⊢
      refine fun hui => hnone ?_
      rw [contains_eq_links, hsplice, splice, links_relist, links_settle]
      rw [contains_eq_links] at hui
      split_ifs <;> simpa only [Option.isSome_map] using hui
    | _ => trivial
  have hready := hoffered.ready hids
  have hhas := hext.keepsBlock hblock
  rw [hsplice]
  refine ⟨(Change.insert hhas hready sample inFront place move).consistent hu, Or.inr ?_⟩
  exact ⟨u, ids, place, move, hstill, placed_splice hu hhas hready halong sample inFront, hallowed⟩

/-- What is put into a list, at the end of it where `last` says so. -/
theorem ends_insert (ht : t.Consistent) (hm : m.Sound) {parent : NodeId}
    (hblock : t.hasBlock parent = true) {last : Option NodeId} {f : List NodeId → Tree → Tree}
    (hf : ∀ ids u, ∃ sample inFront place move,
      f ids u = (u.settle parent sample inFront ids).splice parent place ids move ∧
        Along (u.children parent).length place ids.length move ∧ (last.isSome → move = id)) :
    Ends (do let ids ← materialize (some parent) m; change (f ids); return ids) t
      (Given t last) fun _ u => m.Distinct t u → Given t last u := by
  have hgiven : ∀ u, PutIn t parent (fun _ _ move => last.isSome → move = id) u →
      Given t last u := by
    rintro u ⟨hu, hstill | ⟨v, ids, place, move, hstill, hplaced, hlast⟩⟩
    · exact ⟨hu, .still hstill⟩
    · exact ⟨hu, .placed hstill hplaced hlast⟩
  exact (ends_putIn ht hm hblock hf).mono hgiven fun _ u h hdistinct => hgiven u (h hdistinct)

/-- Nodes may have been made before others were put into lists. -/
theorem Given.of_still {last : Option NodeId} {v : Tree} (hstill : t.Still u)
    (h : Given u last v) : Given t last v :=
  ⟨h.1, .of_still hstill h.2⟩

/-- Whether material names a node twice does not depend on new nodes. -/
theorem distinct_of_still {v : Tree} (hstill : t.Still u) (h : m.Distinct t v) :
    m.Distinct u v := by
  cases m with
  | nodes ids => exact ⟨h.1, fun i hi => (h.2 i hi).imp_left (hstill.contains i)⟩
  | _ => trivial

/-- Insertion at an end of a container, which gets a block first. -/
theorem ends_insertInside (ht : t.Consistent) (hm : m.Sound) (parent : NodeId)
    {last : Option NodeId} {f : List NodeId → Tree → Tree}
    (hf : ∀ ids u, ∃ sample inFront place move,
      f ids u = (u.settle parent sample inFront ids).splice parent place ids move ∧
        Along (u.children parent).length place ids.length move ∧ (last.isSome → move = id)) :
    Ends (do openBlock parent; let ids ← materialize (some parent) m; change (f ids); return ids) t
      (Given t last) fun _ u => m.Distinct t u → Given t last u := by
  refine .bind (((Ends.of_yields (yields_openBlock t parent)).and (still_openBlock t parent)).mono
    (fun u h => ⟨h.1.consistent ht, .still h.2⟩) fun _ _ h => h) ?_
  rintro _ u ⟨⟨hchanges, hblock⟩, hstill⟩
  refine (ends_insert (hchanges.consistent ht) hm hblock hf).mono (fun v h => h.of_still hstill)
    fun _ v h hdistinct => ?_
  exact (h (distinct_of_still hstill hdistinct)).of_still hstill

/-- Of the four insertions, this one may put nodes behind a cursor at the end. -/
theorem ends_append (ht : t.Consistent) (hm : m.Sound) (parent : NodeId) :
    Ends (append parent m) t (Given t (some parent)) fun _ u =>
      m.Distinct t u → Given t (some parent) u := by
  rw [append]
  exact ends_insertInside ht hm parent fun ids u =>
    ⟨_, _, _, _, rfl, along_last _ _, fun _ => rfl⟩

theorem ends_prepend (ht : t.Consistent) (hm : m.Sound) (parent : NodeId) :
    Ends (prepend parent m) t (Given t none) fun _ u => m.Distinct t u → Given t none u := by
  rw [prepend]
  exact ends_insertInside ht hm parent fun ids u =>
    ⟨_, _, _, _, rfl, along_first _ _, fun h => by cases h⟩

/-- Insertion next to a node. -/
theorem ends_insertNextTo (ht : t.Consistent) (hm : m.Sound) (exist : NodeId)
    {f : NodeId → Nat → List NodeId → Tree → Tree}
    (hf : ∀ parent i ids u, ∃ sample inFront place move,
      f parent i ids u = (u.settle parent sample inFront ids).splice parent place ids move ∧
        Along (u.children parent).length place ids.length move) :
    Ends (do
      let (parent, i) ← placeOf exist
      let ids ← materialize (some parent) m
      change (f parent i ids)
      return ids) t (Given t none) fun _ u => m.Distinct t u → Given t none u := by
  -- A parent that lists the node has a list, so nothing has to be opened here.
  have hplace : Ends (placeOf exist) t (Given t none) fun (parent, _) u =>
      t = u ∧ t.hasBlock parent = true := by
    refine (ends_placeOf t exist).mono ?_ ?_
    · rintro _ rfl
      exact ⟨ht, .still (.refl t)⟩
    · rintro ⟨parent, i⟩ u ⟨rfl, hparent, -⟩
      exact ⟨rfl, ht.block parent (List.ne_nil_of_mem (ht.mem_children_iff.mpr hparent))⟩
  refine hplace.bind ?_
  rintro ⟨parent, i⟩ _ ⟨rfl, hblock⟩
  refine ends_insert ht hm hblock fun ids u => ?_
  obtain ⟨sample, inFront, place, move, heq, halong⟩ := hf parent i ids u
  exact ⟨sample, inFront, place, move, heq, halong, fun h => by cases h⟩

theorem ends_insertBefore (ht : t.Consistent) (hm : m.Sound) (exist : NodeId) :
    Ends (insertBefore exist m) t (Given t none) fun _ u => m.Distinct t u → Given t none u := by
  rw [insertBefore]
  exact ends_insertNextTo (f := fun parent i ids u => u.insertInFront parent exist i ids) ht hm
    exist fun parent i ids u => ⟨some exist, i == 0, i, _, rfl, along_inFront _ i _⟩

theorem ends_insertAfter (ht : t.Consistent) (hm : m.Sound) (exist : NodeId) :
    Ends (insertAfter exist m) t (Given t none) fun _ u => m.Distinct t u → Given t none u := by
  rw [insertAfter]
  exact ends_insertNextTo (f := fun parent i ids u => u.insertBehind parent exist i ids) ht hm
    exist fun parent i ids u => ⟨some exist, false, i + 1, _, rfl, along_behind _ i _⟩

/-! ### Removal -/

/-- It fails only where the child is not in the list. -/
theorem ends_removeChild (ht : t.Consistent) (parent child : NodeId) :
    Ends (removeChild parent child) t (fun u => t = u ∧ child ∉ t.children parent) fun _ u =>
      u.Consistent ∧ t.Without child u := by
  rw [removeChild]
  refine .bind (R := fun v u => t = v ∧ t = u) (.tree ⟨rfl, rfl⟩) ?_
  rintro _ _ ⟨rfl, rfl⟩
  split
  · rename_i hindex
    -- The command fails for a child that is not listed, and for no other.
    refine .throw _ ⟨rfl, fun hmem => ?_⟩
    obtain ⟨i, hi⟩ := exists_indexIn? hmem
    rw [hindex] at hi
    cases hi
  · rename_i i hindex
    exact .change ⟨(Change.removeAt hindex).consistent ht, .taken (taken_removeAt hindex)⟩

/-- A node that is detached, or not there at all, is in no list. -/
theorem ends_remove (ht : t.Consistent) (id : NodeId) :
    Ends (remove id) t (fun u => u.Consistent ∧ t.Without id u) fun _ u =>
      u.Consistent ∧ t.Without id u := by
  have hout : t.parent? id = none → t.Without id t := by
    refine fun hnone => .detached fun p hmem => ?_
    rw [ht.listed p id hmem] at hnone
    cases hnone
  rw [remove]
  refine .bind (R := fun n u => t = u ∧ t.get? id = some n)
    (.lookUp id (fun hn => ⟨ht, hout (by rw [parent?, hn]; rfl)⟩) fun n hn => ⟨rfl, hn⟩) ?_
  rintro n _ ⟨rfl, hn⟩
  -- A node with a parent stands in its list, so the removal cannot fail.
  split
  · rename_i parent hparent
    refine (ends_removeChild ht parent id).mono ?_ fun _ _ h => h
    rintro _ ⟨-, hmem⟩
    refine absurd (ht.mem_children_iff.mpr ?_) hmem
    rw [parent?, hn]
    exact hparent
  · rename_i hparent
    refine .pure ⟨ht, hout ?_⟩
    rw [parent?, hn]
    exact hparent

/-! ### Replacement, moves and copies -/

/-- A node was taken out of its list, and something was put in. -/
def Shifted (t : Tree) (id : NodeId) (last : Option NodeId) (u : Tree) : Prop :=
  ∃ v, t.Without id v ∧ Given v last u

/-- All moves: a node is taken out, and inserted again. -/
theorem ends_move (ht : t.Consistent) (id : NodeId) {last : Option NodeId}
    {f : Editing (List NodeId)}
    (hf : ∀ u : Tree, u.Consistent →
      Ends f u (Given u last) fun _ v => (Material.node id).Distinct u v → Given u last v) :
    Ends (do remove id; let _ ← f) t (Shifted t id last) fun _ u => Shifted t id last u := by
  refine .bind ((ends_remove ht id).mono
    (fun u h => ⟨u, h.2, h.1, .still (.refl u)⟩) fun _ _ h => h) ?_
  rintro _ u ⟨hu, hwithout⟩
  refine ((hf u hu).mono (fun v h => ⟨u, hwithout, h⟩) fun _ v h => ?_).andReturn
    (R := fun _ v => Shifted t id last v) fun _ _ h => h
  exact ⟨u, hwithout, h trivial⟩

theorem still_cloneNode (t : Tree) (id : NodeId) :
    Ends (cloneNode id) t t.Still fun _ u => t.Still u := by
  rw [cloneNode]
  refine .bind (R := fun _ u => t = u) (.node id (.refl t) fun _ _ => rfl) ?_
  rintro n _ rfl
  refine .bind (R := fun _ u => t.Still u) (.changeGet (.graft t _)) fun copy u h => ?_
  exact .bind (R := fun _ v => t.Still v) (.change (h.trans (.withDetail _ u copy)))
    fun _ _ h => .pure h

/-- Both ways to put a copy next to a node. -/
theorem ends_clone (ht : t.Consistent) (id : NodeId) {f : NodeId → Editing (List NodeId)}
    (hf : ∀ (u : Tree) (copy : NodeId), u.Consistent → Ends (f copy) u (Given u none) fun _ v =>
      (Material.node copy).Distinct u v → Given u none v) :
    Ends (do let copy ← cloneNode id; let _ ← f copy; return copy) t (Given t none) fun _ u =>
      Given t none u := by
  refine .bind (((Ends.of_yields (yields_cloneNode ht id)).and (still_cloneNode t id)).mono
    (fun u h => ⟨h.1.consistent ht, .still h.2⟩) fun _ _ h => h) ?_
  rintro copy u ⟨⟨hchanges, -⟩, hstill⟩
  refine ((hf u copy (hchanges.consistent ht)).mono (fun v h => h.of_still hstill)
    fun _ v h => (h trivial).of_still hstill).andReturn (R := fun _ v => Given t none v)
      fun _ _ h => h

/-- Taking a node out leaves all nodes in the store, whatever the tree is like. -/
theorem contains_remove (t : Tree) (id : NodeId) :
    Ends (remove id) t (fun u => ∀ i, t.contains i = true → u.contains i = true) fun _ u =>
      ∀ i, t.contains i = true → u.contains i = true := by
  rw [remove]
  refine .bind (R := fun _ u => t = u) (.node id (fun _ h => h) fun _ _ => rfl) ?_
  rintro n _ rfl
  -- All ends are the same here: removing a node deletes no entry of the tree.
  split
  · rename_i parent _
    rw [removeChild]
    refine .bind (R := fun v u => t = v ∧ t = u) (.tree ⟨rfl, rfl⟩) ?_
    rintro _ _ ⟨rfl, rfl⟩
    split
    · exact .throw _ fun _ h => h
    · rename_i i hindex
      exact .change (taken_removeAt hindex).contains
  · exact .pure fun _ h => h

/-- Something was put in front of a node that stood in a list, and the node was taken out. -/
def Replaced (t : Tree) (id : NodeId) (u : Tree) : Prop :=
  Given t none u ∨ ∃ p v, id ∈ t.children p ∧ Given t none v ∧ u.Consistent ∧ v.Without id u

/-- The node goes when the new ones are there, so both steps show in lists. -/
theorem ends_replaceWith (ht : t.Consistent) (hm : m.Sound) (id : NodeId) :
    Ends (replaceWith id m) t (fun u => m.Distinct t u → Replaced t id u) fun _ u =>
      m.Distinct t u → Replaced t id u := by
  have hstay : Replaced t id t := Or.inl ⟨ht, .still (.refl t)⟩
  rw [replaceWith]
  refine .bind (R := fun n u => t = u ∧ t.get? id = some n)
    (.node id (fun _ => hstay) fun n hn => ⟨rfl, hn⟩) ?_
  rintro n _ ⟨rfl, hn⟩
  split_ifs with hparent
  · exact .pure fun _ => hstay
  · obtain ⟨p, hp⟩ := Option.ne_none_iff_exists'.mp (mt Option.isNone_iff_eq_none.mpr hparent)
    have hplace : id ∈ t.children p := by
      refine ht.mem_children_iff.mpr ?_
      rw [parent?, hn]
      exact hp
    refine .bind ((ends_insertBefore ht hm id).mono (fun u h _ => Or.inl h) fun _ _ h => h) ?_
    intro ids v hgiven
    by_cases hdistinct : m.Distinct t v
    · have hv := hgiven hdistinct
      have hreplaced : ∀ u, u.Consistent ∧ v.Without id u → m.Distinct t u → Replaced t id u :=
        fun u hu _ => Or.inr ⟨p, v, hplace, hv, hu⟩
      exact ((ends_remove hv.1 id).mono hreplaced fun _ => hreplaced).andReturn
        (R := fun _ u => m.Distinct t u → Replaced t id u) fun _ _ h => h
    · -- A list that named a node twice before the node was taken out does so afterwards.
      have hspoiled : ∀ u : Tree, (∀ i, v.contains i = true → u.contains i = true) →
          m.Distinct t u → Replaced t id u := by
        intro u hcontains hdistinct'
        refine absurd ?_ hdistinct
        cases m with
        | nodes ids =>
          refine ⟨hdistinct'.1, fun i hi => (hdistinct'.2 i hi).imp_right fun hnone => ?_⟩
          rw [Bool.eq_false_iff] at hnone ⊢
          exact fun hvi => hnone (hcontains i hvi)
        | _ => trivial
      exact ((contains_remove v id).mono hspoiled fun _ => hspoiled).andReturn
        (R := fun _ u => m.Distinct t u → Replaced t id u) fun _ _ h => h

/-! ### Fields -/

theorem still_update (t : Tree) (id : NodeId) (expected : NodeKind) (f : Content → Content) :
    Ends (update id expected f) t t.Still fun _ u => t.Still u :=
  Keeps.update (P := t.Still) (fun u _ h _ => h.trans (.setContent u id _ _)) expected t (.refl t)

theorem still_setSelectors (t : Tree) (id : NodeId) (values : List String) :
    Ends (setSelectors id values) t t.Still fun _ u => t.Still u :=
  Keeps.setSelectors (P := t.Still) (fun u _ _ h _ => h.trans (.setContent u id _ _)) values t
    (.refl t)

theorem still_cleanRaws (t : Tree) (id : NodeId) (keepBetween : Bool) :
    Ends (cleanRaws id keepBetween) t t.Still fun _ u => t.Still u :=
  Keeps.cleanRaws (P := t.Still) (fun u h => h.trans (.cleanRaws u id keepBetween)) t (.refl t)

theorem still_touch (t : Tree) (id : NodeId) (f : Detail → Detail) :
    Ends (touch id f) t t.Still fun _ u => t.Still u :=
  Keeps.touch (P := t.Still)
    (fun u h => (h.trans (.markDirty u id)).trans (.withDetail f _ id)) t (.refl t)

end Editing

/-! ### All edits -/

namespace Edit

open Stylesheet.Tree Editing

variable {e : Edit} {t : Tree}

/-- The tree stays consistent, and the edit has one of the effects. -/
def Works (e : Edit) (t u : Tree) : Prop :=
  u.Consistent ∧ e.Effect t u

/-- An edit that moves nothing only gives. -/
theorem works_of_given (hmoved : e.moved? = none) {u : Tree} (h : Given t e.appendsTo? u) :
    e.Works t u :=
  ⟨h.1, .gains hmoved h.2⟩

/-- A move takes first and gives then. -/
theorem works_of_shifted {id : NodeId} (hmoved : e.moved? = some id) {u : Tree}
    (h : Shifted t id e.appendsTo? u) : e.Works t u := by
  obtain ⟨v, hwithout, hgiven⟩ := h
  exact ⟨hgiven.1, .moves hmoved hwithout hgiven.2⟩

/-- Edits that put something in, and nothing else. -/
theorem ends_given {f : Editing (List NodeId)} {m : Material} (hmoved : e.moved? = none)
    (hm : e.material? = some m)
    (h : Ends f t (Given t e.appendsTo?) fun _ u => m.Distinct t u → Given t e.appendsTo? u) :
    Ends f t (fun u => e.Distinct t u → e.Works t u) fun _ u => e.Distinct t u → e.Works t u :=
  h.mono (fun _ hu _ => works_of_given hmoved hu) fun _ _ hu hdistinct =>
    works_of_given hmoved (hu (hdistinct m hm))

theorem ends_silently {f : Editing Unit} (h : Ends f t (e.Works t) fun _ u => e.Works t u) :
    Ends (silently f) t (fun u => e.Distinct t u → e.Works t u) fun _ u =>
      e.Distinct t u → e.Works t u := by
  refine .bind (R := fun _ u => e.Works t u) (h.mono (fun _ hu _ => hu) fun _ _ hu => hu) ?_
  exact fun _ _ hu => .pure fun _ => hu

theorem ends_single {f : Editing NodeId} (h : Ends f t (e.Works t) fun _ u => e.Works t u) :
    Ends (single f) t (fun u => e.Distinct t u → e.Works t u) fun _ u =>
      e.Distinct t u → e.Works t u := by
  refine .bind (R := fun _ u => e.Works t u) (h.mono (fun _ hu _ => hu) fun _ _ hu => hu) ?_
  exact fun _ _ hu => .pure fun _ => hu

/-- Edits that leave lists and cursors alone. -/
theorem ends_still {α : Type} {f : Editing α} (hmoved : e.moved? = none) (ht : t.Consistent)
    (hyields : Yields Never f t fun _ _ => True) (h : Ends f t t.Still fun _ u => t.Still u) :
    Ends f t (e.Works t) fun _ u => e.Works t u := by
  have hworks : ∀ u, t.Changes u ∧ t.Still u → e.Works t u :=
    fun u hu => ⟨hu.1.consistent ht, .gains hmoved (.still hu.2)⟩
  exact ((Ends.of_yields hyields).and h).mono hworks fun _ u hu => hworks u ⟨hu.1.1, hu.2⟩

/-- All setters. -/
theorem ends_set (ht : t.Consistent) (hmoved : e.moved? = none) (id : NodeId)
    (expected : NodeKind) {f : Content → Content} (hf : ∀ c, (f c).kind = c.kind) :
    Ends (silently (update id expected f)) t (fun u => e.Distinct t u → e.Works t u) fun _ u =>
      e.Distinct t u → e.Works t u :=
  ends_silently (ends_still hmoved ht (yields_update t id expected hf)
    (still_update t id expected f))

/-- All moves. -/
theorem ends_moved {id : NodeId} (hmoved : e.moved? = some id) (ht : t.Consistent)
    {f : Editing (List NodeId)}
    (hf : ∀ u : Tree, u.Consistent → Ends f u (Given u e.appendsTo?) fun _ v =>
      (Material.node id).Distinct u v → Given u e.appendsTo? v) :
    Ends (silently do Editing.remove id; let _ ← f) t (fun u => e.Distinct t u → e.Works t u)
      fun _ u => e.Distinct t u → e.Works t u :=
  ends_silently ((ends_move ht id hf).mono (fun _ => works_of_shifted hmoved)
    fun _ _ => works_of_shifted hmoved)

/-- Both ways to put a copy next to a node. -/
theorem ends_cloned (hmoved : e.moved? = none) (hlast : e.appendsTo? = none) (ht : t.Consistent)
    (id : NodeId) {f : NodeId → Editing (List NodeId)}
    (hf : ∀ (u : Tree) (copy : NodeId), u.Consistent → Ends (f copy) u (Given u none) fun _ v =>
      (Material.node copy).Distinct u v → Given u none v) :
    Ends (single do let copy ← Editing.cloneNode id; let _ ← f copy; return copy) t
      (fun u => e.Distinct t u → e.Works t u) fun _ u => e.Distinct t u → e.Works t u := by
  have hworks : ∀ u, Given t none u → e.Works t u :=
    fun u h => works_of_given hmoved (hlast ▸ h)
  exact ends_single ((ends_clone ht id hf).mono hworks fun _ => hworks)

/-- What each edit does to lists, removal of all children apart. -/
theorem ends_perform (ht : t.Consistent) (he : e.Sound) (hall : e.removesAll = false) :
    Ends e.perform t (fun u => e.Distinct t u → e.Works t u) fun _ u =>
      e.Distinct t u → e.Works t u := by
  have hnode : ∀ id, (Material.node id).Sound := fun _ => trivial
  cases e with
  | create m =>
    refine ends_given rfl rfl ?_
    refine (ends_materialize ht ?_ (he m rfl)).mono (fun u h => ⟨h.1, .still h.2⟩)
      fun _ u h _ => ⟨h.1, .still h.2.1⟩
    exact fun p hp => absurd hp (Option.not_mem_none p)
  | append parent m => exact ends_given rfl rfl (ends_append ht (he m rfl) parent)
  | prepend parent m => exact ends_given rfl rfl (ends_prepend ht (he m rfl) parent)
  | insertBefore exist m => exact ends_given rfl rfl (ends_insertBefore ht (he m rfl) exist)
  | insertAfter exist m => exact ends_given rfl rfl (ends_insertAfter ht (he m rfl) exist)
  -- Two steps that show in lists, unless the node stands nowhere.
  | replaceWith id m =>
    have hworks : ∀ u, (m.Distinct t u → Replaced t id u) →
        (Edit.replaceWith id m).Distinct t u → (Edit.replaceWith id m).Works t u := by
      intro u h hdistinct
      rcases h (hdistinct m rfl) with hgiven | ⟨p, v, hplace, hgiven, hu, hwithout⟩
      · exact works_of_given rfl hgiven
      · exact ⟨hu, .replaces rfl hplace hgiven.1 hgiven.2 hwithout⟩
    exact (ends_replaceWith ht (he m rfl) id).mono hworks fun _ => hworks
  | remove id =>
    have hworks : ∀ u, u.Consistent ∧ t.Without id u → (Edit.remove id).Works t u :=
      fun u h => ⟨h.1, .loses rfl h.2⟩
    exact ends_silently ((ends_remove ht id).mono hworks fun _ => hworks)
  | removeChild parent child =>
    refine ends_silently ((ends_removeChild ht parent child).mono ?_ fun _ u h => ?_)
    · rintro _ ⟨rfl, -⟩
      exact ⟨ht, .gains rfl (.still (.refl t))⟩
    · exact ⟨h.1, .loses rfl h.2⟩
  | removeAll parent => cases hall
  -- A move takes a node out and then inserts it into what is left.
  | moveTo id parent =>
    exact ends_moved (e := .moveTo id parent) rfl ht fun u hu => ends_append hu (hnode id) parent
  | moveBefore id target =>
    exact ends_moved (e := .moveBefore id target) rfl ht fun u hu =>
      ends_insertBefore hu (hnode id) target
  | moveAfter id target =>
    exact ends_moved (e := .moveAfter id target) rfl ht fun u hu =>
      ends_insertAfter hu (hnode id) target
  | cloneNode id =>
    exact ends_single (ends_still rfl ht (yields_cloneNode ht id) (still_cloneNode t id))
  | cloneBefore id =>
    exact ends_cloned (e := .cloneBefore id) rfl rfl ht id fun u copy hu =>
      ends_insertBefore hu (hnode copy) id
  | cloneAfter id =>
    exact ends_cloned (e := .cloneAfter id) rfl rfl ht id fun u copy hu =>
      ends_insertAfter hu (hnode copy) id
  -- Nothing below touches a list.
  | setProp id new | setValue id new | setImportant id new | setSelector id new | setName id new
  | setParams id new | setText id new => exact ends_set ht rfl id _ fun c => by simp
  | setSelectors id values =>
    exact ends_silently (ends_still rfl ht (yields_setSelectors t id values)
      (still_setSelectors t id values))
  | cleanRaws id keepBetween =>
    exact ends_silently (ends_still rfl ht (yields_cleanRaws t id keepBetween)
      (still_cleanRaws t id keepBetween))
  | setRaws id raws =>
    exact ends_silently (ends_still rfl ht (yields_touch t id (fun _ => rfl) fun _ => rfl)
      (still_touch t id _))
  | dropSource id =>
    exact ends_silently (ends_still rfl ht (yields_touch t id (fun _ => rfl) fun _ => rfl)
      (still_touch t id _))
  | markDirty id =>
    exact ends_silently (ends_still rfl ht (.change (.single (.markDirty id)) trivial)
      (.change (.markDirty t id)))

/-- An edit of a consistent tree that inserts no list with a node in it twice. -/
theorem works_run {d : Desk} (hd : d.tree.Consistent) (he : e.Sound) (hall : e.removesAll = false)
    (hdistinct : e.Distinct d.tree (e.run d).2.tree) : e.Works d.tree (e.run d).2.tree :=
  (ends_perform hd he hall).atEnd d.workspace hdistinct

/-- An edit that inserts no list with a node in it twice makes allowed changes only. -/
theorem changes_of_distinct {d : Desk} (hd : d.tree.Consistent) (he : e.Sound)
    (hdistinct : e.Distinct d.tree (e.run d).2.tree) : d.tree.Changes (e.run d).2.tree := by
  refine changes_run hd he ?_
  cases hall : e.removesAll with
  | false => exact Or.inr (works_run hd he hall hdistinct).1
  | true =>
    left
    cases e with
    | removeAll parent => rfl
    | _ => cases hall

end Edit

end Stylesheet
