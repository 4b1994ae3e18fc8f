import Stylesheet.Proofs.Edit.Command
import Stylesheet.Proofs.Edit.Ends
import Stylesheet.Proofs.Edit.Material
import Stylesheet.Proofs.Tree.Intact

/-!
# Edits beside the tree

What is made for insertion touches no node that was there (`Editing.aside_materialize`). Beyond that
an edit is aimed at some nodes (`Edit.targets`). When none of them stands in the tree, the edit
leaves all nodes that do stand in it as they are, whatever it inserts and whether it fails or not
(`Edit.aside_perform`): a node of the tree that is to be inserted is copied, for it has a parent,
and the root is refused.

This is so for a copy of a node. It is a branch that is put into the store: the details of the node,
but for what stood in front of it and between its parts, with the drafts of its children
(`Editing.runOn_cloneNode`). So it is made of new nodes, says what the node says with all that is
below it, and what is done to it later does not reach the tree (`Edit.cloned`).
-/

namespace Stylesheet

namespace Editing

open Stylesheet.Tree

variable {P : NodeId → Prop} {t u : Tree}

/-! ### What is made for insertion -/

/-- A node that is made of a bag is new, and so is all that is made below it before a bag turns out
to be a bad one. -/
theorem building_aside (P : NodeId → Prop) (t : Tree) :
    Building (fun _ => True) (t.Aside P) (¬ P ·) (¬ P ·) where
  push h _ := by
    rw [push_eq_graft]
    exact h.graft _
  own h := h
  insertLast h hparent hchild := h.insertLast hparent (List.forall_mem_singleton.mpr hchild)

/-- The node is new or else, among those that are to stay, one that stands in no list, is no root
and is not the container it is to be put into. -/
def Loose (P : NodeId → Prop) (t : Tree) (parent : Option NodeId) (c : NodeId) : Prop :=
  P c → t.parent? c = none ∧ t.kind? c ≠ some .root ∧ c ∉ parent

theorem loose_of_not {parent : Option NodeId} {c : NodeId} (h : ¬ P c) : Loose P t parent c :=
  fun hP => absurd hP h

/-- What is taken or copied for insertion is no node that stands in a list. -/
theorem aside_adopt (parent : Option NodeId) (c : NodeId) (h : t.Aside P u) :
    Ends (adopt parent c) u (t.Aside P) fun c v => t.Aside P v ∧ Loose P t parent c := by
  refine .adopt parent c h (fun _ _ _ _ => ?_) fun n hn hroot htake => ⟨h, fun hP => ?_⟩
  · obtain ⟨hv, hnew⟩ := h.graft (u.draft c)
    exact ⟨hv, loose_of_not hnew⟩
  · rw [Bool.or_eq_false_iff, Option.isSome_eq_false_iff] at htake
    rw [h.kept c hP] at hn
    refine ⟨?_, ?_, fun hmem => absurd htake.2 (ne_false_of_eq_true ?_)⟩
    · rw [parent?, hn]
      exact Option.isNone_iff_eq_none.mp htake.1
    · rw [kind?, hn]
      exact fun hkind => hroot (Option.some.inj hkind)
    · -- A node is above itself, as far as this question goes.
      rw [Option.any_eq_true]
      refine ⟨c, hmem, ?_⟩
      rw [isAncestor, List.contains_iff_mem, lineage]
      cases u.nodes.size <;> exact List.mem_cons_self

/-- What a bag is built into is new. -/
theorem aside_bag (parent : Option NodeId) (bag : Bag) (h : t.Aside P u) :
    Ends (build bag) u (t.Aside P) fun c v => t.Aside P v ∧ Loose P t parent c :=
  ((building_aside P t).build (bag.describes fun _ _ _ _ => trivial) h).mono (fun _ h => h)
    fun _ _ h => ⟨h.1, loose_of_not h.2⟩

/-- Whatever is made for insertion, and however far it comes, the nodes that are to stay are as they
were. -/
theorem aside_materialize (parent : Option NodeId) (m : Material) (h : t.Aside P u) :
    Ends (materialize parent m) u (t.Aside P) fun ids v =>
      t.Aside P v ∧ ∀ c ∈ ids, Loose P t parent c := by
  cases m with
  | node c =>
    rw [materialize]
    exact (aside_adopt parent c h).andReturn fun _ _ h =>
      ⟨h.1, List.forall_mem_singleton.mpr h.2⟩
  | nodes ids => exact .mapM ids h fun c _ _ => aside_adopt parent c
  | bag bag =>
    rw [materialize]
    exact (aside_bag parent bag h).andReturn fun _ _ h => ⟨h.1, List.forall_mem_singleton.mpr h.2⟩
  | bags bags => exact .mapM bags h fun bag _ _ => aside_bag parent bag
  -- Texts and trees are laid out behind the nodes that are there.
  | text css =>
    rw [materialize]
    refine .bind (R := fun _ v => t.Aside P v) (.parsed css {} h fun _ _ _ => h) ?_
    intro other v hv
    obtain ⟨hw, hnew⟩ := hv.graftAll other.textDrafts
    exact .changeGet ⟨hw, fun c hc => loose_of_not (hnew c hc)⟩
  | tree other shared =>
    rw [materialize]
    -- The inputs that come along are no nodes.
    have hinputs : t.Aside P { u with inputs := u.inputs ++ other.inputs } :=
      ⟨h.here, h.kept, h.apart⟩
    obtain ⟨hw, hnew⟩ := hinputs.graftAll
      ((other.children rootId).map fun c =>
        (other.draft c).map (renumberInput (u.inputNumber other shared)))
    exact .changeGet ⟨hw, fun c hc => loose_of_not (hnew c hc)⟩

/-! ### Single nodes -/

variable {parent id : NodeId}

/-- A block is opened in the container only. -/
theorem aside_openBlock (hparent : ¬ P parent) : Keeps (t.Aside P) (openBlock parent) := by
  rw [openBlock]
  refine .bind (.node parent) fun n => ?_
  have hopen : Keeps (t.Aside P)
      (change (·.modify parent (·.withDetail fun d => { d with block := true }))) :=
    .change fun _ h => h.modify_of hparent (fun _ => rfl) fun _ => rfl
  split
  · exact .throw _
  · exact .throw _
  · exact hopen

/-- Any node may be copied. -/
theorem aside_cloneNode (id : NodeId) : Keeps (t.Aside P) (cloneNode id) := by
  intro u h
  rw [cloneNode]
  refine .bind (R := fun _ v => t.Aside P v) (.node id h fun _ _ => h) fun _ v hv => ?_
  refine .bind (R := fun c w => t.Aside P w ∧ ¬ P c) (.changeGet (hv.graft _)) ?_
  rintro copy w ⟨hw, hcopy⟩
  refine .bind (R := fun _ w => t.Aside P w) (.change ?_) fun _ _ h => .pure h
  exact hw.modify_of hcopy (fun _ => rfl) fun _ => rfl

/-- Access to one node leaves the others alone. -/
theorem aside_touch (hid : ¬ P id) (f : Detail → Detail) : Keeps (t.Aside P) (touch id f) :=
  .touch fun _ h => (h.markDirty hid).modify_of hid (fun _ => rfl) fun _ => rfl

theorem aside_markDirty (hid : ¬ P id) : Keeps (t.Aside P) (markDirty id) :=
  .change fun _ h => h.markDirty hid

/-! ### Out of lists -/

/-- Only the list of the parent, its first node, and the child are changed. -/
theorem aside_removeChild (hparent : ¬ P parent) (child : NodeId) :
    Keeps (t.Aside P) (removeChild parent child) := by
  intro u h
  rw [removeChild]
  refine .bind (R := fun v w => u = v ∧ u = w) (.tree ⟨rfl, rfl⟩) ?_
  rintro _ _ ⟨rfl, rfl⟩
  split
  · exact .throw _ h
  · rename_i i hindex
    exact .change (h.removeAt hparent hindex)

/-- A node that is not to be left alone has no parent that is. -/
theorem aside_remove (hid : ¬ P id) : Keeps (t.Aside P) (remove id) := by
  intro u h
  rw [remove]
  refine .bind (R := fun n v => u = v ∧ u.get? id = some n) (.node id h fun n hn => ⟨rfl, hn⟩) ?_
  rintro n _ ⟨rfl, hn⟩
  split
  · rename_i parent hparent
    exact aside_removeChild ((h.apart id n hid hn).parent parent hparent) id u h
  · exact .pure h

theorem aside_removeAll (hparent : ¬ P parent) : Keeps (t.Aside P) (removeAll parent) :=
  .bind (.node parent) fun _ => .change fun _ h => h.removeChildren hparent

/-! ### Into lists -/

section

variable (htop : t.TopsAreRoots P)
include htop

/-- What all ways to insert have in common. -/
theorem aside_insert (parent : NodeId) (m : Material) {f : List NodeId → Tree → Tree}
    (hf : ∀ ids u, (∀ c ∈ ids, ¬ P c) → t.Aside P u → t.Aside P (f ids u)) :
    Keeps (t.Aside P) (do
      let ids ← materialize (some parent) m
      change (f ids)
      return ids) := by
  intro u h
  refine (aside_materialize _ m h).bind ?_
  rintro ids v ⟨hv, hloose⟩
  have hids : ∀ c ∈ ids, ¬ P c := by
    intro c hc hP
    obtain ⟨hparent, hkind, -⟩ := hloose c hc hP
    exact hkind (htop c hP hparent)
  exact .bind (R := fun _ w => t.Aside P w) (.change (hf ids v hids hv)) fun _ _ hw => .pure hw

theorem aside_append (hparent : ¬ P parent) (m : Material) :
    Keeps (t.Aside P) (append parent m) :=
  (aside_openBlock hparent).bind fun _ =>
    aside_insert htop parent m fun _ _ hids h => h.insertLast hparent hids

theorem aside_prepend (hparent : ¬ P parent) (m : Material) :
    Keeps (t.Aside P) (prepend parent m) :=
  (aside_openBlock hparent).bind fun _ =>
    aside_insert htop parent m fun _ _ hids h => h.insertFirst hparent hids

/-- The container of a node that is not one of those that are to stay is not either. -/
theorem aside_insertNextTo (hid : ¬ P id) (m : Material)
    {f : NodeId → Nat → List NodeId → Tree → Tree}
    (hf : ∀ parent i ids u, ¬ P parent → (∀ c ∈ ids, ¬ P c) → t.Aside P u →
      t.Aside P (f parent i ids u)) :
    Keeps (t.Aside P) (do
      let (parent, i) ← placeOf id
      let ids ← materialize (some parent) m
      change (f parent i ids)
      return ids) := by
  intro u h
  refine .bind (R := fun (parent, _) v => t.Aside P v ∧ ¬ P parent)
    ((ends_placeOf u id).mono ?_ ?_) ?_
  · rintro _ rfl
    exact h
  · rintro ⟨parent, i⟩ _ ⟨rfl, hparent, -⟩
    exact ⟨h, h.parent hid hparent⟩
  · rintro ⟨parent, i⟩ v ⟨hv, hparent⟩
    exact aside_insert htop parent m (fun ids w hids hw => hf parent i ids w hparent hids hw) v hv

theorem aside_insertBefore (hid : ¬ P id) (m : Material) :
    Keeps (t.Aside P) (insertBefore id m) := by
  rw [insertBefore]
  exact aside_insertNextTo (f := fun parent i ids u => u.insertInFront parent id i ids) htop hid m
    fun _ i _ _ hparent hids h => h.insertInFront hparent hid i hids

theorem aside_insertAfter (hid : ¬ P id) (m : Material) :
    Keeps (t.Aside P) (insertAfter id m) := by
  rw [insertAfter]
  exact aside_insertNextTo (f := fun parent i ids u => u.insertBehind parent id i ids) htop hid m
    fun _ i _ _ hparent hids h => h.insertBehind hparent hid i hids

/-- The new nodes stand where the node stood, next to none that is left alone. -/
theorem aside_replaceWith (hid : ¬ P id) (m : Material) :
    Keeps (t.Aside P) (replaceWith id m) := by
  rw [replaceWith]
  refine .bind (.node id) fun n => ?_
  have hrest : Keeps (t.Aside P) (do
      let ids ← insertBefore id m
      remove id
      return ids) :=
    (aside_insertBefore htop hid m).bind fun ids => (aside_remove hid).bind fun _ => .pure ids
  split_ifs
  · exact .pure []
  · exact hrest

end

end Editing

/-! ### All edits -/

namespace Edit

open Editing

/-- The nodes that the edit changes, takes out, or puts something into or next to. A node that is
only copied is not among them. -/
def targets : Edit → List NodeId
  | create _ | cloneNode _ => []
  | append id _ | prepend id _ | insertBefore id _ | insertAfter id _ | replaceWith id _ => [id]
  | remove id | removeAll id | removeChild id _ | cloneBefore id | cloneAfter id => [id]
  | moveTo id other | moveBefore id other | moveAfter id other => [id, other]
  | setProp id _ | setValue id _ | setImportant id _ | setSelector id _ | setName id _
  | setParams id _ | setText id _ | setSelectors id _ => [id]
  | cleanRaws id _ | setRaws id _ | dropSource id | markDirty id => [id]

variable {P : NodeId → Prop} {t : Tree} {e : Edit}

/-- An edit that is aimed at none of the nodes that are to stay. -/
theorem aside_perform (htop : t.TopsAreRoots P) (he : ∀ x ∈ e.targets, ¬ P x) :
    Keeps (t.Aside P) e.perform := by
  cases e with
  | create m => exact fun _ h => (aside_materialize none m h).mono (fun _ h => h) fun _ _ h => h.1
  | cloneNode id => exact .single (aside_cloneNode id)
  -- A move aims at two nodes, and both have to be aside.
  | moveTo id parent =>
    have hparent := he parent (List.mem_cons_of_mem _ List.mem_cons_self)
    exact .move (aside_remove (he id List.mem_cons_self)) (aside_append htop hparent _)
  | moveBefore id target =>
    have htarget := he target (List.mem_cons_of_mem _ List.mem_cons_self)
    exact .move (aside_remove (he id List.mem_cons_self)) (aside_insertBefore htop htarget _)
  | moveAfter id target =>
    have htarget := he target (List.mem_cons_of_mem _ List.mem_cons_self)
    exact .move (aside_remove (he id List.mem_cons_self)) (aside_insertAfter htop htarget _)
  -- The copy itself is new, so only the node it goes next to matters.
  | cloneBefore id =>
    exact .copy (aside_cloneNode id) fun _ => aside_insertBefore htop (he id List.mem_cons_self) _
  | cloneAfter id =>
    exact .copy (aside_cloneNode id) fun _ => aside_insertAfter htop (he id List.mem_cons_self) _
  | append id m => exact aside_append htop (he id List.mem_cons_self) m
  | prepend id m => exact aside_prepend htop (he id List.mem_cons_self) m
  | insertBefore id m => exact aside_insertBefore htop (he id List.mem_cons_self) m
  | insertAfter id m => exact aside_insertAfter htop (he id List.mem_cons_self) m
  | replaceWith id m => exact aside_replaceWith htop (he id List.mem_cons_self) m
  | remove id => exact .silently (aside_remove (he id List.mem_cons_self))
  | removeChild id child => exact .silently (aside_removeChild (he id List.mem_cons_self) child)
  | removeAll id => exact .silently (aside_removeAll (he id List.mem_cons_self))
  -- From here on one node is changed in place.
  | setSelectors id values =>
    have hid := he id List.mem_cons_self
    exact .silently (.setSelectors (fun _ _ _ h _ => h.setContent hid _ _) values)
  | cleanRaws id keepBetween =>
    have hid := he id List.mem_cons_self
    exact .silently (.cleanRaws fun _ h => h.cleanRaws hid keepBetween)
  | setRaws id | dropSource id => exact .silently (aside_touch (he id List.mem_cons_self) _)
  | markDirty id => exact .silently (aside_markDirty (he id List.mem_cons_self))
  | setProp id | setValue id | setImportant id | setSelector id | setName id | setParams id
  | setText id =>
    have hid := he id List.mem_cons_self
    exact .silently (.update (fun _ _ h _ => h.setContent hid _ _) _)

/-- Edits that are aimed at none of the nodes that are to stay, whether they fail or not. -/
theorem aside_runAll (htop : t.TopsAreRoots P) : ∀ (edits : List Edit) {d : Desk},
    (∀ e ∈ edits, ∀ x ∈ e.targets, ¬ P x) → t.Aside P d.tree → t.Aside P (runAll edits d).tree
  | [], _, _, h => h
  | e :: edits, d, hedits, h => by
    rw [List.forall_mem_cons] at hedits
    have hfirst := (aside_perform htop hedits.1 d.tree h).atEnd d.workspace
    exact aside_runAll htop edits hedits.2 hfirst

end Edit

/-! ### Copies -/

/-- The details without what stood in front of the node and between its parts. -/
def Detail.unplaced (d : Detail) : Detail :=
  { d with raws := { d.raws with before := none, between := none } }

namespace Tree

variable {t : Tree}

/-- What a copy of a node is made of. -/
def cloneDraft (t : Tree) (id : NodeId) : Draft :=
  .node (t.detail id).unplaced ((t.children id).map t.draft)

/-- A copy keeps the contents of the node, and so its kind. -/
theorem Consistent.sound_cloneDraft (ht : t.Consistent) (id : NodeId) :
    (t.cloneDraft id).Every Detail.Sound := by
  have hsound := ht.sound_draft id
  rw [ht.draft_eq_node] at hsound
  cases hsound with
  | node top rest => exact .node ⟨top.block, top.canOwn, top.nested⟩ rest

end Tree

namespace Editing

open Stylesheet.Tree

/-- Copying a node that is there does not fail. -/
theorem runOn_cloneNode {d : Desk} (hd : d.tree.Consistent) {id : NodeId}
    (hid : d.tree.contains id = true) :
    (cloneNode id).runOn d = (.ok (d.tree.graft (d.tree.cloneDraft id)).1,
      { d with tree := (d.tree.graft (d.tree.cloneDraft id)).2 }) := by
  obtain ⟨n, hn⟩ := Option.isSome_iff_exists.mp hid
  have hrun : (cloneNode id).runOn d = (.ok (d.tree.copy id).1, { d with tree :=
      ((d.tree.copy id).2.modify (d.tree.copy id).1 (·.withDetail Detail.unplaced)) }) := by
    rw [cloneNode, runOn_bind, runOn_node, hn]
    rfl
  rw [hrun, copy, hd.draft_eq_node, modify_graft]
  rfl

end Editing

namespace Edit

open Stylesheet.Tree Editing

/-- A copy of a node is new with all that is below it, stands in no list, and has the details of the
node and of all that is below it, but for what stood in front of the node and between its parts. All
nodes that were there are as they were. Whatever is done afterwards to the copy, to what is below it
and to other nodes that do not stand in the tree, also when it fails, the nodes of the tree stay as
they were, and so does the text. -/
theorem cloned {d : Desk} (hd : d.tree.Consistent) {id : NodeId}
    (hid : d.tree.contains id = true) :
    let t := d.tree
    ∃ copy u, (Editing.cloneNode id).runOn d = (.ok copy, { d with tree := u }) ∧ u.Consistent ∧
      t.Intact u ∧ u.inputs = t.inputs ∧
      u.parent? copy = none ∧ (∀ p, copy ∉ u.children p) ∧
      (∀ x ∈ (u.shape copy).toList, t.contains x = false) ∧
      t.draft id = .node (t.detail id) ((t.children id).map t.draft) ∧
      u.draft copy = .node (t.detail id).unplaced ((t.children id).map t.draft) ∧
      ∀ edits : List Edit,
        (∀ e ∈ edits, ∀ x ∈ e.targets, t.contains x = true → ¬ t.Attached x) →
          t.kind? rootId = some .root →
            let v := (runAll edits { d with tree := u }).tree
            (∀ x, t.Attached x → v.get? x = t.get? x) ∧ v.print = t.print := by
  intro t
  have hsound := hd.sound_cloneDraft id
  have hu : (t.graft (t.cloneDraft id)).2.Consistent := hd.graft hsound
  have htop := (top_graft t (t.cloneDraft id)).2.1
  -- The copy comes behind all nodes of the tree, so these are left alone.
  obtain ⟨hgraft, hnew⟩ := hd.aside_contains.graft (t.cloneDraft id)
  refine ⟨_, _, runOn_cloneNode hd hid, hu, hgraft.intact, rfl, htop, fun p hp => ?_,
    fun x hx => Bool.eq_false_iff.mpr (hgraft.shape hnew hx), hd.draft_eq_node id,
    hd.draft_graft hsound, fun edits hedits hroot => ?_⟩
  · rw [hu.listed p _ hp] at htop
    cases htop
  · intro v
    -- Later edits may aim at the copy, and at stray nodes, but not at the tree: an invariant of the
    -- run.
    have hbegin := hd.aside_attached hroot
    have haside : t.Aside t.Attached v :=
      aside_runAll (topsAreRoots_attached hroot) edits
        (fun e he x hx hup => hedits e he x hx (hbegin.here x hup) hup) (hbegin.graft _).1
    exact ⟨haside.kept, haside.print_eq hd hroot⟩

/-- Two rules, the first one with a declaration. -/
def ruleToCopy : Desk :=
  .ofText "a\x7bb : c\x7d\nd\x7b\x7d"

/-- Another selector, other formatting, insertions and a removal in the copy of the first rule. -/
def editsOfCopy : List Edit :=
  [.setSelector ⟨4⟩ "x", .setRaws ⟨4⟩ { after := some " " }, .append ⟨4⟩ (.node ⟨3⟩),
    .setValue ⟨5⟩ "z", .insertBefore ⟨5⟩ (.text "/**/"), .remove ⟨6⟩]

/-- The text of the copy is another one afterwards, and the text of the tree is not. -/
theorem cloned_ruleToCopy :
    ∃ u, (Editing.cloneNode ⟨1⟩).runOn ruleToCopy = (.ok ⟨4⟩, { ruleToCopy with tree := u }) ∧
      u.textOf ⟨4⟩ = "a \x7bb : c\x7d" ∧
      (runAll editsOfCopy { ruleToCopy with tree := u }).tree.textOf ⟨4⟩ =
        "x \x7b/**/b : z \x7d" ∧
      (runAll editsOfCopy { ruleToCopy with tree := u }).tree.print =
        "a\x7bb : c\x7d\nd\x7b\x7d" := by
  have hrule : ruleToCopy.tree.contains ⟨1⟩ = true := by decide +kernel
  have hnew : ∀ e ∈ editsOfCopy, ∀ x ∈ e.targets, ruleToCopy.tree.contains x = false := by
    decide +kernel
  obtain ⟨copy, u, hrun, -, -, -, -, -, -, -, -, hlater⟩ :=
    cloned (d := ruleToCopy) (orderly_ofText _).consistent hrule
  have hcopy : ((Editing.cloneNode ⟨1⟩).runOn ruleToCopy).1 = .ok ⟨4⟩ := by decide +kernel
  rw [hrun] at hcopy
  cases hcopy
  have hu : u = ((Editing.cloneNode ⟨1⟩).runOn ruleToCopy).2.tree := by rw [hrun]
  -- All edits aim at nodes of the copy.
  have htargets : ∀ e ∈ editsOfCopy, ∀ x ∈ e.targets, ruleToCopy.tree.contains x = true →
      ¬ ruleToCopy.tree.Attached x := by
    intro e he x hx hcontains
    rw [hnew e he x hx] at hcontains
    cases hcontains
  obtain ⟨-, hprint⟩ := hlater editsOfCopy htargets (by decide +kernel)
  refine ⟨u, hrun, ?_, ?_, hprint.trans (by decide +kernel)⟩
  · rw [hu]
    decide +kernel
  · rw [hu]
    decide +kernel

end Edit

end Stylesheet
