import Stylesheet.Proofs.Edit.Intact
import Stylesheet.Proofs.Walk.Each

/-!
# Insertion in front of a node

What is inserted in front of a node comes in between the children that a cursor has passed before
and the node it stands at: no child that was ahead of the cursor is passed for it, and none comes in
ahead (`Tree.InFront`). No other list changes, no other cursor moves, and every node says what it
said. All of this holds for anything that is inserted, also when the insertion fails on the way, and
for any number of insertions (`Edit.inFront_runAll`).
-/

namespace Stylesheet

namespace Tree

variable {t u v : Tree}

/-! ### What nodes say -/

/-- Nodes that were there say what they said. -/
def Tells (t u : Tree) : Prop :=
  ∀ x c, t.content? x = some c → u.content? x = some c

theorem Tells.refl (t : Tree) : t.Tells t :=
  fun _ _ h => h

/-- All that is told stays told. -/
theorem Tells.trans (h : t.Tells u) (h' : u.Tells v) : t.Tells v :=
  fun x c hc => h' x c (h x c hc)

/-- What nodes say is all that matters. -/
theorem Tells.of_content?_eq (h : u.content? = t.content?) : t.Tells u :=
  fun x _ hc => (congrFun h x).trans hc

theorem contains_eq_content? (t : Tree) (x : NodeId) :
    t.contains x = (t.content? x).isSome := by
  rw [content?, Option.isSome_map, Tree.contains]

theorem Tells.contains (h : t.Tells u) {x : NodeId} (hx : t.contains x = true) :
    u.contains x = true := by
  rw [contains_eq_content?] at hx ⊢
  obtain ⟨c, hc⟩ := Option.isSome_iff_exists.mp hx
  rw [h x c hc]
  rfl

theorem Tells.content?_eq (h : t.Tells u) {x : NodeId} (hx : t.contains x = true) :
    u.content? x = t.content? x := by
  rw [contains_eq_content?] at hx
  obtain ⟨c, hc⟩ := Option.isSome_iff_exists.mp hx
  rw [h x c hc, hc]

/-- New nodes tell more and contradict nothing. -/
theorem Intact.tells (h : t.Intact u) : t.Tells u := by
  intro x c hc
  have hx : t.contains x = true := by
    rw [contains_eq_content?, hc]
    rfl
  rw [content?, h x hx]
  exact hc

theorem Tells.splice (t : Tree) (parent : NodeId) (sample : Option NodeId) (inFront : Bool)
    (place : Nat) (ids : List NodeId) (move : Int → Int) :
    t.Tells ((t.settle parent sample inFront ids).splice parent place ids move) :=
  of_content?_eq (content?_splice t parent sample inFront place ids move)

/-! ### What an insertion spares -/

/-- The tree is in order as it was, its nodes say what they said, and only lists and cursors of
nodes `inside` have changed. -/
structure Spared (inside : NodeId → Prop) (t u : Tree) : Prop where
  consistent : u.Consistent
  numbered : u.Numbered
  tells : t.Tells u
  outside : ∀ p, t.contains p = true → ¬ inside p →
    u.children p = t.children p ∧ u.cursors p = t.cursors p

namespace Spared

variable {inside inside' : NodeId → Prop}

theorem refl (ht : t.Consistent) (hnumbered : t.Numbered) : t.Spared inside t :=
  ⟨ht, hnumbered, .refl t, fun _ _ _ => ⟨rfl, rfl⟩⟩

theorem trans (h : t.Spared inside u) (h' : u.Spared inside v) : t.Spared inside v where
  consistent := h'.consistent
  numbered := h'.numbered
  tells := h.tells.trans h'.tells
  outside p hp hout := by
    obtain ⟨hchildren, hcursors⟩ := h.outside p hp hout
    obtain ⟨hchildren', hcursors'⟩ := h'.outside p (h.tells.contains hp) hout
    exact ⟨hchildren'.trans hchildren, hcursors'.trans hcursors⟩

/-- More nodes may be inside. -/
theorem mono (h : t.Spared inside u) (hinside : ∀ p, inside p → inside' p) :
    t.Spared inside' u :=
  { h with outside := fun p hp hout => h.outside p hp fun hin => hout (hinside p hin) }

end Spared

/-- Something may have been put in front of `child` into the list of `parent`, between the child and
what cursors at it have passed before. -/
structure InFront (t u : Tree) (parent child : NodeId) : Prop where
  spared : t.Spared (· = parent) u
  listed : child ∈ u.children parent
  midway : ∀ k passed ahead, t.Midway parent k (passed ++ [child]) ahead →
    ∃ passed', u.Midway parent k (passed' ++ [child]) ahead

namespace InFront

variable {parent child : NodeId}

theorem trans (h : t.InFront u parent child) (h' : u.InFront v parent child) :
    t.InFront v parent child where
  spared := h.spared.trans h'.spared
  listed := h'.listed
  midway k passed ahead hmidway := by
    obtain ⟨passed', hmidway'⟩ := h.midway k passed ahead hmidway
    exact h'.midway k passed' ahead hmidway'

theorem refl (ht : t.Consistent) (hnumbered : t.Numbered) (hchild : child ∈ t.children parent) :
    t.InFront t parent child :=
  ⟨.refl ht hnumbered, hchild, fun _ passed _ h => ⟨passed, h⟩⟩

end InFront

/-- The place of a node in a list without repetitions. -/
theorem indexIn?_of_children {parent child : NodeId} {passed ahead : List NodeId}
    (ht : t.Consistent) (hchildren : t.children parent = passed ++ [child] ++ ahead) :
    t.indexIn? parent child = some passed.length := by
  have hnodup := ht.nodup_children parent
  rw [hchildren, List.append_assoc] at hnodup
  have hout : ∀ x ∈ passed, (x == child) = false := by
    intro x hx
    rw [beq_eq_false_iff_ne]
    exact (List.nodup_append.mp hnodup).2.2 x hx child List.mem_cons_self
  have hfound : ([child] ++ ahead).findIdx? (· == child) = some 0 := by
    simp [List.findIdx?_cons]
  rw [indexIn?, hchildren, List.append_assoc, List.findIdx?_append,
    List.findIdx?_eq_none_iff.mpr hout, hfound]
  simp

/-- Nodes that were put in at the place of a child are passed by the cursors that stand at it. -/
theorem Placed.inFront {parent child : NodeId} {ids : List NodeId} {i : Nat}
    (ht : t.Consistent) (hchild : child ∈ t.children parent)
    (hindex : t.indexIn? parent child = some i) (hstill : t.Still v)
    (h : v.Placed u parent ids i fun c => if (i : Int) ≤ c then c + ids.length else c)
    (hu : u.Consistent) (hnumbered : u.Numbered) (htells : t.Tells u) :
    t.InFront u parent child where
  spared := by
    refine ⟨hu, hnumbered, htells, fun p hp hne => ⟨?_, ?_⟩⟩
    · rw [h.others p (hstill.contains p hp) (Ne.symm hne), hstill.children p hp]
    · rw [h.cursors, if_neg (Ne.symm hne), hstill.cursors]
  listed := by
    have hcontains := contains_of_hasBlock (ht.block parent (List.ne_nil_of_mem hchild))
    rw [h.list, hstill.children parent hcontains]
    exact mem_put_in.mpr (Or.inl hchild)
  midway k passed ahead hmidway := by
    obtain rfl : i = passed.length :=
      Option.some.inj (hindex.symm.trans (indexIn?_of_children ht hmidway.children))
    have hmidway' := hmidway.still hstill
    refine ⟨passed ++ ids, ?_, ?_⟩
    · rw [h.list, hmidway'.children, List.append_assoc passed, List.take_left, List.drop_left,
        ← List.append_assoc]
    · -- The cursor stands at the child, and moves along with it.
      have hplace : (passed.length : Int) ≤ ((passed ++ [child]).length : Int) - 1 := by
        rw [List.length_append, List.length_singleton]
        omega
      rw [cursorIndex?_eq_cursors, h.cursors, if_pos rfl, find?_moved, ← cursorIndex?_eq_cursors,
        hmidway'.index, Option.map_some, if_pos hplace, List.length_append, List.length_append,
        List.length_append]
      congr 1
      omega

/-- Nothing was put in. -/
theorem Still.inFront {parent child : NodeId} (ht : t.Consistent)
    (hchild : child ∈ t.children parent) (h : t.Still u) (hu : u.Consistent)
    (hnumbered : u.Numbered) (htells : t.Tells u) : t.InFront u parent child where
  spared := ⟨hu, hnumbered, htells, fun p hp _ => ⟨h.children p hp, h.cursors p⟩⟩
  listed := by
    rw [h.children parent (contains_of_hasBlock (ht.block parent (List.ne_nil_of_mem hchild)))]
    exact hchild
  midway _ passed _ hmidway := ⟨passed, hmidway.still h⟩

end Tree

/-! ### One insertion -/

namespace Editing

open Stylesheet.Tree

variable {t : Tree}

/-- However it ends, an insertion leaves what nodes say. -/
theorem tells_insertBefore (ht : t.Consistent) (exist : NodeId) (m : Material) :
    Ends (insertBefore exist m) t t.Tells fun _ u => t.Tells u := by
  rw [insertBefore]
  refine (intact_insertNextTo ht exist m fun parent i ids u =>
    u.insertInFront parent exist i ids).mono (fun _ h => h.tells) ?_
  rintro ids _ ⟨parent, i, v, -, hintact, -, rfl⟩
  exact hintact.tells.trans (.splice v parent _ _ _ _ _)

/-- Where an insertion in front of a node puts what is inserted. -/
theorem ends_insertInFront {m : Material} (ht : t.Consistent) (hm : m.Sound) {parent child : NodeId}
    (hchild : child ∈ t.children parent) {i : Nat} (hindex : t.indexIn? parent child = some i) :
    let allowed (ids : List NodeId) (place : Nat) (move : Int → Int) :=
      place = i ∧ move = fun c => if (i : Int) ≤ c then c + ids.length else c
    Ends (insertBefore child m) t (fun u => m.Distinct t u → PutIn t parent allowed u) fun _ u =>
      m.Distinct t u → PutIn t parent allowed u := by
  intro allowed
  rw [insertBefore]
  refine .bind (R := fun place u => t = u ∧ place = (parent, i))
    ((ends_placeOf t child).mono ?_ ?_) ?_
  · rintro _ rfl
    exact fun _ => ⟨ht, Or.inl (.refl t)⟩
  · rintro ⟨p, j⟩ _ ⟨rfl, hparent, hplace⟩
    obtain rfl : p = parent :=
      Option.some.inj (hparent.symm.trans (ht.listed parent child hchild))
    exact ⟨rfl, Prod.ext rfl (Option.some.inj (hplace.symm.trans hindex))⟩
  · rintro _ _ ⟨rfl, rfl⟩
    have hput := ends_putIn (S := allowed)
      (f := fun ids u => u.insertInFront parent child i ids) ht hm
      (ht.block parent (List.ne_nil_of_mem hchild))
      fun ids u => ⟨some child, i == 0, i, _, rfl, along_inFront _ i _, rfl, rfl⟩
    exact hput.mono (fun _ h _ => h) fun _ _ h => h

end Editing

namespace Edit

open Stylesheet.Tree Editing

/-- An insertion in front of a child, whether it fails or not. -/
theorem inFront_run {d : Desk} (hd : d.tree.Consistent) (hnumbered : d.tree.Numbered)
    {parent child : NodeId} (hchild : child ∈ d.tree.children parent) {m : Material}
    (hsound : (insertBefore child m).Sound)
    (hdistinct : (insertBefore child m).Distinct d.tree
      ((insertBefore child m).run d).2.tree) :
    d.tree.InFront ((insertBefore child m).run d).2.tree parent child := by
  obtain ⟨passed, ahead, hsplit⟩ := List.append_of_mem hchild
  have hindex : d.tree.indexIn? parent child = some passed.length :=
    indexIn?_of_children hd (hsplit.trans (List.append_cons passed child ahead))
  obtain ⟨hconsistent, hput⟩ := (ends_insertInFront hd (hsound m rfl) hchild hindex).atEnd
    d.workspace (hdistinct m rfl)
  have htells : d.tree.Tells ((insertBefore child m).run d).2.tree :=
    (tells_insertBefore hd child m).atEnd d.workspace
  have hchanges := changes_run hd hsound (Or.inr hconsistent)
  have hnumbered' : ((insertBefore child m).run d).2.tree.Numbered :=
    (Changes.later hd hchanges : d.tree.Later (fun _ => 0) _).numbered hnumbered
  rcases hput with hstill | ⟨v, ids, _, _, hstill, hplaced, rfl, rfl⟩
  · exact hstill.inFront hd hchild hconsistent hnumbered' htells
  · exact hplaced.inFront hd hchild hindex hstill hconsistent hnumbered' htells

/-- Any number of insertions in front of a child. -/
theorem inFront_runAll {parent child : NodeId} : ∀ (ms : List Material) {d : Desk},
    d.tree.Consistent → d.tree.Numbered → child ∈ d.tree.children parent →
    (∀ m ∈ Moment.ofEdits (ms.map (insertBefore child)) d, m.Proper) →
    d.tree.InFront (runAll (ms.map (insertBefore child)) d).tree parent child
  | [], d, hd, hnumbered, hchild, _ => .refl hd hnumbered hchild
  | m :: ms, d, hd, hnumbered, hchild, hproper => by
    rw [List.map_cons, Moment.ofEdits, List.forall_mem_cons] at hproper
    obtain ⟨⟨-, hsound, hdistinct⟩, hrest⟩ := hproper
    have hfirst := inFront_run hd hnumbered hchild hsound hdistinct
    exact hfirst.trans
      (inFront_runAll ms hfirst.spared.consistent hfirst.spared.numbered hfirst.listed hrest)

end Edit

end Stylesheet
