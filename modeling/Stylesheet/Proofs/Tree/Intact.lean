import Stylesheet.Proofs.Tree.Change
import Stylesheet.Proofs.Tree.Face

/-!
# Nodes that stay as they are

`Tree.Intact` says that all nodes of a tree are in another one as they were, whatever new ones have
come.

Often some nodes are to stay as they are, and what happens is aimed at others. It stays with these
when they are tied to each other only (`Tree.Aside`), also when marks go up the whole line above a
node and down to all nodes below it. There is one lemma for each operation on a tree. The nodes that
are to stay can be all that were there (`Tree.Consistent.aside_contains`), or those that stand in
the tree (`Tree.Consistent.aside_attached`). In both cases the text stays the same too.
-/

namespace Stylesheet

/-- The node is tied to none of some nodes. -/
structure Node.Avoids (P : NodeId → Prop) (n : Node) : Prop where
  parent : ∀ p ∈ n.parent, ¬ P p
  children : ∀ c ∈ n.children, ¬ P c

namespace Tree

variable {P : NodeId → Prop} {t u v : Tree} {c x y : NodeId}

/-! ### All nodes -/

/-- The nodes that were there are as they were, in all that they hold. -/
def Intact (t u : Tree) : Prop :=
  ∀ j, t.contains j = true → u.get? j = t.get? j

theorem not_contains_of_size_le (h : t.nodes.size ≤ c.index) : t.contains c = false := by
  rw [Bool.eq_false_iff]
  intro hcontains
  have hlt := contains_iff_index_lt.mp hcontains
  omega

namespace Intact

theorem refl (t : Tree) : t.Intact t :=
  fun _ _ => rfl

/-- The nodes are still there, -/
theorem contains (h : t.Intact u) (hc : t.contains c = true) : u.contains c = true := by
  rw [Tree.contains, h c hc]
  exact hc

/-- so what is not there now was not there before. -/
theorem not_contains (h : t.Intact u) (hc : u.contains c = false) : t.contains c = false := by
  rw [Bool.eq_false_iff] at hc ⊢
  exact fun hcontains => hc (h.contains hcontains)

theorem trans (h : t.Intact u) (h' : u.Intact v) : t.Intact v :=
  fun j hj => (h' j (h.contains hj)).trans (h j hj)

/-- And each of them has the face that it had. -/
theorem face (h : t.Intact u) (hc : t.contains c = true) : u.face c = t.face c :=
  congrArg (Option.map Node.face) (h c hc)

/-- New nodes come behind the old ones. -/
theorem graft (t : Tree) (b : Draft) : t.Intact (t.graft b).2 :=
  fun _ hj => get?_graft_of_lt b (contains_iff_index_lt.mp hj)

end Intact

/-! ### Some nodes, and others -/

/-- The nodes of `t` with `P` are in `u` as they were, and no other node is tied to them. -/
structure Aside (P : NodeId → Prop) (t u : Tree) : Prop where
  here : ∀ x, P x → t.contains x = true
  kept : ∀ x, P x → u.get? x = t.get? x
  apart : ∀ x n, ¬ P x → u.get? x = some n → n.Avoids P

/-- To begin with, the nodes that are to stay and the others are not tied to each other. -/
theorem Consistent.aside (ht : t.Consistent) (hhere : ∀ x, P x → t.contains x = true)
    (hties : ∀ x y, t.Under x y → (P x ↔ P y)) : t.Aside P t := by
  refine ⟨hhere, fun _ _ => rfl, fun x n hx hn => ⟨fun p hp hP => hx ?_, fun c hc hP => hx ?_⟩⟩
  · refine (hties x p ?_).mpr hP
    rwa [Under, parent?, hn]
  · refine (hties c x (ht.listed x c ?_)).mp hP
    rwa [children, hn]

/-- All nodes that are there. -/
theorem Consistent.aside_contains (ht : t.Consistent) : t.Aside (t.contains · = true) t :=
  ht.aside (fun _ hx => hx) fun _ _ hxy =>
    iff_of_true (contains_of_parent? hxy) (ht.contains_parent hxy)

/-- The nodes that stand in the tree. -/
theorem Consistent.aside_attached (ht : t.Consistent) (hroot : t.kind? rootId = some .root) :
    t.Aside t.Attached t :=
  ht.aside (fun _ hx => Option.isSome_iff_exists.mpr (hx.exists_get? hroot)) fun _ _ hxy =>
    ⟨fun hx => hx.parent ht hroot hxy, fun hy => .head hxy hy⟩

/-- Among the nodes with `P`, only a root has no parent. -/
def TopsAreRoots (P : NodeId → Prop) (t : Tree) : Prop :=
  ∀ x, P x → t.parent? x = none → t.kind? x = some .root

/-- Only the root is attached and has no parent. -/
theorem topsAreRoots_attached (hroot : t.kind? rootId = some .root) :
    t.TopsAreRoots t.Attached := by
  intro x hx hparent
  rcases Relation.ReflTransGen.cases_head hx with rfl | ⟨p, hp, -⟩
  · exact hroot
  · rw [Under, hparent] at hp
    cases hp

namespace Aside

/-- When the condition is to be there, no node has changed. -/
theorem intact (h : t.Aside (t.contains · = true) u) : t.Intact u :=
  h.kept

/-! ### Looking around -/

theorem index_lt (h : t.Aside P u) (hx : P x) : x.index < u.nodes.size := by
  obtain ⟨n, hn⟩ := Option.isSome_iff_exists.mp (h.here x hx)
  exact index_lt_of_get? ((h.kept x hx).trans hn)

/-- A node is never under one that is to be left alone, unless it is one itself. -/
theorem parent (h : t.Aside P u) (hx : ¬ P x) (hy : u.parent? x = some y) : ¬ P y := by
  obtain ⟨n, hn, hup⟩ := Option.bind_eq_some_iff.mp hy
  exact (h.apart x n hx hn).parent y hup

theorem children (h : t.Aside P u) (hx : ¬ P x) (hy : y ∈ u.children x) : ¬ P y := by
  rw [Tree.children] at hy
  cases hn : u.get? x with
  | none =>
    rw [hn] at hy
    exact absurd hy List.not_mem_nil
  | some n =>
    rw [hn] at hy
    exact (h.apart x n hx hn).children y hy

/-- So no node on its line is one, -/
theorem lineage (h : t.Aside P u) (hx : ¬ P x) (hy : y ∈ u.lineage x) : ¬ P y := by
  have hup := Consistent.under_of_mem_lineageWithin hy
  clear hy
  induction hup with
  | refl => exact hx
  | tail _ hstep ih => exact h.parent ih hstep

/-- nor any node in its branch. -/
theorem shape (h : t.Aside P u) (hx : ¬ P x) (hy : y ∈ (u.shape x).toList) : ¬ P y := by
  rw [Tree.shape] at hy
  generalize u.nodes.size = fuel at hy
  induction fuel generalizing x with
  | zero =>
    rw [shapeWithin, Branch.toList, Branch.listAll, List.mem_singleton] at hy
    rwa [hy]
  | succ fuel ih =>
    rw [shapeWithin, Branch.toList, List.mem_cons] at hy
    rcases hy with rfl | hy
    · exact hx
    · obtain ⟨b, hb, hy⟩ := Branch.mem_listAll.mp hy
      obtain ⟨c, hc, rfl⟩ := List.mem_map.mp hb
      exact ih (h.children hx hc) hy

/-! ### Changes in place -/

/-- A node is changed, and not tied to one that is to stay. -/
theorem modify (h : t.Aside P u) (hx : ¬ P x) {f : Node → Node}
    (hf : ∀ n, n.Avoids P → (f n).Avoids P) : t.Aside P (u.modify x f) := by
  refine ⟨h.here, fun y hy => ?_, fun y n hy hn => ?_⟩
  · rw [get?_modify, if_neg fun heq : x = y => hx (heq ▸ hy), h.kept y hy]
  · rw [get?_modify] at hn
    split_ifs at hn
    · obtain ⟨m, hm, rfl⟩ := Option.map_eq_some_iff.mp hn
      exact hf m (h.apart y m hy hm)
    · exact h.apart y n hy hn

/-- A node is changed, but not its ties. -/
theorem modify_of (h : t.Aside P u) (hx : ¬ P x) {f : Node → Node}
    (hparent : ∀ n, (f n).parent = n.parent) (hchildren : ∀ n, (f n).children = n.children) :
    t.Aside P (u.modify x f) := by
  refine h.modify hx fun n hn => ⟨?_, ?_⟩
  · rw [hparent]
    exact hn.parent
  · rw [hchildren]
    exact hn.children

/-- Something is done for one node after the other. -/
theorem foldl (h : t.Aside P u) {ids : List NodeId} (hids : ∀ c ∈ ids, ¬ P c)
    {step : Tree → NodeId → Tree} (hstep : ∀ u c, t.Aside P u → ¬ P c → t.Aside P (step u c)) :
    t.Aside P (ids.foldl step u) := by
  induction ids generalizing u with
  | nil => exact h
  | cons c ids ih =>
    rw [List.forall_mem_cons] at hids
    exact ih (hstep u c h hids.1) hids.2

/-- Marks go up, and stay beside the nodes that are left alone. -/
theorem markDirty (h : t.Aside P u) (hx : ¬ P x) : t.Aside P (u.markDirty x) := by
  rw [Tree.markDirty]
  split_ifs
  · refine h.foldl (fun _ hy => h.lineage hx hy) fun v c hv hc => ?_
    exact hv.modify_of hc (fun _ => rfl) fun _ => rfl
  · exact h

theorem markTreeDirty (h : t.Aside P u) (hx : ¬ P x) : t.Aside P (u.markTreeDirty x) := by
  refine h.foldl (fun _ hy => h.shape hx hy) fun v c hv hc => ?_
  exact hv.modify_of hc (fun _ => rfl) fun _ => rfl

theorem setBefore (h : t.Aside P u) (before : Option String) (hx : ¬ P x) :
    t.Aside P (u.setBefore before x) :=
  h.modify_of hx (fun _ => rfl) fun _ => rfl

theorem setContent (h : t.Aside P u) (hx : ¬ P x) (old new : Content) :
    t.Aside P (u.setContent x old new) := by
  rw [Tree.setContent]
  split_ifs
  · exact h
  · refine Aside.markDirty ?_ hx
    exact h.modify_of hx (fun _ => rfl) fun _ => rfl

theorem cleanRaws (h : t.Aside P u) (hx : ¬ P x) (keepBetween : Bool) :
    t.Aside P (u.cleanRaws x keepBetween) := by
  refine h.foldl (fun _ hy => h.shape hx hy) fun v c hv hc => ?_
  refine Aside.markDirty ?_ hc
  exact hv.modify_of hc (fun _ => rfl) fun _ => rfl

/-! ### Into lists and out of lists -/

variable {parent : NodeId} {ids : List NodeId}

theorem settleOne (h : t.Aside P u) (hparent : ¬ P parent) (parentIsRoot : Bool)
    (sampleBefore : Option String) (hx : ¬ P x) :
    t.Aside P (Tree.settleOne parent parentIsRoot sampleBefore u x) := by
  refine (h.markTreeDirty hx).modify hx fun n hn => ⟨?_, hn.children⟩
  rintro p ⟨⟩
  exact hparent

theorem settleAtTop (h : t.Aside P u) (parent : NodeId) {sample : NodeId} (hsample : ¬ P sample)
    (inFront : Bool) (hids : ∀ c ∈ ids, ¬ P c) (sampleBefore : Option String) :
    t.Aside P (u.settleAtTop parent sample inFront ids sampleBefore) := by
  rw [Tree.settleAtTop]
  split_ifs
  · exact h.setBefore _ hsample
  · exact h
  · exact h.foldl hids fun v c hv hc => hv.setBefore sampleBefore hc

/-- The front of a sample may change, so the sample must be none of them. -/
theorem settle (h : t.Aside P u) (hparent : ¬ P parent) {sample : Option NodeId}
    (hsample : ∀ s ∈ sample, ¬ P s) (inFront : Bool) (hids : ∀ c ∈ ids, ¬ P c) :
    t.Aside P (u.settle parent sample inFront ids) := by
  have hsettled := h.foldl hids fun v c hv hc =>
    hv.settleOne hparent (u.isRoot parent) (sample.bind u.before?) hc
  cases sample with
  | none => exact hsettled
  | some s =>
    unfold Tree.settle
    dsimp only
    split_ifs
    · exact hsettled.settleAtTop parent (hsample s rfl) inFront hids _
    · exact hsettled

/-- A list is changed, and no node that is to stay comes in. -/
theorem relist (h : t.Aside P u) (hparent : ¬ P parent) {f : List NodeId → List NodeId}
    (hf : ∀ list, ∀ c ∈ f list, c ∈ list ∨ ¬ P c) (move : Int → Int) :
    t.Aside P (u.relist parent f move) := by
  refine Aside.markDirty ?_ hparent
  refine h.modify hparent fun n hn => ⟨hn.parent, fun c hc => ?_⟩
  exact (hf n.children c hc).elim (hn.children c) id

theorem splice (h : t.Aside P u) (hparent : ¬ P parent) (place : Nat) (hids : ∀ c ∈ ids, ¬ P c)
    (move : Int → Int) : t.Aside P (u.splice parent place ids move) := by
  refine h.relist hparent (fun list c hc => ?_) move
  rw [List.mem_append, List.mem_append] at hc
  rcases hc with (hc | hc) | hc
  · exact Or.inl (List.mem_of_mem_take hc)
  · exact Or.inr (hids c hc)
  · exact Or.inl (List.mem_of_mem_drop hc)

theorem insertLast (h : t.Aside P u) (hparent : ¬ P parent) (hids : ∀ c ∈ ids, ¬ P c) :
    t.Aside P (u.insertLast parent ids) := by
  have hsample : ∀ s ∈ u.last? parent, ¬ P s :=
    fun _ hs => h.children hparent (List.mem_of_getLast? hs)
  exact (h.settle hparent hsample _ hids).splice hparent _ hids _

theorem insertFirst (h : t.Aside P u) (hparent : ¬ P parent) (hids : ∀ c ∈ ids, ¬ P c) :
    t.Aside P (u.insertFirst parent ids) := by
  have hsample : ∀ s ∈ u.first? parent, ¬ P s :=
    fun _ hs => h.children hparent (List.mem_of_head? hs)
  exact (h.settle hparent hsample _ hids).splice hparent _ hids _

theorem insertInFront (h : t.Aside P u) (hparent : ¬ P parent) (hx : ¬ P x) (i : Nat)
    (hids : ∀ c ∈ ids, ¬ P c) : t.Aside P (u.insertInFront parent x i ids) := by
  refine (h.settle hparent ?_ _ hids).splice hparent _ hids _
  rintro s ⟨⟩
  exact hx

theorem insertBehind (h : t.Aside P u) (hparent : ¬ P parent) (hx : ¬ P x) (i : Nat)
    (hids : ∀ c ∈ ids, ¬ P c) : t.Aside P (u.insertBehind parent x i ids) := by
  refine (h.settle hparent ?_ _ hids).splice hparent _ hids _
  rintro s ⟨⟩
  exact hx

theorem detach (h : t.Aside P u) (hx : ¬ P x) : t.Aside P (u.detach x) :=
  h.modify hx fun _ hn => ⟨nofun, hn.children⟩

/-- The second child may get another front, so it has to be none of them either. -/
theorem removeAt (h : t.Aside P u) (hparent : ¬ P parent) {child : NodeId} {i : Nat}
    (hindex : u.indexIn? parent child = some i) : t.Aside P (u.removeAt parent child i) := by
  have hchild := h.children hparent (List.mem_of_getElem? (getElem?_of_indexIn? hindex))
  have hover : t.Aside P (u.handOverBefore parent child i) := by
    rw [handOverBefore]
    split_ifs
    · split
      · rename_i second hsecond
        exact h.setBefore _ (h.children hparent (List.mem_of_getElem? hsecond))
      · exact h
    · exact h
  refine (hover.detach hchild).relist hparent (fun list c hc => Or.inl ?_) _
  exact List.mem_of_mem_eraseIdx hc

theorem removeChildren (h : t.Aside P u) (hparent : ¬ P parent) :
    t.Aside P (u.removeChildren parent) := by
  refine Aside.relist ?_ hparent (fun _ c hc => absurd hc List.not_mem_nil) _
  exact h.foldl (fun _ hc => h.children hparent hc) fun v c hv hc => hv.detach hc

end Aside

/-! ### New nodes -/

mutual

/-- The nodes of a branch are tied to each other only. -/
theorem avoids_layout {base : Nat} (hP : ∀ x, base ≤ x.index → ¬ P x) :
    ∀ (b : Draft) {first : Nat} {parent : Option NodeId}, base ≤ first → (∀ p ∈ parent, ¬ P p) →
      ∀ n ∈ layout first parent b, n.Avoids P
  | .node d kids, first, parent, hfirst, hparent => by
    intro n hn
    rw [layout, List.mem_cons] at hn
    rcases hn with rfl | hn
    · refine ⟨hparent, fun c hc => hP c ?_⟩
      have := (bounds_of_mem_numbers hc).1
      omega
    · refine avoids_layoutAll hP kids (Nat.le_succ_of_le hfirst) ?_ n hn
      rintro p ⟨⟩
      exact hP ⟨first⟩ hfirst

/-- New nodes are none of those that are left alone. -/
theorem avoids_layoutAll {base : Nat} (hP : ∀ x, base ≤ x.index → ¬ P x) :
    ∀ (bs : List Draft) {first : Nat} {parent : Option NodeId}, base ≤ first →
      (∀ p ∈ parent, ¬ P p) → ∀ n ∈ layoutAll first parent bs, n.Avoids P
  | [], first, parent, _, _ => by
    intro n hn
    rw [layoutAll] at hn
    exact absurd hn List.not_mem_nil
  | b :: bs, first, parent, hfirst, hparent => by
    intro n hn
    rw [layoutAll, List.mem_append] at hn
    rcases hn with hn | hn
    · exact avoids_layout hP b hfirst hparent n hn
    · exact avoids_layoutAll hP bs (Nat.le_add_right_of_le hfirst) hparent n hn

end

namespace Aside

/-- A draft is laid out beside them. -/
theorem graft (h : t.Aside P u) (b : Draft) : t.Aside P (u.graft b).2 ∧ ¬ P (u.graft b).1 := by
  have hnew : ∀ x, u.nodes.size ≤ x.index → ¬ P x :=
    fun x hx hP => Nat.not_lt_of_le hx (h.index_lt hP)
  have htop : ∀ p ∈ (none : Option NodeId), ¬ P p := by rintro p ⟨⟩
  refine ⟨⟨h.here, fun x hx => ?_, fun x n hx hn => ?_⟩, hnew _ (Nat.le_refl _)⟩
  · rw [get?_graft_of_lt b (h.index_lt hx), h.kept x hx]
  · rcases mem_layout_of_get?_graft hn with hn | hn
    · exact h.apart x n hx hn
    · exact avoids_layout hnew b (Nat.le_refl _) htop n hn

theorem graftAll (h : t.Aside P u) (bs : List Draft) :
    t.Aside P (u.graftAll bs).2 ∧ ∀ c ∈ (u.graftAll bs).1, ¬ P c := by
  induction bs generalizing u with
  | nil => exact ⟨h, nofun⟩
  | cons b bs ih =>
    obtain ⟨hgraft, hnew⟩ := h.graft b
    obtain ⟨hrest, hnews⟩ := ih hgraft
    exact ⟨hrest, List.forall_mem_cons.mpr ⟨hnew, hnews⟩⟩

end Aside

/-! ### The printed text -/

/-- The text depends on the nodes that stand in the tree. -/
theorem Aside.print_eq (h : t.Aside t.Attached u) (ht : t.Consistent)
    (hroot : t.kind? rootId = some .root) : u.print = t.print :=
  print_eq_of_face ht hroot fun x hx => congrArg (Option.map Node.face) (h.kept x hx)

/-- No new node stands in the tree. -/
theorem Intact.print_eq (h : t.Intact u) (ht : t.Consistent)
    (hroot : t.kind? rootId = some .root) : u.print = t.print := by
  refine print_eq_of_face ht hroot fun x hx => h.face ?_
  exact Option.isSome_iff_exists.mpr (hx.exists_get? hroot)

end Tree

end Stylesheet
