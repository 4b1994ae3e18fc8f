import Stylesheet.Proofs.Edit.Lists
import Stylesheet.Proofs.Edit.Moves
import Stylesheet.Proofs.Tree.Reload

/-!
# Marks through edits

A run skips nodes that count as visited, with all that is below them. So a node that an edit has
changed must be marked, and so must all nodes above it. A mark stops at a node that is marked
already, which is right as long as all nodes above this one are marked: `Tree.MarkedUp`, which every
edit keeps (`Tree.Edited.kempt`).

What an edit does to a node is one of four things (`Edit.Touches`), and for each of them the node is
marked, with all that is above it (`Tree.Edited.marks_reach_root`).
-/

namespace Stylesheet

namespace Tree

variable {t u v : Tree} {x y : NodeId} {bound : NodeId → Nat}

/-! ### Marks from below -/

/-- No node above an attached node that is marked counts as visited. -/
def MarkedUp (t : Tree) : Prop :=
  ∀ x, t.Attached x → t.isClean x = false →
    ∀ y, Relation.ReflTransGen t.Under x y → t.isClean y = false

/-- What passes from children to attached nodes holds of all nodes above an attached one. -/
theorem Attached.climb (ht : t.Consistent) (hroot : t.kind? rootId = some .root)
    {P : NodeId → Prop} (hx : t.Attached x) (hbase : P x)
    (hstep : ∀ p, t.Attached p → ∀ c ∈ t.children p, P c → P p) :
    ∀ y, Relation.ReflTransGen t.Under x y → P y := by
  intro y hup
  -- The induction is on the way up; that the nodes on it are attached is carried along.
  suffices h : t.Attached y ∧ P y from h.2
  induction hup with
  | refl => exact ⟨hx, hbase⟩
  | tail _ hunder ih =>
    have hp := ih.1.parent ht hroot hunder
    exact ⟨hp, hstep _ hp _ (ht.mem_children_iff.mpr hunder) ih.2⟩

/-- It is enough to look at nodes and their children. -/
theorem markedUp_iff (ht : t.Consistent) (hroot : t.kind? rootId = some .root) :
    t.MarkedUp ↔
      ∀ p, t.Attached p → t.isClean p = true → ∀ c ∈ t.children p, t.isClean c = true := by
  constructor
  · intro h p hp hclean c hc
    by_contra hdirty
    have hmarked := h c (hp.child ht hc) (Bool.eq_false_iff.mpr hdirty) p
      (.single (ht.listed p c hc))
    rw [hmarked] at hclean
    cases hclean
  · intro h x hx hdirty
    -- Upwards along the lineage, one parent at a time.
    refine hx.climb ht hroot hdirty fun p hp c hc hmarked => ?_
    refine Bool.eq_false_iff.mpr fun hclean => ?_
    rw [h p hp hclean c hc] at hmarked
    cases hmarked

/-- Nodes that are new are all marked. -/
theorem markedUp_of_untouched (h : ∀ x n, t.get? x = some n → Untouched n) : t.MarkedUp := by
  intro _ _ _ y _
  refine Bool.eq_false_iff.mpr fun hclean => ?_
  obtain ⟨n, hn, hvisited⟩ := isClean_iff.mp hclean
  rw [(h y n hn).clean] at hvisited
  cases hvisited

/-- A node that still counts as visited has the children that it had, and they still do so as
well. -/
theorem MarkedUp.later (h : t.MarkedUp) (ht : t.Consistent) (hroot : t.kind? rootId = some .root)
    (hlater : t.Later bound u) (hu : u.Consistent) : u.MarkedUp := by
  rw [markedUp_iff ht hroot] at h
  rw [markedUp_iff hu (LaterBut.kind hlater _ _ hroot)]
  intro p hp hclean c hc
  -- A list that has changed belongs to a node that is marked, so this one is still the old list.
  have hkept := hlater.kept hclean
  rw [hkept.children] at hc
  exact hkept.marks c hc (h p (hkept.attached hp) hkept.clean c hc)

/-- The node counts as changed, and so do all nodes above it, wherever it was or is attached. -/
structure Noted (t u : Tree) (x : NodeId) : Prop where
  self : u.isClean x = false
  before : t.Attached x → ∀ y, Relation.ReflTransGen t.Under x y → u.isClean y = false
  after : u.Attached x → ∀ y, Relation.ReflTransGen u.Under x y → u.isClean y = false

/-- When an edit leaves a node marked, the marks reach the root from it. -/
theorem MarkedUp.noted (h : t.MarkedUp) (ht : t.Consistent) (hroot : t.kind? rootId = some .root)
    (hlater : t.Later bound u) (hu : u.Consistent) (hx : u.isClean x = false) :
    t.Noted u x where
  self := hx
  before := by
    rw [markedUp_iff ht hroot] at h
    intro hattached
    refine hattached.climb ht hroot hx fun p hp c hc hmarked => ?_
    refine Bool.eq_false_iff.mpr fun hclean => ?_
    have hkept := hlater.kept hclean
    rw [hkept.marks c hc (h p hp hkept.clean c hc)] at hmarked
    cases hmarked
  after := fun hattached => h.later ht hroot hlater hu x hattached hx

/-! ### Edits of fields -/

/-- Nodes that count as visited did so before, and no one changed in what it says, how it is
formatted, or where it comes from. -/
def Noticed (t u : Tree) : Prop :=
  ∀ x, u.isClean x = true → t.isClean x = true ∧ u.detail x = t.detail x

/-- Marks are no details. -/
theorem details_markDirty (t : Tree) (id : NodeId) : (t.markDirty id).detail = t.detail :=
  funext fun x => congrArg (Option.getD · default) (detail_markDirty t id x)

namespace Noticed

theorem refl (t : Tree) : t.Noticed t :=
  fun _ hx => ⟨hx, rfl⟩

/-- What is not marked in the end was not marked in between, and so changed in neither step. -/
theorem trans (h : t.Noticed u) (h' : u.Noticed v) : t.Noticed v := by
  intro x hx
  obtain ⟨hu, hsame⟩ := h' x hx
  exact ⟨(h x hu).1, hsame.trans (h x hu).2⟩

theorem markDirty (t : Tree) (id : NodeId) : t.Noticed (t.markDirty id) :=
  fun x hx => ⟨(isClean_markDirty_iff.mp hx).1, congrFun (details_markDirty t id) x⟩

/-- A node is marked, and its details are changed before or behind that. -/
theorem of_detail (id : NodeId) (hclean : ∀ x, u.isClean x = true → t.isClean x = true ∧ x ≠ id)
    (hdetail : ∀ x, x ≠ id → u.detail x = t.detail x) : t.Noticed u :=
  fun x hx => ⟨(hclean x hx).1, hdetail x (hclean x hx).2⟩

end Noticed

/-- Other nodes keep their details. -/
theorem detail_withDetail_of_ne (t : Tree) {id : NodeId} (f : Detail → Detail) (hx : x ≠ id) :
    (t.modify id (·.withDetail f)).detail x = t.detail x := by
  rw [detail, detail, get?_modify, if_neg (Ne.symm hx)]

/-- A node is marked behind a change of its details. -/
theorem noticed_markDirty (t : Tree) (id : NodeId) (f : Detail → Detail) :
    t.Noticed ((t.modify id (·.withDetail f)).markDirty id) := by
  have hsame := isClean_modify (f := (·.withDetail f)) (fun _ => rfl) t id
  refine .of_detail id (fun x hx => ⟨?_, ?_⟩) fun x hx => ?_
  · rw [← hsame]
    exact (isClean_markDirty_iff.mp hx).1
  · rintro rfl
    exact not_isClean_markDirty _ _ hx
  · rw [details_markDirty, detail_withDetail_of_ne t f hx]

/-- A node is marked in front of a change of its details. -/
theorem noticed_withDetail (t : Tree) (id : NodeId) (f : Detail → Detail) :
    t.Noticed ((t.markDirty id).modify id (·.withDetail f)) := by
  have hsame := isClean_modify (f := (·.withDetail f)) (fun _ => rfl) (t.markDirty id) id
  refine .of_detail id (fun x hx => ?_) fun x hx => ?_
  · rw [hsame] at hx
    refine ⟨(isClean_markDirty_iff.mp hx).1, ?_⟩
    rintro rfl
    exact not_isClean_markDirty _ _ hx
  · rw [detail_withDetail_of_ne _ f hx, details_markDirty]

/-- A node whose contents are set is marked unless they are what they were. -/
theorem noticed_setContent (t : Tree) (id : NodeId) (old new : Content) :
    t.Noticed (t.setContent id old new) := by
  rw [setContent]
  split_ifs
  · exact .refl t
  · exact noticed_markDirty t id fun d => { d with content := new }

/-- All nodes that lose their formatting are marked. -/
theorem noticed_cleanRaws (keepBetween : Bool) (ids : List NodeId) (t : Tree) :
    let u := ids.foldl
      (fun t id => (t.modify id (·.withRaws (bare keepBetween))).markDirty id) t
    t.Noticed u ∧ ∀ x ∈ ids, u.isClean x = false := by
  induction ids generalizing t with
  | nil => exact ⟨.refl t, nofun⟩
  | cons id ids ih =>
    obtain ⟨hrest, hmarked⟩ := ih ((t.modify id (·.withRaws (bare keepBetween))).markDirty id)
    have hfirst := noticed_markDirty t id fun d => { d with raws := bare keepBetween d.raws }
    refine ⟨hfirst.trans hrest, List.forall_mem_cons.mpr ⟨?_, hmarked⟩⟩
    exact Bool.eq_false_iff.mpr fun hclean => not_isClean_markDirty _ _ (hrest id hclean).1

/-- The parts of a selector in one text, divided as the selector is that the rule has. -/
def joined? (t : Tree) (id : NodeId) (parts : List String) : Option String := do
  let n ← t.get? id
  let selector ← n.content.selector?
  return (t.selectorSeparator id n selector).intercalate parts

end Tree

namespace Editing

open Stylesheet.Tree

variable {t : Tree}

/-- All setters notice what they change. -/
theorem noticed_update (t : Tree) (id : NodeId) (expected : NodeKind) (f : Content → Content) :
    Ends (update id expected f) t t.Noticed fun _ u => t.Noticed u :=
  Keeps.update (P := t.Noticed) (fun u _ h _ => h.trans (noticed_setContent u id _ _)) expected t
    (.refl t)

theorem noticed_setSelectors (t : Tree) (id : NodeId) (values : List String) :
    Ends (setSelectors id values) t t.Noticed fun _ u => t.Noticed u :=
  Keeps.setSelectors (P := t.Noticed) (fun u _ _ h _ => h.trans (noticed_setContent u id _ _))
    values t (.refl t)

/-- The node is marked in any case. -/
theorem noticed_touch (t : Tree) (id : NodeId) (f : Detail → Detail) :
    Ends (touch id f) t t.Noticed fun _ u => t.Noticed u ∧ u.isClean id = false := by
  rw [touch]
  refine .bind (R := fun _ u => t = u) (.node id (.refl t) fun _ _ => rfl) ?_
  rintro n _ rfl
  refine .change ⟨noticed_withDetail t id f, Bool.eq_false_iff.mpr ?_⟩
  rw [isClean_modify (f := (·.withDetail f)) fun _ => rfl]
  exact not_isClean_markDirty t id

/-- All nodes from the given one down are marked. -/
theorem ends_cleanRaws (t : Tree) (id : NodeId) (keepBetween : Bool) :
    Ends (cleanRaws id keepBetween) t t.Noticed fun _ u =>
      t.Noticed u ∧ ∀ x ∈ (t.shape id).toList, u.isClean x = false := by
  rw [cleanRaws]
  refine .bind (R := fun _ u => t = u) (.node id (.refl t) fun _ _ => rfl) ?_
  rintro n _ rfl
  exact .change (noticed_cleanRaws keepBetween (t.shape id).toList t)

/-- What a node says after its contents were changed. -/
theorem ends_update (t : Tree) (id : NodeId) (expected : NodeKind) (f : Content → Content) :
    Ends (update id expected f) t (fun _ => True) fun _ u =>
      ∃ n, t.get? id = some n ∧ n.kind = expected ∧ (u.detail id).content = f n.content := by
  rw [update]
  refine .bind (R := fun n u => t = u ∧ t.get? id = some n) (.node id trivial fun _ hn => ⟨rfl, hn⟩)
    ?_
  rintro n _ ⟨rfl, hn⟩
  -- A node of another kind is refused; what remains reads the content off the new tree.
  split_ifs with hkind
  · exact .bind (R := fun _ _ => False) (.throw _ trivial) fun _ _ h => h.elim
  · refine .change ⟨n, hn, not_not.mp hkind, ?_⟩
    have hdetail := map_detail_setContent hn (f n.content) id
    rw [if_pos rfl] at hdetail
    rw [Tree.detail, hdetail]
    rfl

/-- What holds of all that a setter makes of contents of its kind holds of what the node says. -/
theorem ends_update_content {P : Content → Prop} {expected : NodeKind} {f : Content → Content}
    (hf : ∀ c : Content, c.kind = expected → P (f c)) (t : Tree) (id : NodeId) :
    Ends (update id expected f) t (fun _ => True) fun _ u => P (u.detail id).content := by
  refine (ends_update t id expected f).mono (fun _ h => h) ?_
  rintro _ u ⟨n, -, hkind, hcontent⟩
  rw [hcontent]
  exact hf n.content hkind

/-- The rule has the new selector. -/
theorem ends_setSelector (t : Tree) (id : NodeId) (new : String) :
    Ends (setSelector id new) t (fun _ => True) fun _ u =>
      (u.detail id).content.selector? = some new := by
  refine ends_update_content (P := (·.selector? = some new)) (fun c hc => ?_) t id
  cases c <;> first | rfl | cases hc

/-- The rule has the parts, joined, as its selector. -/
theorem ends_setSelectors (t : Tree) (id : NodeId) (parts : List String) :
    Ends (setSelectors id parts) t (fun _ => True) fun _ u =>
      (u.detail id).content.selector? = t.joined? id parts := by
  rw [setSelectors]
  refine .bind (R := fun n u => t = u ∧ t.get? id = some n)
    (.node id trivial fun _ hn => ⟨rfl, hn⟩) ?_
  rintro n _ ⟨rfl, hn⟩
  split
  · exact .throw _ trivial
  · rename_i selector hold
    refine .bind (R := fun v u => t = u ∧ t = v) (.tree ⟨rfl, rfl⟩) ?_
    rintro _ _ ⟨rfl, rfl⟩
    rw [joined?, hn, Option.bind_eq_bind, Option.bind_some, hold]
    -- The list is joined first, so it ends as the setter for one text does.
    exact ends_setSelector t id _

end Editing

namespace Edit

open Stylesheet.Tree Editing

/-- The edit changes what nodes say or how they are formatted, and no list. -/
def editsFields : Edit → Bool
  | setProp _ _ | setValue _ _ | setImportant _ _ | setSelector _ _ | setSelectors _ _ | setName _ _
  | setParams _ _ | setText _ _ | cleanRaws _ _ | setRaws _ _ | dropSource _ | markDirty _ => true
  | _ => false

/-- The node that a setter is called for. -/
def setterOf? : Edit → Option NodeId
  | setProp id _ | setValue id _ | setImportant id _ | setSelector id _ | setSelectors id _
  | setName id _ | setParams id _ | setText id _ => some id
  | _ => none

/-- The contents have the value that a setter is called with. -/
def Agrees (e : Edit) (t : Tree) (c : Content) : Prop :=
  match e with
  | setProp _ new => c.prop? = some new
  | setValue _ new => c.value? = some new
  | setImportant _ new => c.isImportant = new
  | setSelector _ new => c.selector? = some new
  | setSelectors id parts => c.selector? = t.joined? id parts
  | setName _ new => c.name? = some new
  | setParams _ new => c.params? = some new
  | setText _ new => c.text? = some new
  | _ => True

/-- A setter that does not fail leaves its value behind. -/
theorem ends_setter (t : Tree) {e : Edit} {id : NodeId} (he : e.setterOf? = some id) :
    Ends e.perform t (fun _ => True) fun _ u => e.Agrees t (u.detail id).content := by
  cases e with
  | setSelector _ new =>
    cases he
    exact (ends_setSelector t id new).andReturn fun _ _ h => h
  | setSelectors _ parts =>
    cases he
    exact (ends_setSelectors t id parts).andReturn fun _ _ h => h
  | setProp | setValue | setImportant | setName | setParams | setText =>
    -- Contents of the kind that is asked for have the field, and no others are set.
    cases he
    refine (ends_update_content (P := Agrees _ t) (fun c hc => ?_) t id).andReturn fun _ _ h => h
    cases c <;> first | rfl | cases hc
  | _ => cases he

/-- The edit gives access to the node, which may or may not change it. -/
def Accesses (e : Edit) (t : Tree) (x : NodeId) : Prop :=
  match e with
  | cleanRaws id _ => Relation.ReflTransGen t.Under x id
  | setRaws id _ | dropSource id | markDirty id => x = id
  | _ => False

/-- An edit of fields marks what it changes, and what it gives access to in any case. -/
theorem ends_editsFields {t : Tree} (ht : t.Consistent) {e : Edit} (he : e.editsFields = true) :
    Ends e.perform t t.Noticed fun _ u =>
      t.Noticed u ∧ ∀ x, e.Accesses t x → u.isClean x = false := by
  -- A setter may find its value there already, and then it marks nothing.
  have hset : ∀ (id : NodeId) expected f, Ends (silently (update id expected f)) t t.Noticed
      fun _ u => t.Noticed u ∧ ∀ x : NodeId, False → u.isClean x = false :=
    fun id expected f => (noticed_update t id expected f).andReturn fun _ u h => ⟨h, nofun⟩
  -- Access is given to a node for whatever is done with it, so the node is marked first.
  have htouch : ∀ id f, Ends (silently (touch id f)) t t.Noticed
      fun _ u => t.Noticed u ∧ ∀ x, x = id → u.isClean x = false :=
    fun id f => (noticed_touch t id f).andReturn fun _ u h => ⟨h.1, fun x hx => hx ▸ h.2⟩
  cases e with
  | setProp id new | setValue id new | setImportant id new | setSelector id new | setName id new
  | setParams id new | setText id new => exact hset id _ _
  | setSelectors id values =>
    exact (noticed_setSelectors t id values).andReturn fun _ u h => ⟨h, nofun⟩
  | cleanRaws id keepBetween =>
    exact (Editing.ends_cleanRaws t id keepBetween).andReturn fun _ u h =>
      ⟨h.1, fun x hx => h.2 x (ht.mem_shape_iff.mpr hx)⟩
  | setRaws id raws => exact htouch id _
  | dropSource id => exact htouch id _
  | markDirty id =>
    refine .andReturn (R := fun _ u => u = t.markDirty id) (.change rfl) ?_
    rintro _ _ rfl
    refine ⟨.markDirty t id, ?_⟩
    rintro _ rfl
    exact Bool.eq_false_iff.mpr (not_isClean_markDirty t _)
  | _ => cases he

/-- A move takes the node out of its list first. -/
theorem exists_out {d : Desk} (hd : d.tree.Consistent) {e : Edit} {id : NodeId}
    (hmoved : e.moved? = some id) :
    ∃ v, v.Consistent ∧ d.tree.Out v id ∧ v.Changes (e.run d).2.tree := by
  obtain ⟨target, he⟩ : ∃ target, e ∈ [moveTo id target, moveBefore id target,
      moveAfter id target] := by
    cases e with
    | moveTo _ target => cases hmoved; exact ⟨target, by simp⟩
    | moveBefore _ target => cases hmoved; exact ⟨target, by simp⟩
    | moveAfter _ target => cases hmoved; exact ⟨target, by simp⟩
    | _ => cases hmoved
  obtain ⟨ins, hins, -, hperform⟩ := exists_seating he
  have hnode : ins.Sound ∧ ins.listsNodes = false := by
    simp only [List.mem_cons, List.not_mem_nil, or_false] at hins
    rcases hins with rfl | rfl | rfl | rfl <;> exact ⟨by rintro _ ⟨⟩; trivial, rfl⟩
  have hends : Ends e.perform d.tree (fun u => ∃ v, v.Consistent ∧ d.tree.Out v id ∧ v.Changes u)
      fun _ u => ∃ v, v.Consistent ∧ d.tree.Out v id ∧ v.Changes u := by
    rw [hperform, silently]
    refine .andReturn (R := fun _ u => ∃ v, v.Consistent ∧ d.tree.Out v id ∧ v.Changes u)
      (.bind ((ends_out hd id).mono ?_ fun _ _ h => h) ?_) fun _ _ h => h
    · -- The node is unknown, and it is in no list.
      rintro _ ⟨rfl, hid⟩
      exact ⟨d.tree, hd, out_of_not_contains hd hid, .refl⟩
    · rintro _ v ⟨-, hv, hout⟩
      have hyields : Yields Never ins.perform v fun _ _ => True := fun w =>
        (yields_perform hv hnode.1 w).imp_left fun h => by rw [Breaks, hnode.2] at h; cases h.1
      exact ((Ends.of_yields hyields).mono (fun u h => ⟨v, hv, hout, h⟩)
        fun _ u h => ⟨v, hv, hout, h.1⟩).andReturn fun _ _ h => h
  exact hends.atEnd d.workspace

/-- What an edit does to a node: it sets a field that had another value, it changes its fields in
another way or gives access to them, it changes its list, or it puts it into a list, itself or with
a node above it. -/
inductive Touches (e : Edit) (t u : Tree) (x : NodeId) : Prop
  | setter (he : e.setterOf? = some x) (h : ¬ e.Agrees t (t.detail x).content)
  | fields (he : e.editsFields = true) (h : u.detail x ≠ t.detail x)
  | access (h : e.Accesses t x)
  | list (h : u.children x ≠ t.children x)
  | entered {p c : NodeId} (h : e.Enters t u p c) (hx : Relation.ReflTransGen u.Under x c)

/-- A node that a setter gives a new value is not what it was. -/
theorem detail_ne_of_setter {d : Desk} {e : Edit} {x : NodeId} (he : e.setterOf? = some x)
    (hnew : ¬ e.Agrees d.tree (d.tree.detail x).content) {ids : List NodeId}
    (hok : (e.run d).1 = .ok ids) : (e.run d).2.tree.detail x ≠ d.tree.detail x := by
  intro hsame
  have hagrees := (ends_setter d.tree he).of_ok hok
  rw [← run, hsame] at hagrees
  exact hnew hagrees

/-- What an edit does to a node is seen by its mark. -/
theorem not_isClean_of_touches {d : Desk} (hd : d.tree.Consistent) {e : Edit} (he : e.Sound)
    (hdistinct : e.Distinct d.tree (e.run d).2.tree) {ids : List NodeId}
    (hok : (e.run d).1 = .ok ids) {x : NodeId} (h : e.Touches d.tree (e.run d).2.tree x) :
    (e.run d).2.tree.isClean x = false := by
  have hchanges := changes_of_distinct hd he hdistinct
  have hlater : d.tree.Later (fun _ => 0) _ := Changes.later hd hchanges
  have hu := hchanges.consistent hd
  have hchanged : e.editsFields = true → (e.run d).2.tree.detail x ≠ d.tree.detail x →
      (e.run d).2.tree.isClean x = false := fun hfields hdetail =>
    Bool.eq_false_iff.mpr fun hclean =>
      hdetail (((ends_editsFields hd hfields).of_ok hok).1 x hclean).2
  cases h with
  | setter hsetter hnew =>
    refine hchanged ?_ (detail_ne_of_setter hsetter hnew hok)
    cases e <;> first | rfl | cases hsetter
  | fields hfields hdetail => exact hchanged hfields hdetail
  | access h =>
    have hfields : e.editsFields = true := by
      cases e <;> first | exact h.elim | rfl
    exact ((ends_editsFields hd hfields).of_ok hok).2 x h
  | list hlist =>
    exact Bool.eq_false_iff.mpr fun hclean => hlist (hlater.kept hclean).children
  | @entered p c h hup =>
    refine Bool.eq_false_iff.mpr fun hclean => ?_
    have hunder := hu.listed p c h.1
    rcases h.2 with hnew | hmoved
    · -- The link to the list would have been there before.
      exact hnew (hd.mem_children_iff.mpr ((hlater.kept hclean).line c p hup hunder))
    · -- It would have been there while the node was out.
      obtain ⟨v, hv, hout, hback⟩ := exists_out hd hmoved
      have hback : v.Later (fun _ => 0) _ := Changes.later hv hback
      have hlink := (hback.kept hclean).line c p hup hunder
      rw [Under, hout.parent, if_pos rfl] at hlink
      cases hlink

end Edit

namespace Tree

open Editing

/-- A tree that is edited outside of a run: an empty one, one that was read, or one that a run has
left with all its nodes visited, and whatever edits make of it, also while its lists are walked
through. Lists that name a node twice are left out. -/
inductive Edited : Tree → Prop
  | empty : Edited Tree.empty
  | parse {w : Workspace} {css : String} {options : ParseOptions} {t : Tree}
    (h : (Stylesheet.parse w css options).1 = .ok t) : Edited t
  | visited {t : Tree} (ht : t.Consistent) (hroot : t.kind? rootId = some .root)
    (hclean : ∀ x, t.Attached x → t.isClean x = true) : Edited t
  | edit {d : Desk} (hd : Edited d.tree) (e : Edit) (he : e.Sound)
    (hdistinct : e.Distinct d.tree (e.run d).2.tree) : Edited (e.run d).2.tree
  | access {d : Desk} (hd : Edited d.tree) (id : NodeId) {f : Detail → Detail}
    (hcontent : ∀ d, (f d).content = d.content) (hblock : ∀ d, (f d).block = d.block) :
    Edited ((Editing.touch id f).runOn d).2.tree
  | openCursor {t u : Tree} (ht : Edited t) {parent : NodeId} {cursor : Nat}
    (h : t.openCursor parent = some (cursor, u)) : Edited u
  | advanceCursor {t : Tree} (ht : Edited t) (parent : NodeId) (cursor : Nat) :
    Edited (t.advanceCursor parent cursor)
  | closeCursor {t : Tree} (ht : Edited t) (parent : NodeId) (cursor : Nat) :
    Edited (t.closeCursor parent cursor)

namespace Edited

variable {t : Tree}

/-- What is known of a tree that is edited. -/
structure Kempt (t : Tree) : Prop where
  consistent : t.Consistent
  rooted : t.kind? rootId = some .root
  markedUp : t.MarkedUp

/-- Whatever changes a tree that is kempt leaves a kempt one. -/
theorem Kempt.changes {u : Tree} (h : Kempt t) (hchanges : t.Changes u) : Kempt u := by
  have hu := hchanges.consistent h.consistent
  have hlater : t.Later (fun _ => 0) u := Changes.later h.consistent hchanges
  exact ⟨hu, LaterBut.kind hlater _ _ h.rooted, h.markedUp.later h.consistent h.rooted hlater hu⟩

/-- Cursors do not matter. -/
theorem Kempt.alike {u : Tree} (h : Kempt t) (halike : t.Alike u) : Kempt u := by
  have hu := h.consistent.of_links_eq halike.links
  have hroot : u.kind? rootId = some .root := by
    rw [halike.kind?]
    exact h.rooted
  refine ⟨hu, hroot, (markedUp_iff hu hroot).mpr fun p hp hclean c hc => ?_⟩
  rw [halike.clean] at hclean ⊢
  rw [halike.children] at hc
  exact (markedUp_iff h.consistent h.rooted).mp h.markedUp p (halike.attached_iff.mp hp) hclean c hc

/-- The induction over how the tree came about. -/
theorem kempt (h : t.Edited) : Kempt t := by
  induction h with
  | empty =>
    refine ⟨consistent_empty, rfl, markedUp_of_untouched fun x n hn => ?_⟩
    have hmem : n ∈ Tree.empty.nodes := Array.mem_of_getElem? hn
    rw [Tree.empty, Array.mem_singleton] at hmem
    exact hmem ▸ ⟨rfl, rfl⟩
  | parse h =>
    have horderly := orderly_of_parse h
    obtain ⟨input, b, -, -, rfl⟩ := parse_eq_ok h
    exact ⟨horderly.consistent, horderly.rooted,
      markedUp_of_untouched fun x n hn => untouched_ofDraft hn⟩
  -- No attached node is marked, so there is nothing to show.
  | visited ht hroot hclean =>
    refine ⟨ht, hroot, fun x hx hdirty => ?_⟩
    rw [hclean x hx] at hdirty
    cases hdirty
  | edit hd e he hdistinct ih =>
    exact ih.changes (Edit.changes_of_distinct ih.consistent he hdistinct)
  | @access d hd id f hcontent hblock ih =>
    have hends := (Ends.of_yields (yields_touch d.tree id hcontent hblock)).mono
      (fun _ h => h) fun _ _ h => h.1
    exact ih.changes (hends.atEnd d.workspace)
  -- Cursors leave marks and links alone.
  | openCursor ht h ih => exact ih.alike (alike_openCursor h)
  | advanceCursor ht parent cursor ih => exact ih.alike (alike_advanceCursor _ parent cursor)
  | closeCursor ht parent cursor ih => exact ih.alike (alike_closeCursor _ parent cursor)

/-- **Marks reach the root.** In a tree that is edited outside of a run, all nodes above an attached
node that is marked are marked. And whatever an edit does to a node, the node is marked by it, with
all nodes above it; so is a node that is given access to. -/
theorem marks_reach_root {d : Desk} (hd : d.tree.Edited) :
    d.tree.MarkedUp ∧
      (∀ (e : Edit) (ids : List NodeId), e.Sound → e.Distinct d.tree (e.run d).2.tree →
        (e.run d).1 = .ok ids → ∀ x, e.Touches d.tree (e.run d).2.tree x →
          d.tree.Noted (e.run d).2.tree x) ∧
      ∀ (id : NodeId) (f : Detail → Detail), (∀ d, (f d).content = d.content) →
        (∀ d, (f d).block = d.block) → ((Editing.touch id f).runOn d).1 = .ok () →
          d.tree.Noted ((Editing.touch id f).runOn d).2.tree id := by
  -- Marking what an edit touches is about the edit; that the mark reaches the root is the
  -- invariant.
  have hkempt := hd.kempt
  have hnoted : ∀ u x, d.tree.Changes u → u.isClean x = false → d.tree.Noted u x :=
    fun u x hchanges => hkempt.markedUp.noted hkempt.consistent hkempt.rooted
      (Changes.later hkempt.consistent hchanges : d.tree.Later (fun _ => 0) u)
      (hchanges.consistent hkempt.consistent)
  refine ⟨hkempt.markedUp, fun e ids he hdistinct hok x htouches => ?_,
    fun id f hcontent hblock hok => ?_⟩
  · exact hnoted _ x (Edit.changes_of_distinct hkempt.consistent he hdistinct)
      (Edit.not_isClean_of_touches hkempt.consistent he hdistinct hok htouches)
  · have hyields := Ends.of_yields (yields_touch d.tree id hcontent hblock)
    exact hnoted _ id (hyields.of_ok hok).1 ((noticed_touch d.tree id f).of_ok hok).2

end Edited

/-- A stylesheet with nodes that all count as visited. -/
def visitedSheet (css : String) : Tree :=
  ((sheet css).shape rootId).toList.foldl markClean (sheet css)

/-- Marking nodes as visited keeps a tree orderly. -/
theorem orderly_visitedSheet (css : String) : (visitedSheet css).Orderly := by
  have hall : ∀ (ids : List NodeId) (t : Tree), t.Orderly → (ids.foldl markClean t).Orderly := by
    intro ids
    induction ids with
    | nil => exact fun t ht => ht
    | cons id ids ih => exact fun t ht => ih _ (ht.markClean id)
  exact hall _ _ (grown_sheet css).orderly

/-- A rule with a declaration in it is moved. The rule that it was in, the one that it is put into
and the root are marked as well, and a rule next to these is not. -/
theorem marks_movedRule :
    let d : Desk := ⟨visitedSheet "a\x7bb\x7bc:d\x7d\x7de\x7b\x7df\x7b\x7d", {}⟩
    let u := ((Edit.moveTo ⟨2⟩ ⟨4⟩).run d).2.tree
    d.tree.Edited ∧ ((Edit.moveTo ⟨2⟩ ⟨4⟩).run d).1 = .ok [] ∧
      u.lineage ⟨3⟩ = [⟨3⟩, ⟨2⟩, ⟨4⟩, rootId] ∧ (∀ y ∈ u.lineage ⟨3⟩, u.isClean y = false) ∧
        u.isClean ⟨1⟩ = false ∧ u.isClean ⟨5⟩ = true := by
  intro d u
  have horderly := orderly_visitedSheet "a\x7bb\x7bc:d\x7d\x7de\x7b\x7df\x7b\x7d"
  have hd : d.tree.Edited := by
    refine .visited horderly.consistent horderly.rooted fun x hx => ?_
    have hall : ∀ x ∈ (d.tree.shape rootId).toList, d.tree.isClean x = true := by decide +kernel
    exact hall x (horderly.consistent.mem_shape_iff.mpr hx)
  have hsound : (Edit.moveTo ⟨2⟩ ⟨4⟩).Sound := by rintro _ ⟨⟩
  have hdistinct : (Edit.moveTo ⟨2⟩ ⟨4⟩).Distinct d.tree u := by rintro _ ⟨⟩
  have hu : u.Consistent := (Edited.edit hd _ hsound hdistinct).kempt.consistent
  have hok : ((Edit.moveTo ⟨2⟩ ⟨4⟩).run d).1 = .ok [] := by decide +kernel
  have hnoted := hd.marks_reach_root.2.1 (.moveTo ⟨2⟩ ⟨4⟩) [] hsound hdistinct hok
  -- The declaration is touched because it came along with its rule.
  have hbelow : (Edit.moveTo ⟨2⟩ ⟨4⟩).Touches d.tree u ⟨3⟩ :=
    .entered (p := ⟨4⟩) (c := ⟨2⟩) ⟨by decide +kernel, Or.inr rfl⟩
      (hu.mem_shape_iff.mp (by decide +kernel))
  have hleft : (Edit.moveTo ⟨2⟩ ⟨4⟩).Touches d.tree u ⟨1⟩ := .list (by decide +kernel)
  have hattached : u.Attached ⟨3⟩ := hu.mem_shape_iff.mp (by decide +kernel)
  refine ⟨hd, hok, by decide +kernel, fun y hy => ?_, (hnoted _ hleft).self, by decide +kernel⟩
  exact (hnoted _ hbelow).after hattached y (hu.mem_lineage_iff.mp hy)

end Tree

end Stylesheet
