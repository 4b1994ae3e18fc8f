import Stylesheet.Proofs.Edit.Structure
import Stylesheet.Proofs.Tree.Orderly

/-!
# What any edit does

Every edit of a consistent tree is a sequence of allowed changes (`Edit.changes_run`), whatever its
arguments are and whether it fails or not. The exception are lists of nodes that name a node twice,
which leave a tree that is not consistent.

`Tree.Reached` holds of the trees that can come up: the empty one, stylesheets that were read, and
whatever edits make of them, with any arguments and whether they fail or not. All of them are
consistent, with a root and with cursors in order (`Tree.Reached.orderly`).
-/

namespace Stylesheet

/-! ### Fields -/

namespace Content

/-- Setting a field keeps the kind. So do all the setters below. -/
@[simp] theorem kind_withProp (new : String) (c : Content) : (c.withProp new).kind = c.kind := by
  cases c <;> rfl

@[simp] theorem kind_withValue (new : String) (c : Content) : (c.withValue new).kind = c.kind := by
  cases c <;> rfl

@[simp] theorem kind_withImportant (new : Bool) (c : Content) :
    (c.withImportant new).kind = c.kind := by
  cases c <;> rfl

@[simp] theorem kind_withSelector (new : String) (c : Content) :
    (c.withSelector new).kind = c.kind := by
  cases c <;> rfl

@[simp] theorem kind_withName (new : String) (c : Content) : (c.withName new).kind = c.kind := by
  cases c <;> rfl

@[simp] theorem kind_withParams (new : String) (c : Content) :
    (c.withParams new).kind = c.kind := by
  cases c <;> rfl

@[simp] theorem kind_withText (new : String) (c : Content) : (c.withText new).kind = c.kind := by
  cases c <;> rfl

end Content

namespace Editing

open Stylesheet.Tree

variable {t : Tree}

/-- All setters: what a node says changes, but not its kind. -/
theorem yields_update (t : Tree) (id : NodeId) (expected : NodeKind) {f : Content → Content}
    (hf : ∀ c, (f c).kind = c.kind) :
    Yields Never (update id expected f) t fun _ _ => True := by
  rw [update]
  refine .bind (R := fun n u => u = t ∧ t.get? id = some n) (.node id fun n hn => ⟨rfl, hn⟩) ?_
  rintro n u - ⟨rfl, hn⟩
  split_ifs
  · exact .bind (R := fun _ _ => False) (.throw _) fun _ _ _ h => h.elim
  · exact .change (.single (.setContent hn (hf n.content))) trivial

/-- The joined selector is set as any other. -/
theorem yields_setSelectors (t : Tree) (id : NodeId) (values : List String) :
    Yields Never (setSelectors id values) t fun _ _ => True := by
  rw [setSelectors]
  refine .bind (R := fun _ u => u = t) (.node id fun n hn => rfl) ?_
  rintro n u - rfl
  split
  · exact .throw _
  · refine .bind (R := fun v v' => v = u ∧ v' = u) (.tree ⟨rfl, rfl⟩) ?_
    rintro _ _ - ⟨rfl, rfl⟩
    exact yields_update _ id .rule fun c => by simp

/-- Each node in turn loses its formatting, which no link depends on. -/
theorem changes_cleanRaws (t : Tree) (id : NodeId) (keepBetween : Bool) :
    t.Changes (t.cleanRaws id keepBetween) := by
  have hfold : ∀ (ids : List NodeId) (u : Tree), u.Changes (ids.foldl
      (fun t id => (t.modify id (·.withRaws (bare keepBetween))).markDirty id) u) := by
    -- By induction on the nodes that are cleaned; each takes two steps, the new style and the mark.
    intro ids
    induction ids with
    | nil => exact fun u => .refl
    | cons id ids ih =>
      intro u
      have hstyle : u.Change (u.modify id (·.withRaws (bare keepBetween))) :=
        .restyle id (fun _ => rfl) fun _ => rfl
      exact .head hstyle (.head (.markDirty id) (ih _))
  exact hfold _ t

theorem yields_cleanRaws (t : Tree) (id : NodeId) (keepBetween : Bool) :
    Yields Never (cleanRaws id keepBetween) t fun _ _ => True := by
  rw [cleanRaws]
  refine .bind (R := fun _ u => u = t) (.node id fun n hn => rfl) ?_
  rintro n u - rfl
  exact .change (changes_cleanRaws u id keepBetween) trivial

/-- What is done to a node that one has access to must keep its kind and its block. -/
theorem yields_touch (t : Tree) (id : NodeId) {f : Detail → Detail}
    (hcontent : ∀ d, (f d).content = d.content) (hblock : ∀ d, (f d).block = d.block) :
    Yields Never (touch id f) t fun _ _ => True := by
  rw [touch]
  refine .bind (R := fun _ u => u = t) (.node id fun n hn => rfl) ?_
  rintro n u - rfl
  exact .change (.head (.markDirty id) (.single (.restyle id hcontent hblock))) trivial

end Editing

/-! ### All edits -/

namespace Edit

open Editing

/-- What the edit inserts. -/
def material? : Edit → Option Material
  | .create m | .append _ m | .prepend _ m | .insertBefore _ m | .insertAfter _ m
  | .replaceWith _ m => some m
  | _ => none

/-- Another tree that is inserted is consistent. -/
def Sound (e : Edit) : Prop :=
  ∀ m ∈ e.material?, m.Sound

/-- Whether the edit inserts a list of nodes. -/
def listsNodes (e : Edit) : Bool :=
  e.material?.any Material.listsNodes

/-- A list of nodes names a node twice, and the tree is not consistent any more. -/
def Breaks (e : Edit) (t : Tree) : Prop :=
  e.listsNodes = true ∧ ¬ t.Consistent

/-- What spoils the material spoils the edit that inserts it. -/
theorem yields_of_spoiled {e : Edit} {m : Material} (hm : e.material? = some m)
    {spared : Option NodeId} {t : Tree} {f : Editing (List NodeId)}
    (h : Yields (Spoiled m spared) f t fun _ _ => True) : Yields e.Breaks f t fun _ _ => True := by
  intro w
  rcases h w with hS | h
  · refine Or.inl ⟨?_, hS.2.not_consistent⟩
    rw [listsNodes, hm]
    exact hS.1
  · exact Or.inr h

/-- An edit without a result does what it does with one. -/
theorem yields_silently {e : Edit} {t : Tree} {f : Editing Unit}
    (h : Yields Never f t fun _ _ => True) : Yields e.Breaks (silently f) t fun _ _ => True :=
  (h.andReturn fun _ _ _ => trivial).of_never

theorem yields_single {e : Edit} {t : Tree} {f : Editing NodeId}
    (h : Yields Never f t fun _ _ => True) : Yields e.Breaks (single f) t fun _ _ => True :=
  (h.andReturn fun _ _ _ => trivial).of_never

/-- Every edit of a consistent tree makes allowed changes only. -/
theorem yields_perform {t : Tree} (ht : t.Consistent) {e : Edit} (he : e.Sound) :
    Yields e.Breaks e.perform t fun _ _ => True := by
  cases e with
  | create m =>
    refine ((yields_materialize ht ?_ (he m rfl)).mono fun _ _ _ _ => trivial).of_never
    exact fun p hp => absurd hp (Option.not_mem_none p)
  -- Insertions can be spoiled by a list that names a node twice.
  | append parent m => exact yields_of_spoiled rfl (yields_append ht (he m rfl) parent)
  | prepend parent m => exact yields_of_spoiled rfl (yields_prepend ht (he m rfl) parent)
  | insertBefore exist m => exact yields_of_spoiled rfl (yields_insertBefore ht (he m rfl) exist)
  | insertAfter exist m => exact yields_of_spoiled rfl (yields_insertAfter ht (he m rfl) exist)
  | replaceWith id m => exact yields_of_spoiled rfl (yields_replaceWith ht (he m rfl) id)
  -- Nothing else can: what is removed, moved or copied is one node.
  | remove id => exact yields_silently (yields_remove t id)
  | removeChild parent child => exact yields_silently (yields_removeChild t parent child)
  | removeAll parent => exact yields_silently (yields_removeAll t parent)
  | moveTo id parent => exact yields_silently (yields_moveTo ht id parent)
  | moveBefore id target => exact yields_silently (yields_moveBefore ht id target)
  | moveAfter id target => exact yields_silently (yields_moveAfter ht id target)
  | cloneNode id => exact yields_single (yields_cloneNode ht id)
  | cloneBefore id => exact yields_single (yields_cloneBefore ht id)
  | cloneAfter id => exact yields_single (yields_cloneAfter ht id)
  | setProp id new | setValue id new | setImportant id new | setSelector id new | setName id new
  | setParams id new | setText id new =>
    exact yields_silently (yields_update t id _ fun c => by simp)
  | setSelectors id values => exact yields_silently (yields_setSelectors t id values)
  | cleanRaws id keepBetween => exact yields_silently (yields_cleanRaws t id keepBetween)
  | setRaws id raws => exact yields_silently (yields_touch t id (fun _ => rfl) fun _ => rfl)
  | dropSource id => exact yields_silently (yields_touch t id (fun _ => rfl) fun _ => rfl)
  | markDirty id => exact yields_silently (.change (.single (.markDirty id)) trivial)

/-- An edit that inserts no list of nodes, or leaves a consistent tree, makes allowed changes
only. -/
theorem changes_run {e : Edit} {d : Desk} (hd : d.tree.Consistent) (he : e.Sound)
    (hlists : e.listsNodes = false ∨ (e.run d).2.tree.Consistent) :
    d.tree.Changes (e.run d).2.tree := by
  rcases yields_perform hd he d.workspace with ⟨hlist, hbroken⟩ | ⟨hchanges, -⟩
  · rcases hlists with hlists | hconsistent
    · rw [hlists] at hlist
      cases hlist
    · exact absurd hconsistent hbroken
  · exact hchanges

end Edit

/-! ### Trees that edits lead to -/

/-- A tree that can come up. An edit may insert another such tree; a list of nodes, in which one may
be named twice, is left out. -/
inductive Tree.Reached : Tree → Prop
  | empty : Reached Tree.empty
  | parse {w : Workspace} {css : String} {options : ParseOptions} {t : Tree}
    (h : (Stylesheet.parse w css options).1 = .ok t) : Reached t
  | edit {t : Tree} (ht : Reached t) (e : Edit) (hlists : e.listsNodes = false)
    (hother : ∀ other shared, e.material? = some (.tree other shared) → Reached other)
    (w : Workspace) :
    Reached (e.run ⟨t, w⟩).2.tree

/-- Any number of edits leads to trees that can come up. -/
theorem Tree.Reached.runAll {edits : List Edit} {d : Desk} (hd : d.tree.Reached)
    (hlists : ∀ e ∈ edits, e.listsNodes = false)
    (hother : ∀ e ∈ edits, ∀ other shared, e.material? = some (.tree other shared) →
      other.Reached) :
    (Edit.runAll edits d).tree.Reached := by
  induction edits generalizing d with
  | nil => exact hd
  | cons e edits ih =>
    rw [List.forall_mem_cons] at hlists hother
    exact ih (.edit hd e hlists.1 hother.1 d.workspace) hlists.2 hother.2

/-- Every tree that can come up is orderly. -/
theorem Tree.Reached.orderly {t : Tree} (h : t.Reached) : t.Orderly := by
  induction h with
  | empty => exact Tree.orderly_empty
  | parse h => exact Tree.orderly_of_parse h
  -- Every tree that the insertion brings along was reached too, so it is consistent by induction.
  | edit ht e hlists hother w ih ihother =>
    have hsound : e.Sound := by
      intro m hm
      cases m with
      | tree other shared => exact (ihother other shared hm).consistent
      | _ => trivial
    have hchanges := Edit.changes_run (d := ⟨_, w⟩) ih.consistent hsound (Or.inl hlists)
    exact ih.later (hchanges.consistent ih.consistent)
      (Tree.Changes.later ih.consistent hchanges : Tree.Later (fun _ => 0) _ _)

/-- A stylesheet that is put into an empty tree. -/
def Desk.ofText (css : String) : Desk :=
  ((Edit.append Tree.rootId (.text css)).run ⟨Tree.empty, {}⟩).2

/-- So is a tree that a text was read into. -/
theorem Tree.orderly_ofText (css : String) : (Desk.ofText css).tree.Orderly := by
  have hreached : (Desk.ofText css).tree.Reached :=
    .edit .empty (.append Tree.rootId (.text css)) rfl nofun {}
  exact hreached.orderly

/-- Every tree that can come up is consistent. -/
theorem Tree.consistent_of_reached {t : Tree} (h : t.Reached) : t.Consistent :=
  h.orderly.consistent

/-- A rule is put into itself, then into its own copy, and taken out of a list it is not in. -/
def oddEdits : List Edit :=
  [.append Tree.rootId (.text "a\x7bb:c\x7d"), .append ⟨1⟩ (.node ⟨1⟩), .moveTo ⟨1⟩ ⟨3⟩,
    .removeChild ⟨9⟩ ⟨1⟩]

/-- A move below itself, a copy of a stray node and a failing insertion, one after the other. -/
theorem consistent_oddEdits :
    (Edit.runAll oddEdits ⟨Tree.empty, {}⟩).tree.children ⟨3⟩ = [⟨4⟩, ⟨5⟩] ∧
      (Edit.runAll oddEdits ⟨Tree.empty, {}⟩).tree.Consistent := by
  have hlists : ∀ e ∈ oddEdits, e.listsNodes = false := by decide
  have hother : ∀ e ∈ oddEdits, ∀ other shared, e.material? = some (.tree other shared) →
      other.Reached := by
    simp only [oddEdits, List.forall_mem_cons]
    exact ⟨nofun, nofun, nofun, nofun, fun e he => absurd he List.not_mem_nil⟩
  have hreached : (Edit.runAll oddEdits ⟨Tree.empty, {}⟩).tree.Reached :=
    .runAll (d := ⟨Tree.empty, {}⟩) .empty hlists hother
  exact ⟨by decide +kernel, Tree.consistent_of_reached hreached⟩

end Stylesheet
