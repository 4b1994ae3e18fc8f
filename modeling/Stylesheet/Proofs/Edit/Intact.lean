import Stylesheet.Proofs.Edit.Aside
import Stylesheet.Proofs.Edit.Command
import Stylesheet.Proofs.Tree.Midway
import Stylesheet.Proofs.Tree.Orderly

/-!
# Insertions that fail

What is inserted is made first and put into a list afterwards. Making it touches no node that was
there (`Tree.Intact`), however far it comes before it fails (`Editing.intact_materialize`), and
putting it into the list cannot fail.

So an insertion that fails leaves all nodes as they were, but for one thing: a container at an end
of whose list something is to be put gets its block before anything is made, and keeps it
(`Edit.intact_of_error`).
-/

namespace Stylesheet

/-! ### Insertions -/

namespace Tree

variable {t : Tree} {id : NodeId}

/-- Whether a node can have a block and has none. -/
def lacksBlock (t : Tree) (id : NodeId) : Bool :=
  (t.kind? id).any NodeKind.canOwn && !t.hasBlock id

/-- The tree with a block for a node that lacks one. -/
def withBlock (t : Tree) (id : NodeId) : Tree :=
  if t.lacksBlock id then t.modify id (·.withDetail fun d => { d with block := true }) else t

/-- Nothing is done to a node that has a block or can have none. -/
theorem withBlock_eq_self (h : t.lacksBlock id = false) : t.withBlock id = t := by
  rw [withBlock, if_neg (ne_true_of_eq_false h)]

/-- Only the node itself is another, and only if it lacked a block. -/
theorem get?_withBlock (t : Tree) (id j : NodeId) :
    (t.withBlock id).get? j =
      if id = j ∧ t.lacksBlock id = true then
        (t.get? j).map (·.withDetail fun d => { d with block := true })
      else t.get? j := by
  rw [withBlock]
  by_cases hlacks : t.lacksBlock id = true
  · rw [if_pos hlacks, get?_modify]
    simp only [hlacks, and_true]
  · rw [if_neg hlacks, if_neg fun h => hlacks h.2]

/-- A block that is open already may be opened again. -/
theorem intact_openBlock (hown : (t.kind? id).any NodeKind.canOwn = true) :
    (t.withBlock id).Intact (t.modify id (·.withDetail fun d => { d with block := true })) := by
  cases hlacks : t.lacksBlock id with
  | true =>
    rw [withBlock, if_pos hlacks]
    exact .refl _
  | false =>
    rw [withBlock_eq_self hlacks]
    rw [lacksBlock, hown, Bool.true_and, Bool.not_eq_false'] at hlacks
    intro j hj
    rw [get?_modify]
    split_ifs with hid
    · subst hid
      obtain ⟨n, hn⟩ := Option.isSome_iff_exists.mp hj
      rw [hasBlock, hn] at hlacks
      -- Setting the flag again gives the very same node.
      obtain ⟨⟨content, raws, source, block⟩, parent, children, cursors, lastCursor, clean⟩ := n
      obtain rfl : block = true := hlacks
      rw [hn]
      rfl
    · rfl

end Tree

namespace Editing

open Stylesheet.Tree

variable {t : Tree} {m : Material}

/-- Whatever is made for insertion, and however far it comes, what was there stays as it was. -/
theorem intact_materialize (ht : t.Consistent) (parent : Option NodeId) (m : Material) :
    Ends (materialize parent m) t t.Intact fun ids u =>
      t.Intact u ∧ ∀ c ∈ ids, Loose (t.contains · = true) t parent c :=
  (aside_materialize parent m ht.aside_contains).mono (fun _ h => h.intact) fun _ _ h =>
    ⟨h.1.intact, h.2⟩

/-- When it fails, the node can have no block, so that nothing was to be opened. -/
theorem ends_openBlock (ht : t.Consistent) (parent : NodeId) :
    Ends (openBlock parent) t (t.withBlock parent).Intact fun _ u =>
      u.Consistent ∧ (t.withBlock parent).Intact u ∧ u.hasBlock parent = true := by
  have hstay : (t.kind? parent).any NodeKind.canOwn = false → (t.withBlock parent).Intact t := by
    intro hown
    rw [withBlock_eq_self (by rw [lacksBlock, hown]; rfl)]
    exact .refl t
  rw [openBlock]
  refine .bind (R := fun n u => t = u ∧ t.get? parent = some n)
    (.lookUp parent (fun hn => hstay (by rw [kind?, hn]; rfl)) fun n hn => ⟨rfl, hn⟩) ?_
  rintro n _ ⟨rfl, hn⟩
  have hkind : t.kind? parent = some n.kind := by rw [kind?, hn]; rfl
  -- Declarations and comments are refused; all others can have a block.
  split
  · rename_i hleaf
    exact .throw _ (hstay (by rw [hkind, hleaf]; rfl))
  · rename_i hleaf
    exact .throw _ (hstay (by rw [hkind, hleaf]; rfl))
  · rename_i hdeclaration hcomment
    have hown : n.kind.canOwn = true := by
      cases hk : n.kind with
      | declaration => exact absurd hk hdeclaration
      | comment => exact absurd hk hcomment
      | _ => rfl
    have hopened : (t.withBlock parent).Intact _ := intact_openBlock (by rw [hkind]; exact hown)
    refine .change ⟨(Change.openBlock hkind hown).consistent ht, hopened, ?_⟩
    rw [hasBlock, get?_modify, if_pos rfl, hn]
    rfl

/-- Insertion at an end of a container, which gets its block first. -/
theorem intact_insertInside (ht : t.Consistent) (parent : NodeId) (m : Material)
    (f : List NodeId → Tree → Tree) :
    Ends (do openBlock parent; let ids ← materialize (some parent) m; change (f ids); return ids) t
      (t.withBlock parent).Intact fun _ _ => True := by
  refine (ends_openBlock ht parent).bind ?_
  rintro _ u ⟨hu, hintact, -⟩
  refine .bind ((intact_materialize hu (some parent) m).mono (fun _ hv => hintact.trans hv)
    fun _ _ hv => hv) ?_
  exact fun ids v _ => .bind (R := fun _ _ => True) (.change trivial) fun _ _ _ => .pure trivial

/-- Insertion next to a node. When it does not fail, the nodes that are put in are none that stood
in a list. -/
theorem intact_insertNextTo (ht : t.Consistent) (exist : NodeId) (m : Material)
    (f : NodeId → Nat → List NodeId → Tree → Tree) :
    Ends (do
      let (parent, i) ← placeOf exist
      let ids ← materialize (some parent) m
      change (f parent i ids)
      return ids) t t.Intact fun ids u => ∃ parent i v,
        t.parent? exist = some parent ∧ t.Intact v ∧
          (∀ c ∈ ids, Loose (t.contains · = true) t (some parent) c) ∧ u = f parent i ids v := by
  refine .bind (R := fun (parent, _) u => t = u ∧ t.parent? exist = some parent)
    ((ends_placeOf t exist).mono ?_ ?_) ?_
  · rintro _ rfl
    exact .refl t
  · rintro ⟨parent, i⟩ _ ⟨rfl, hparent, -⟩
    exact ⟨rfl, hparent⟩
  rintro ⟨parent, i⟩ _ ⟨rfl, hparent⟩
  -- The place is found before the material is made, so the tree is still untouched there.
  refine (intact_materialize ht (some parent) m).bind ?_
  rintro ids v ⟨hintact, hloose⟩
  refine .bind (R := fun _ u => u = f parent i ids v) (.change rfl) ?_
  rintro _ u rfl
  exact .pure ⟨parent, i, v, hparent, hintact, hloose, rfl⟩

/-- A node in the list of its parent can be taken out. -/
theorem ends_remove_listed {id parent : NodeId} (hparent : t.parent? id = some parent)
    (hmem : id ∈ t.children parent) : Ends (remove id) t (fun _ => False) fun _ _ => True := by
  intro w
  obtain ⟨n, hn, hup⟩ := Option.bind_eq_some_iff.mp hparent
  rw [runOn_remove]
  dsimp only
  rw [hn]
  dsimp only
  rw [hup]
  dsimp only
  rw [runOn_removeChild]
  dsimp only
  -- Being listed is what rules the failing branch out.
  obtain ⟨i, hindex⟩ := exists_indexIn? hmem
  rw [hindex]
  trivial

/-- A node stays in its list, and under its parent, when others are put in front of it. -/
theorem listed_insertInFront {v : Tree} {parent id : NodeId} {ids : List NodeId}
    (hparent : v.parent? id = some parent) (hmem : id ∈ v.children parent) (hne : parent ≠ id)
    (hself : parent ∉ ids) (hother : id ∉ ids) (i : Nat) :
    (v.insertInFront parent id i ids).parent? id = some parent ∧
      id ∈ (v.insertInFront parent id i ids).children parent := by
  have hlinks := links_insert (t := v) hself (some id) (i == 0) i
    fun c => if (i : Int) ≤ c then c + ids.length else c
  -- The node keeps its parent, since it is not among the new ones, and its place in the longer
  -- list.
  constructor
  · rw [insertInFront, parent?_eq_links, hlinks, if_neg hne, if_neg hother, ← parent?_eq_links]
    exact hparent
  · rw [children_eq_links] at hmem
    rw [insertInFront, children_eq_links, hlinks, if_pos rfl]
    cases hl : v.links parent with
    | none =>
      rw [hl] at hmem
      exact absurd hmem List.not_mem_nil
    | some l =>
      rw [hl] at hmem
      exact mem_put_in.mpr (Or.inl hmem)

/-- The node that is to be replaced stays in its list until the others are there, so it can be taken
out. -/
theorem intact_replaceWith (ht : t.Consistent) (id : NodeId) (m : Material) :
    Ends (replaceWith id m) t t.Intact fun _ _ => True := by
  rw [replaceWith]
  refine .bind (R := fun _ u => t = u) (.node id (.refl t) fun _ _ => rfl) ?_
  rintro n _ rfl
  split_ifs
  · exact .pure trivial
  rw [insertBefore]
  refine (intact_insertNextTo ht id m fun parent i ids u => u.insertInFront parent id i ids).bind ?_
  rintro ids u ⟨parent, i, v, hparent, hintact, hloose, rfl⟩
  -- What is put in front is loose, so it is neither the parent nor the node, and both are where
  -- they were when the node is to be taken out.
  have hmem := ht.mem_children_iff.mpr hparent
  have hcontains := contains_of_parent? hparent
  have hparentHere := ht.contains_parent hparent
  have hself : parent ∉ ids := fun hp => (hloose parent hp hparentHere).2.2 rfl
  have hother : id ∉ ids := by
    intro hid
    rw [(hloose id hid hcontains).1] at hparent
    cases hparent
  have hne : parent ≠ id := by
    rintro rfl
    exact ht.not_mem_children_self parent hmem
  have hparentThere : v.parent? id = some parent := by
    rw [parent?, hintact id hcontains]
    exact hparent
  have hmemThere : id ∈ v.children parent := by
    rw [children, hintact parent hparentHere]
    exact hmem
  obtain ⟨hup, hlist⟩ := listed_insertInFront hparentThere hmemThere hne hself hother i
  generalize v.insertInFront parent id i ids = u at hlist hup ⊢
  refine .bind ((ends_remove_listed hup hlist).mono (fun _ h => h.elim) fun _ _ h => h) ?_
  exact fun _ _ _ => .pure trivial

end Editing

namespace Edit

open Stylesheet.Tree Editing

/-- The container at an end of whose list the edit puts something. -/
def container? : Edit → Option NodeId
  | .append parent _ | .prepend parent _ => some parent
  | _ => none

/-- The tree as it is when the edit begins to make what it inserts. -/
def opened (e : Edit) (t : Tree) : Tree :=
  e.container?.elim t t.withBlock

/-- Only the container is another, and only if it lacked a block. -/
theorem get?_opened (e : Edit) (t : Tree) (j : NodeId) :
    (e.opened t).get? j =
      if j ∈ e.container? ∧ t.lacksBlock j = true then
        (t.get? j).map (·.withDetail fun d => { d with block := true })
      else t.get? j := by
  rw [opened]
  cases e.container? with
  | none => rw [if_neg fun h => Option.not_mem_none j h.1]; rfl
  | some p =>
    rw [Option.elim_some, get?_withBlock]
    by_cases hp : p = j
    · subst hp
      simp only [Option.mem_def, true_and]
    · rw [if_neg fun h => hp h.1, if_neg fun h => hp (Option.mem_some_iff.mp h.1)]

theorem contains_opened (e : Edit) (t : Tree) (j : NodeId) :
    (e.opened t).contains j = t.contains j := by
  rw [Tree.contains, get?_opened]
  split_ifs
  · rw [Option.isSome_map]
    rfl
  · rfl

/-- Nothing is done to a container that has its block. -/
theorem opened_eq_self {e : Edit} {t : Tree} (h : ∀ p ∈ e.container?, t.lacksBlock p = false) :
    e.opened t = t := by
  rw [opened]
  cases hcontainer : e.container? with
  | none => rfl
  | some p => exact withBlock_eq_self (h p hcontainer)

/-- However far an insertion comes before it fails, the nodes are those that it began with. -/
theorem ends_insertion {t : Tree} (ht : t.Consistent) {e : Edit} (he : e.material?.isSome = true) :
    Ends e.perform t (e.opened t).Intact fun _ _ => True := by
  cases e with
  -- Five of the six insertions put the nodes in as their last step.
  | create m => exact (intact_materialize ht none m).mono (fun _ h => h) fun _ _ _ => trivial
  | append parent m => exact intact_insertInside ht parent m fun ids u => u.insertLast parent ids
  | prepend parent m => exact intact_insertInside ht parent m fun ids u => u.insertFirst parent ids
  | insertBefore exist m =>
    exact (intact_insertNextTo ht exist m fun parent i ids u =>
      u.insertInFront parent exist i ids).mono (fun _ h => h) fun _ _ _ => trivial
  | insertAfter exist m =>
    exact (intact_insertNextTo ht exist m fun parent i ids u =>
      u.insertBehind parent exist i ids).mono (fun _ h => h) fun _ _ _ => trivial
  -- The sixth goes on to remove a node, which needs an argument of its own.
  | replaceWith id m => exact intact_replaceWith ht id m
  | _ => cases he

/-- An insertion that fails, whatever it is to insert and where, leaves every node as it was: what
it says, its formatting, its place, its list and its marks. The exception is a container at whose
end or beginning something is to be put, and that lacks a block: it has an empty one now. Where
there is no such container, the text is the same too. -/
theorem intact_of_error {e : Edit} (he : e.material?.isSome = true) {d : Desk}
    (hd : d.tree.Consistent) {x : Error} (hx : (e.run d).1 = .error x) :
    let t := d.tree
    let u := (e.run d).2.tree
    (∀ j, t.contains j = true → (j ∈ e.container? → t.lacksBlock j = false) →
      u.get? j = t.get? j) ∧
    (∀ p ∈ e.container?, t.lacksBlock p = true →
      u.get? p = (t.get? p).map (·.withDetail fun d => { d with block := true })) ∧
    (t.kind? rootId = some .root → (∀ p ∈ e.container?, t.lacksBlock p = false) →
      u.print = t.print) := by
  intro t u
  have hintact : (e.opened t).Intact u := (ends_insertion hd he).of_error hx
  have hget : ∀ j, t.contains j = true → u.get? j = (e.opened t).get? j :=
    fun j hj => hintact j ((contains_opened e t j).trans hj)
  -- All three are read off the tree that the edit began with.
  refine ⟨fun j hj hopen => ?_, fun p hp hlacks => ?_, fun hroot hopen => ?_⟩
  · rw [hget j hj, get?_opened, if_neg fun h => ?_]
    rw [hopen h.1] at h
    exact Bool.false_ne_true h.2
  · have hcontains : t.contains p = true := by
      have hown := (Bool.and_eq_true_iff.mp hlacks).1
      rw [Option.any_eq_true] at hown
      obtain ⟨kind, hkind, -⟩ := hown
      exact contains_of_kind? hkind
    rw [hget p hcontains, get?_opened, if_pos ⟨hp, hlacks⟩]
  · rw [opened_eq_self hopen] at hintact
    exact hintact.print_eq hd hroot

/-- A rule with a declaration, and an at-rule without a block. -/
def ruleAndStatement : Desk :=
  ((append rootId (.bags [(Bag.rule "a").withNodes [.declaration "b" "c"], .atRule "d" ""])).run
    ⟨Tree.empty, {}⟩).2

/-- The tree of the examples below. -/
theorem consistent_ruleAndStatement : ruleAndStatement.tree.Consistent := by
  have hsound : Sound (append rootId (.bags
      [(Bag.rule "a").withNodes [.declaration "b" "c"], .atRule "d" ""])) := by
    rintro _ ⟨⟩
    trivial
  exact (changes_run (d := ⟨Tree.empty, {}⟩) consistent_empty hsound (Or.inl rfl)).consistent
    consistent_empty

/-- A rule with a child that can be made, and one that has nothing to show of which kind it is. -/
def halfGoodBag : Bag :=
  (Bag.rule "x").withNodes [.declaration "y" "z", .node {} (some [])]

/-- The comment is made before the bag fails, and the rule is as it was. -/
theorem intact_of_error_halfGoodBag :
    let u := ((append ⟨1⟩ (.bags [.comment "k", halfGoodBag])).run ruleAndStatement).2.tree
    u.get? ⟨1⟩ = ruleAndStatement.tree.get? ⟨1⟩ ∧ u.print = ruleAndStatement.tree.print := by
  have hopen : ∀ p ∈ container? (append ⟨1⟩ (.bags [.comment "k", halfGoodBag])),
      ruleAndStatement.tree.lacksBlock p = false := by
    rintro _ ⟨⟩
    decide +kernel
  obtain ⟨hsame, -, hprint⟩ := intact_of_error
    (e := append ⟨1⟩ (.bags [.comment "k", halfGoodBag])) rfl consistent_ruleAndStatement
    (x := .unknownNodeType) (by decide +kernel)
  exact ⟨hsame ⟨1⟩ (by decide +kernel) fun hp => hopen ⟨1⟩ hp, hprint (by decide +kernel) hopen⟩

/-- The at-rule that a bag without any field is appended to keeps the block it gets for it. -/
theorem block_left_behind :
    ¬ ∀ (e : Edit) (d : Desk) (x : Error), e.material?.isSome = true → d.tree.Consistent →
      (e.run d).1 = .error x →
        (∀ j, d.tree.contains j = true → (e.run d).2.tree.get? j = d.tree.get? j) ∧
          (e.run d).2.tree.print = d.tree.print := by
  intro h
  have hprint := (h (append ⟨3⟩ (.bag (.node {} none))) ruleAndStatement .unknownNodeType rfl
    consistent_ruleAndStatement (by decide +kernel)).2
  have hbefore : ruleAndStatement.tree.print = "a \x7b\n    b: c\n\x7d\n@d" := by decide +kernel
  have hafter : ((append ⟨3⟩ (.bag (.node {} none))).run ruleAndStatement).2.tree.print =
      "a \x7b\n    b: c\n\x7d\n@d \x7b\x7d" := by
    decide +kernel
  rw [hbefore, hafter] at hprint
  exact absurd hprint (by decide)

end Edit

end Stylesheet
