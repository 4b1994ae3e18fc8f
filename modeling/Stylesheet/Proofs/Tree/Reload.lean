import Stylesheet.Proofs.Edit.Legible
import Stylesheet.Proofs.Edit.Lists
import Stylesheet.Proofs.Tree.Orderly
import Stylesheet.Proofs.Tree.Reread

/-!
# Reloading a tree

A tree that was written as JSON is read again, and nothing is lost that is written or printed
(`Tree.reload_of_grown`): the tree that is read is written the same, it is printed the same, and
nodes that were read from one input are so again.

`Tree.Grown` holds of the trees that can come up by reading, editing and traversing, as long as no
list of nodes breaks the tree: a list that names a detached node twice puts it at two places
(`Tree.reload_listedTwice`).
-/

namespace Stylesheet

/-- The input was made for some text. -/
def Input.Created (k : Packages) (i : Input) : Prop :=
  ∃ w css options, w.packages = k ∧ (Input.create w css options).1 = .ok i

namespace Tree

variable {k : Packages} {t : Tree}

/-! ### Trees that can come up -/

/-- The tree with another place for a node. Inputs may come along that were not used before. -/
def withSource (t : Tree) (inputs : Array Input) (id : NodeId) (source : Source) (w : Workspace) :
    Tree :=
  ((Editing.touch id fun d => { d with source := some source }).runOn
    ⟨{ t with inputs := t.inputs ++ inputs }, w⟩).2.tree

/-- A tree that can come up with given packages. A list of nodes may be inserted when the tree is
consistent behind that; all other edits may have any arguments, and may fail. -/
inductive Grown (k : Packages) : Tree → Prop
  | empty : Grown k Tree.empty
  | parse {w : Workspace} (hw : w.packages = k) {css : String} {options : ParseOptions} {t : Tree}
    (h : (Stylesheet.parse w css options).1 = .ok t) : Grown k t
  | edit {d : Desk} (hd : Grown k d.tree) (e : Edit)
    (hlists : e.listsNodes = true → (e.run d).2.tree.Consistent)
    (hother : ∀ other shared, e.material? = some (.tree other shared) → Grown k other) :
    Grown k (e.run d).2.tree
  | source {t : Tree} (ht : Grown k t) {inputs : Array Input}
    (hinputs : ∀ i ∈ inputs, i.Created k) (id : NodeId) {source : Source}
    (hsource : source.input < t.inputs.size + inputs.size) (w : Workspace) :
    Grown k (t.withSource inputs id source w)
  | openCursor {t u : Tree} (ht : Grown k t) {parent : NodeId} {cursor : Nat}
    (h : t.openCursor parent = some (cursor, u)) : Grown k u
  | advanceCursor {t : Tree} (ht : Grown k t) (parent : NodeId) (cursor : Nat) :
    Grown k (t.advanceCursor parent cursor)
  | closeCursor {t : Tree} (ht : Grown k t) (parent : NodeId) (cursor : Nat) :
    Grown k (t.closeCursor parent cursor)

/-- Any number of edits leads to trees that can come up. -/
theorem Grown.runAll {edits : List Edit} {d : Desk} (hd : d.tree.Grown k)
    (hlists : ∀ e ∈ edits, e.listsNodes = false)
    (hother : ∀ e ∈ edits, ∀ other shared, e.material? = some (.tree other shared) →
      other.Grown k) :
    (Edit.runAll edits d).tree.Grown k := by
  induction edits generalizing d with
  | nil => exact hd
  | cons e edits ih =>
    rw [List.forall_mem_cons] at hlists hother
    have hnext : (e.run d).2.tree.Grown k := by
      refine .edit hd e (fun h => ?_) hother.1
      rw [hlists.1] at h
      cases h
    exact ih hnext hlists.2 hother.2

/-- An edit keeps a tree orderly unless it lists a node twice. -/
theorem Orderly.edit {d : Desk} {e : Edit} (hd : d.tree.Orderly) (he : e.Sound)
    (hlists : e.listsNodes = true → (e.run d).2.tree.Consistent) : (e.run d).2.tree.Orderly := by
  have hchanges : d.tree.Changes (e.run d).2.tree := by
    refine Edit.changes_run hd.consistent he ?_
    cases hl : e.listsNodes with
    | false => exact Or.inl rfl
    | true => exact Or.inr (hlists hl)
  exact hd.later (hchanges.consistent hd.consistent)
    (Changes.later hd.consistent hchanges : d.tree.Later (fun _ => 0) _)

theorem Orderly.withSource (ht : t.Orderly) (inputs : Array Input) (id : NodeId) (source : Source)
    (w : Workspace) : (t.withSource inputs id source w).Orderly := by
  have hmore : Orderly { t with inputs := t.inputs ++ inputs } :=
    ⟨ht.consistent.of_links_eq rfl, ht.rooted, ht.numbered⟩
  have hyields := Editing.yields_touch { t with inputs := t.inputs ++ inputs } id
    (f := fun d => { d with source := some source }) (fun _ => rfl) fun _ => rfl
  rcases hyields w with hnever | ⟨hchanges, -⟩
  · exact hnever.elim
  · exact hmore.later (hchanges.consistent hmore.consistent)
      (Changes.later hmore.consistent hchanges : Later (fun _ => 0) _ _)

/-- The induction is on how the tree came about. -/
theorem Grown.orderly (h : t.Grown k) : t.Orderly := by
  induction h with
  | empty => exact orderly_empty
  | parse hw h => exact orderly_of_parse h
  | edit hd e hlists hother ih ihother =>
    refine ih.edit (fun m hm => ?_) hlists
    cases m with
    | tree other shared => exact (ihother other shared hm).consistent
    | _ => trivial
  | source ht hinputs id hsource w ih => exact ih.withSource _ id _ w
  | openCursor ht h ih => exact ih.openCursor h
  | advanceCursor ht parent cursor ih => exact ih.advanceCursor parent cursor
  | closeCursor ht parent cursor ih => exact ih.closeCursor parent cursor

/-- An input that was created came out of text, so it can be read again. -/
theorem legible_of_created {i : Input} (h : i.Created k) : i.Legible k := by
  obtain ⟨w, css, options, rfl, h⟩ := h
  have hcreate : Input.create w css options = (.ok i, (Input.create w css options).2) :=
    Prod.ext h rfl
  exact Input.legible_of_create hcreate

theorem inputs_markDirty (t : Tree) (id : NodeId) : (t.markDirty id).inputs = t.inputs := by
  have hfold : ∀ (ids : List NodeId) (u : Tree) (f : Node → Node),
      (u.modifyAll ids f).inputs = u.inputs := by
    intro ids
    induction ids with
    | nil => exact fun _ _ => rfl
    | cons id ids ih => exact fun u f => ih (u.modify id f) f
  rw [markDirty]
  split_ifs
  · exact hfold _ _ _
  · rfl

theorem Legible.withSource (h : t.Legible k) {inputs : Array Input}
    (hinputs : ∀ i ∈ inputs, i.Legible k) (id : NodeId) {source : Source}
    (hsource : source.input < t.inputs.size + inputs.size) (w : Workspace) :
    (t.withSource inputs id source w).Legible k := by
  rw [legible_iff_throughout] at h ⊢
  have hP := Detail.lasting_known
  have hmore := h.appendInputs hP hinputs
  refine Editing.Ends.atEnd (R := Throughout _ (Input.Legible k)) ?_ w
  rw [Editing.touch]
  refine .bind (R := fun _ u => u = { t with inputs := t.inputs ++ inputs })
    (.node id hmore fun _ _ => rfl) ?_
  rintro _ _ rfl
  refine .change ((hmore.markDirty hP id).modify hP id fun n _ hn => ⟨hn.block, ?_⟩)
  rintro _ ⟨⟩
  rw [inputs_markDirty, Array.size_append]
  exact hsource

/-- A node is changed, but not in its details. -/
theorem Legible.modify (h : t.Legible k) (id : NodeId) {f : Node → Node}
    (hf : ∀ n, (f n).detail = n.detail) : (t.modify id f).Legible k := by
  rw [legible_iff_throughout] at h ⊢
  refine h.modify Detail.lasting_known id fun n _ hn => ?_
  rw [hf]
  exact hn

/-- Inputs of texts and of other trees are legible, and nothing else brings one. -/
theorem Grown.legible (h : t.Grown k) : t.Legible k := by
  induction h with
  | empty => exact legible_empty
  | parse hw h => exact hw ▸ legible_of_parse h
  | edit hd e hlists hother ih ihother =>
    refine Edit.legible_run (fun m hm => ?_) ih
    cases m with
    | tree other shared => exact ihother other shared hm
    | _ => trivial
  | source ht hinputs id hsource w ih =>
    exact ih.withSource (fun i hi => legible_of_created (hinputs i hi)) id hsource w
  | openCursor ht h ih =>
    obtain ⟨n, -, -, rfl⟩ := openCursor_eq_some h
    exact ih.modify _ fun _ => rfl
  | advanceCursor ht parent cursor ih => exact ih.modify parent fun _ => rfl
  | closeCursor ht parent cursor ih => exact ih.modify parent fun _ => rfl

/-- Lists that name no node twice can be inserted. -/
theorem Grown.edit_of_distinct {d : Desk} (h : d.tree.Grown k) (e : Edit)
    (hdistinct : e.Distinct d.tree (e.run d).2.tree)
    (hother : ∀ other shared, e.material? = some (.tree other shared) → other.Grown k) :
    (e.run d).2.tree.Grown k := by
  have hsound : e.Sound := by
    intro m hm
    cases m with
    | tree other shared => exact (hother other shared hm).orderly.consistent
    | _ => trivial
  have hchanges := Edit.changes_of_distinct h.orderly.consistent hsound hdistinct
  exact .edit h e (fun _ => hchanges.consistent h.orderly.consistent) hother

/-! ### Reloading -/

/-- A tree that can come up is read as it was written. What is read is written and printed like the
tree, and two nodes of the document are read from one input if they were so in the tree. -/
theorem reload_of_grown {e : Environment} (h : t.Grown e.packages) :
    ∃ u, Tree.ofJson e t.toJson = .ok u ∧ u.toJson = t.toJson ∧ u.print = t.print ∧
      ∀ i j, u.SharesInput i j ↔ t.SharesInput i j := by
  have hconsistent := h.orderly.consistent
  have hroot := h.orderly.rooted
  refine ⟨t.reread, h.legible.ofJson_toJson hconsistent hroot, ?_, ?_, ?_⟩
  · exact toJson_reread hconsistent hroot h.legible.lt_of_mem_usedInputs
  · exact print_reread hconsistent hroot
  · exact sharesInput_reread hconsistent hroot

/-- What is read of a text; nothing when it cannot be read. -/
def sheet (css : String) : Tree :=
  ((parse {} css {}).1.toOption).getD Tree.empty

/-- A stylesheet that was read is a tree that can come about. -/
theorem grown_sheet (css : String) : (sheet css).Grown .standard := by
  rw [sheet]
  cases h : (parse {} css {}).1 with
  | error e => exact .empty
  | ok t => exact .parse rfl h

theorem parse_sheet {css : String} (h : (parse {} css {}).1.isOk = true) :
    (parse {} css {}).1 = .ok (sheet css) := by
  rw [sheet]
  cases hparse : (parse {} css {}).1 with
  | error e => rw [hparse] at h; cases h
  | ok t => rfl

/-- Two stylesheets in one tree. -/
def twoSheets : Desk :=
  Edit.runAll
    [.append rootId (.tree (sheet "a\x7bb:c\x7d") []), .append rootId (.tree (sheet "@d;") [])]
    ⟨Tree.empty, {}⟩

/-- Two stylesheets in one tree, and a list that copies a node of each. -/
def patchwork : Tree :=
  ((Edit.append rootId (.nodes [⟨3⟩, ⟨1⟩])).run twoSheets).2.tree

theorem Grown.appendSheet {d : Desk} (hd : d.tree.Grown .standard) (parent : NodeId)
    (css : String) :
    ((Edit.append parent (.tree (sheet css) [])).run d).2.tree.Grown .standard := by
  refine .edit hd _ (fun hlists => absurd hlists Bool.false_ne_true) ?_
  rintro _ _ ⟨⟩
  exact grown_sheet css

/-- So is one that other stylesheets were put into. -/
theorem grown_patchwork : patchwork.Grown .standard := by
  have hsheets : twoSheets.tree.Grown .standard :=
    Grown.appendSheet (Grown.appendSheet (d := ⟨Tree.empty, {}⟩) .empty rootId _) rootId _
  refine .edit_of_distinct hsheets _ ?_ nofun
  rintro _ ⟨⟩
  exact ⟨by decide, by decide +kernel⟩

/-- The nodes at the places 1 and 6 are of the first stylesheet, the one at 3 is of the second. -/
theorem reload_patchwork :
    ∃ u, Tree.ofJson {} patchwork.toJson = .ok u ∧ u.toJson = patchwork.toJson ∧
      u.print = "a\x7bb:c\x7d@d;@d;a\x7bb:c\x7d" ∧ u.SharesInput 1 6 ∧ ¬ u.SharesInput 1 3 := by
  have hprint : patchwork.print = "a\x7bb:c\x7d@d;@d;a\x7bb:c\x7d" := by decide +kernel
  have hread : patchwork.readFrom = [none, some 0, some 0, some 1, some 1, some 0, some 0] := by
    decide +kernel
  obtain ⟨u, hu, hjson, hsame, hshares⟩ := reload_of_grown (e := {}) grown_patchwork
  refine ⟨u, hu, hjson, hsame.trans hprint, (hshares 1 6).mpr ?_, fun h => ?_⟩
  · rw [SharesInput, hread]
    exact ⟨0, rfl, rfl⟩
  · obtain ⟨input, hfirst, hthird⟩ := (hshares 1 3).mp h
    rw [hread] at hfirst hthird
    cases hfirst
    cases hthird

/-- A rule is inserted twice by one list. -/
def listedTwice : Tree :=
  (Edit.runAll [.create (.bag (.rule "a")), .append rootId (.nodes [⟨1⟩, ⟨1⟩])]
    ⟨Tree.empty, {}⟩).tree

/-- A rule that stands at two places is read as two rules, and the second one gets a line of its
own. -/
theorem reload_listedTwice :
    ¬ ∃ u, Tree.ofJson {} listedTwice.toJson = .ok u ∧ u.print = listedTwice.print := by
  have hprint : listedTwice.print = "a \x7b\x7da \x7b\x7d" := by decide +kernel
  have hreload : (Tree.ofJson {} listedTwice.toJson).toOption.map Tree.print =
      some "a \x7b\x7d\na \x7b\x7d" := by
    decide +kernel
  rintro ⟨u, hu, hsame⟩
  rw [hu] at hreload
  have htexts : "a \x7b\x7da \x7b\x7d" = "a \x7b\x7d\na \x7b\x7d" :=
    hprint.symm.trans (hsame.symm.trans (Option.some.inj hreload))
  exact absurd htexts (by decide)

end Tree

end Stylesheet
