import Stylesheet.Proofs.Edit.Spliced
import Stylesheet.Proofs.Outline.Read

/-!
# Taking out what was inserted

An insertion touches the nodes that were there in one list only (`Edit.ends_splicedAt`), unless it
is in front of the first node of a stylesheet. So when all that was inserted is taken out again, in
any order, the nodes have the faces that they had, and the text is the same (`Edit.restored`).

What is between is a tree in which some of the inserted nodes are still there (`Tree.Lent`), and
taking out one of them leaves such a tree.
-/

namespace Stylesheet

namespace Tree

variable {t u : Tree} {parent : NodeId} {place : Nat} {ids rest : List NodeId}

/-- Nodes of `ids` were put into the list of `parent`, and those of `rest` are still there. All else
is as it was. -/
structure Lent (t u : Tree) (parent : NodeId) (place : Nat) (ids rest : List NodeId) : Prop where
  consistent : u.Consistent
  container : u.face parent = (t.face parent).map
    (·.withChildren fun list => list.take place ++ rest ++ list.drop place)
  others : ∀ j, t.contains j = true → parent ≠ j → j ∉ ids → u.face j = t.face j

/-- The place is not in front of the first node of a stylesheet. -/
def Sheltered (t : Tree) (parent : NodeId) (place : Nat) : Prop :=
  t.isRoot parent = true → place ≠ 0 ∨ t.children parent = []

/-- In a place that is sheltered nothing is pushed back. -/
theorem Sheltered.displaced?_eq_none (h : t.Sheltered parent place) :
    t.displaced? parent place = none := by
  rw [displaced?]
  split_ifs with htop
  · rcases h htop.1 with hplace | hempty
    · exact absurd htop.2 hplace
    · rw [first?, hempty, List.head?_nil]
  · rfl

namespace Lent

/-- The list is the old one, with what is left of the loan in it. -/
theorem children_parent (h : t.Lent u parent place ids rest) (hparent : t.contains parent = true) :
    u.children parent =
      (t.children parent).take place ++ rest ++ (t.children parent).drop place := by
  rw [contains_eq_face] at hparent
  obtain ⟨f, hf⟩ := Option.isSome_iff_exists.mp hparent
  rw [children_eq_face, children_eq_face, h.container, hf]
  rfl

theorem isRoot_parent (h : t.Lent u parent place ids rest) : u.isRoot parent = t.isRoot parent := by
  have hkind : u.kind? parent = t.kind? parent := by
    rw [kind?_eq_links, kind?_eq_links, links_eq_face, links_eq_face, h.container, Option.map_map,
      Option.map_map, Option.map_map]
    rfl
  rw [isRoot, isRoot, hkind]

/-- Where no node is displaced, the second node in the list is not one that was there when the first
one is taken out. -/
theorem second_mem (h : t.Lent u parent place ids rest) (hparent : t.contains parent = true)
    (hids : ∀ c ∈ t.children parent, c ∉ ids) (hshelter : t.Sheltered parent place) {c d : NodeId}
    (hc : c ∈ rest) (hrest : ∀ c ∈ rest, c ∈ ids) (hroot : u.isRoot parent = true)
    (hfirst : (u.children parent)[0]? = some c) (hsecond : (u.children parent)[1]? = some d) :
    d ∈ ids := by
  rw [h.children_parent hparent] at hfirst hsecond
  rw [h.isRoot_parent] at hroot
  cases hlist : t.children parent with
  | nil =>
    rw [hlist, List.take_nil, List.drop_nil, List.nil_append, List.append_nil] at hsecond
    exact hrest d (List.mem_of_getElem? hsecond)
  | cons a list =>
    -- Then the first node in the list is one that was there.
    rcases hshelter hroot with hplace | hempty
    · obtain ⟨place, rfl⟩ := Nat.exists_eq_succ_of_ne_zero hplace
      rw [hlist] at hfirst
      cases hfirst
      exact absurd (hrest c hc) (hids c (hlist ▸ List.mem_cons_self))
    · rw [hlist] at hempty
      cases hempty

/-- One of the nodes is taken out. -/
theorem removeAt (h : t.Lent u parent place ids rest) (hparent : t.contains parent = true)
    (hids : ∀ c ∈ t.children parent, c ∉ ids) (hself : parent ∉ ids)
    (hshelter : t.Sheltered parent place) (hrest : ∀ c ∈ rest, c ∈ ids) {c : NodeId} (hc : c ∈ rest)
    {i : Nat} (hindex : u.indexIn? parent c = some i) :
    t.Lent (u.removeAt parent c i) parent place ids (rest.erase c) := by
  have hget := getElem?_of_indexIn? hindex
  have hface : ∀ j, j ∉ ids → (u.removeAt parent c i).face j =
      if parent = j then (u.face j).map (·.withChildren (·.eraseIdx i)) else u.face j := by
    intro j hj
    -- Taking the first child of the root changes the second one, which must then be on loan as
    -- well.
    refine face_removeAt (fun heq => hj (heq ▸ hrest c hc)) fun hroot hi hsecond => hj ?_
    rw [hi] at hget
    exact h.second_mem hparent hids hshelter hc hrest hroot hget hsecond
  refine ⟨h.consistent.remove (removed_removeAt h.consistent hindex), ?_, fun j hj hne hother => ?_⟩
  · obtain ⟨hlt, hchild⟩ := List.getElem?_eq_some_iff.mp hget
    -- The erased place lies in the middle part, whatever the order of removal.
    have herase : (u.children parent).eraseIdx i = (t.children parent).take place ++ rest.erase c ++
        (t.children parent).drop place := by
      have hc' : c ∉ (t.children parent).take place := fun hmem =>
        hids c (List.mem_of_mem_take hmem) (hrest c hc)
      rw [← (h.consistent.nodup_children parent).erase_getElem i hlt, hchild,
        h.children_parent hparent, List.erase_append_left _ (List.mem_append_right _ hc),
        List.erase_append_right _ hc']
    rw [contains_eq_face] at hparent
    obtain ⟨f, hf⟩ := Option.isSome_iff_exists.mp hparent
    have hcontainer := h.container
    rw [hf, Option.map_some] at hcontainer
    rw [children_eq_face, children_eq_face, hf, hcontainer] at herase
    rw [hface parent hself, if_pos rfl, hcontainer, hf]
    exact congrArg (fun list => some ({ f with children := list } : Node.Face)) herase
  · rw [hface j hother, if_neg hne]
    exact h.others j hj hne hother

end Lent

end Tree

namespace Editing

open Stylesheet.Tree

variable {t u : Tree} {parent : NodeId} {place : Nat} {ids : List NodeId}

/-- A node that a list holds can be taken out. -/
theorem runOn_remove_of_mem (hu : u.Consistent) {c : NodeId} (hc : c ∈ u.children parent)
    (w : Workspace) : ∃ i, u.indexIn? parent c = some i ∧
      (remove c).runOn ⟨u, w⟩ = (.ok (), ⟨u.removeAt parent c i, w⟩) := by
  obtain ⟨i, hindex⟩ := exists_indexIn? hc
  obtain ⟨n, hn, hup⟩ := Option.bind_eq_some_iff.mp (hu.listed parent c hc)
  refine ⟨i, hindex, ?_⟩
  rw [runOn_remove]
  dsimp only
  rw [hn]
  dsimp only
  rw [hup]
  dsimp only
  rw [runOn_removeChild]
  dsimp only
  rw [hindex]

/-- All that is still there is taken out, in any order. -/
theorem lent_removeEach (hparent : t.contains parent = true)
    (hids : ∀ c ∈ t.children parent, c ∉ ids) (hself : parent ∉ ids)
    (hshelter : t.Sheltered parent place) (w : Workspace) :
    ∀ (order : List NodeId) {u : Tree} {rest : List NodeId}, order.Perm rest →
      (∀ c ∈ rest, c ∈ ids) → t.Lent u parent place ids rest →
        ∃ v, (forM order remove).runOn ⟨u, w⟩ = (.ok (), ⟨v, w⟩) ∧ t.Lent v parent place ids []
  | [], u, rest, horder, _, h => by
    obtain rfl := List.nil_perm.mp horder
    exact ⟨u, rfl, h⟩
  | c :: order, u, rest, horder, hrest, h => by
    have hc : c ∈ rest := horder.mem_iff.mp List.mem_cons_self
    have hmem : c ∈ u.children parent := by
      rw [h.children_parent hparent]
      exact List.mem_append_left _ (List.mem_append_right _ hc)
    obtain ⟨i, hindex, hrun⟩ := runOn_remove_of_mem h.consistent hmem w
    -- One step of the run; the invariant is kept with one node less on loan.
    have hnext := h.removeAt hparent hids hself hshelter hrest hc hindex
    obtain ⟨v, hrest, hv⟩ := lent_removeEach hparent hids hself hshelter w order
      (horder.trans (List.perm_cons_erase hc)).cons_inv
      (fun x hx => hrest x (List.mem_of_mem_erase hx)) hnext
    refine ⟨v, ?_, hv⟩
    rw [List.forM_cons, runOn_bind, hrun]
    exact hrest

end Editing

namespace Edit

open Stylesheet.Tree Editing

/-- After an insertion that is not in front of the first node of a stylesheet, what was inserted is
in the list, and all else is as it was. -/
theorem lent_of_spliced {t u v : Tree} {parent : NodeId} {place : Nat} {ids : List NodeId}
    (hv : v.Consistent) (hblock : t.hasBlock parent = true)
    (hshelter : t.Sheltered parent place) (hintact : t.Intact v)
    (hoffered : v.Offered (some parent) ids) (hnodup : ids.Nodup)
    (hspliced : v.Spliced u parent place ids) : t.Lent u parent place ids ids := by
  have hparent := contains_of_hasBlock hblock
  have hself : parent ∉ ids := fun hmem => hoffered.outside parent rfl parent hmem .refl
  -- New and old children are different nodes, since the new ones had no parent.
  have hids : ∀ c ∈ v.children parent, c ∉ ids :=
    fun c hc hmem => (hoffered.ready hnodup).not_mem_children hv hmem parent hc
  have hshelter' : v.Sheltered parent place := by
    rw [Sheltered, isRoot, kind?, children, hintact parent hparent]
    exact hshelter
  refine ⟨?_, ?_, fun j hj hne hother => ?_⟩
  · have hins := hspliced.inserted (hintact.contains hparent) hself hoffered.contains
    refine hv.insert ?_ (hoffered.ready hnodup) hins
    rw [hasBlock, hintact parent hparent]
    exact hblock
  · rw [hspliced.face_parent hids hself (hv.not_mem_children_self parent), hintact.face hparent]
  · rw [hspliced.face_of_ne hids hself hne hother, hshelter'.displaced?_eq_none,
      if_neg (Option.some_ne_none j).symm, hintact.face hj]

/-- What was inserted into a container with a block can be taken out again, in any order. What comes
back did not stand in a list, and it is not a root. All other nodes that were there have the
details, the parents and the children that they had, and the text is the same. This is about all
insertions but those in front of the first node of a stylesheet, whose formatting another node takes
over. -/
theorem restored {d : Desk} (hd : d.tree.Consistent) {target : NodeId} {m : Material}
    (hm : m.Sound) (hlists : m.listsNodes = false) {e : Edit}
    (he : e ∈ [append target m, prepend target m, insertBefore target m, insertAfter target m])
    {ids order : List NodeId} (hrun : (e.run d).1 = .ok ids) {parent : NodeId} {place : Nat}
    (hspot : e.spot? d.tree = some (parent, place)) (hblock : d.tree.hasBlock parent = true)
    (hshelter : d.tree.Sheltered parent place) (horder : order.Perm ids) :
    let t := d.tree
    ∃ r, (forM order Editing.remove).runOn (e.run d).2 = (.ok (), r) ∧
      (∀ c ∈ ids, t.contains c = true → t.parent? c = none ∧ t.kind? c ≠ some .root) ∧
      (∀ j, t.contains j = true → j ∉ ids → r.tree.face j = t.face j) ∧
      (t.kind? rootId = some .root → r.tree.print = t.print) ∧
      ∀ {w : Workspace} {css : String} {options : ParseOptions},
        (parse w css options).1 = .ok t → r.tree.print = (Input.stripBom css).1 := by
  intro t
  have hparent := contains_of_hasBlock hblock
  have hopened : e.opened t = t := by
    refine opened_eq_self fun p hp => ?_
    rw [container?_eq_of_spot? hp hspot, lacksBlock, hblock]
    exact Bool.and_false _
  have hends := ends_splicedAt hd he
    (R := fun parent ids v => v.Consistent ∧ v.Offered (some parent) ids ∧ ids.Nodup) ?_
  · obtain ⟨p, i, v, hspot', -, hintact, ⟨hv, hoffered, hnodup⟩, hspliced⟩ := hends.of_ok hrun
    obtain ⟨rfl, rfl⟩ := Prod.mk.inj (Option.some.inj (hspot.symm.trans hspot'))
    rw [hopened] at hintact
    have hself : parent ∉ ids := fun hmem => hoffered.outside parent rfl parent hmem .refl
    have hfound : ∀ c ∈ ids, t.contains c = true → t.parent? c = none ∧ t.kind? c ≠ some .root := by
      intro c hc hcontains
      rw [parent?, kind?, ← hintact c hcontains]
      exact ⟨hoffered.detached c hc, hoffered.nested c hc⟩
    -- The nodes that came in were detached, so they are none of the children that were there.
    have hids : ∀ c ∈ t.children parent, c ∉ ids := by
      intro c hc hmem
      have hup := hd.listed parent c hc
      rw [(hfound c hmem (hd.contains parent c hc)).1] at hup
      cases hup
    obtain ⟨r, hremoved, hr⟩ := lent_removeEach hparent hids hself hshelter (e.run d).2.workspace
      order horder (fun _ h => h)
      (lent_of_spliced hv hblock hshelter hintact hoffered hnodup hspliced)
    have hface : ∀ j, t.contains j = true → j ∉ ids → r.face j = t.face j := by
      intro j hj hother
      by_cases hne : parent = j
      · subst hne
        rw [hr.container]
        simp only [Node.Face.withChildren_nil, Option.map_id']
        rfl
      · exact hr.others j hj hne hother
    have hprint : t.kind? rootId = some .root → r.print = t.print := by
      intro hroot
      refine print_eq_of_face hd hroot fun x hx => ?_
      have hx' : t.contains x = true := Option.isSome_iff_exists.mpr (hx.exists_get? hroot)
      -- A node that came in does not stand below the root of the tree before.
      refine hface x hx' fun hmem => ?_
      obtain ⟨hdetached, hkind⟩ := hfound x hmem hx'
      rcases Relation.ReflTransGen.cases_head hx with rfl | ⟨p, hup, -⟩
      · exact hkind hroot
      · rw [Under, hdetached] at hup
        cases hup
    exact ⟨_, hremoved, hfound, hface, hprint, fun h =>
      (hprint (orderly_of_parse h).rooted).trans (print_of_parse h)⟩
  · -- Nodes that were just made, or found, can be put in, each once.
    intro parent u hu hparent
    have hcontains : ∀ p ∈ some parent, u.contains p = true := by
      rintro p ⟨⟩
      exact hparent
    refine (Ends.of_yields (yields_materialize hu hcontains hm)).mono (fun _ _ => trivial) ?_
    exact fun ids v h => ⟨h.1.consistent hu, h.2.2.1, h.2.2.2 hlists⟩

/-- A declaration and a comment in front of a declaration. -/
def putInFront : Edit :=
  insertBefore ⟨2⟩ (.text "x:y;/*z*/")

/-- They are taken out in the other order. -/
theorem restored_putInFront :
    ∃ t, (parse {} "a\x7bb:c;d:e\x7d\n@f\x7b\x7d" {}).1 = .ok t ∧
      (putInFront.run ⟨t, {}⟩).1 = .ok [⟨5⟩, ⟨6⟩] ∧
      (putInFront.run ⟨t, {}⟩).2.tree.print = "a\x7bx:y;/*z*/b:c;d:e\x7d\n@f\x7b\x7d" ∧
      ∃ r, (forM [⟨6⟩, ⟨5⟩] Editing.remove).runOn (putInFront.run ⟨t, {}⟩).2 = (.ok (), r) ∧
        r.tree.print = "a\x7bb:c;d:e\x7d\n@f\x7b\x7d" := by
  have hread : (parse {} "a\x7bb:c;d:e\x7d\n@f\x7b\x7d" {}).1.toOption.any (fun t =>
      decide ((putInFront.run ⟨t, {}⟩).1 = .ok [⟨5⟩, ⟨6⟩] ∧
        (putInFront.run ⟨t, {}⟩).2.tree.print = "a\x7bx:y;/*z*/b:c;d:e\x7d\n@f\x7b\x7d" ∧
        putInFront.spot? t = some (⟨1⟩, 0) ∧ t.hasBlock ⟨1⟩ = true ∧ ¬ t.isRoot ⟨1⟩ = true)) =
      true := by
    decide +kernel
  cases ht : (parse {} "a\x7bb:c;d:e\x7d\n@f\x7b\x7d" {}).1 with
  | error e => rw [ht] at hread; cases hread
  | ok t =>
    rw [ht] at hread
    obtain ⟨hrun, hput, hspot, hblock, hroot⟩ := of_decide_eq_true hread
    -- Inside a rule nothing depends on which child is the first.
    have hshelter : t.Sheltered ⟨1⟩ 0 := fun h => absurd h hroot
    have hmem : putInFront ∈ [append ⟨2⟩ (.text "x:y;/*z*/"), prepend ⟨2⟩ (.text "x:y;/*z*/"),
        insertBefore ⟨2⟩ (.text "x:y;/*z*/"), insertAfter ⟨2⟩ (.text "x:y;/*z*/")] :=
      List.mem_cons_of_mem _ (List.mem_cons_of_mem _ List.mem_cons_self)
    have horder : [(⟨6⟩ : NodeId), ⟨5⟩].Perm [⟨5⟩, ⟨6⟩] := .swap _ _ []
    obtain ⟨r, hremoved, -, -, -, hprint⟩ := restored (d := ⟨t, {}⟩) (m := .text "x:y;/*z*/")
      (consistent_of_parse ht) trivial rfl hmem hrun hspot hblock hshelter horder
    refine ⟨t, rfl, hrun, hput, r, hremoved, (hprint ht).trans ?_⟩
    decide +kernel

end Edit

end Stylesheet
