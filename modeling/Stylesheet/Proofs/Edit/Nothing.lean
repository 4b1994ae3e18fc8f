import Stylesheet.Proofs.Edit.Spliced
import Stylesheet.Proofs.Outline.Read
import Stylesheet.Proofs.Token.Spelling

/-!
# Inserting nothing

An empty list, a text of white space and a tree without nodes are no nodes to be inserted. An
insertion of nothing leaves all nodes as they are, with two exceptions (`Edit.faces_of_nothing`). A
container at whose end something is to be put gets its block first, and the first node of a
stylesheet is displaced even if nothing is put in front of it.
-/

namespace Stylesheet

open Text

/-! ### Blank texts -/

/-- White space is one token. -/
theorem lex_of_blank {css : String} (h : css.toList.all isSpace = true) :
    lex false css = ([], none) ∨ ∃ t, t.kind = .space ∧ lex false css = ([t], none) := by
  rw [lex]
  cases hcs : css.toList with
  | nil =>
    rw [lexFrom]
    exact Or.inl rfl
  | cons c cs =>
    rw [hcs, List.all_cons, Bool.and_eq_true, List.all_eq_true] at h
    obtain ⟨hc, hcs⟩ := h
    -- White space is one token, however long it is.
    have hcut : cutToken false (([] : List String).head?.getD "") c cs =
        .ok ⟨.space, ⟨c :: cs, []⟩⟩ := by
      rw [cutToken_of_isSpace hc, cutWhile, List.takeWhile_eq_self_iff.mpr hcs,
        List.dropWhile_eq_nil_iff.mpr hcs]
    rw [lexFrom_of_ok hcut, lexFrom]
    exact Or.inr ⟨_, rfl, rfl⟩

/-- Blanks alone are read as a root without children. -/
theorem outlineText_of_blank {locate : Nat → Position} {css : String} {b : Draft}
    (h : css.toList.all isSpace = true) (hb : outlineText locate css = .ok b) :
    ∃ d, b = .node d [] := by
  rw [outlineText] at hb
  -- A blank text has no token, or one of white space; neither makes a node.
  rcases lex_of_blank h with hlex | ⟨t, ht, hlex⟩
  · rw [hlex] at hb
    dsimp only at hb
    rw [statementsFrom] at hb
    cases hb
    exact ⟨_, rfl⟩
  · have hnext : nextStatement none t [] = .ok (.space t, []) := by rw [nextStatement, ht]
    rw [hlex] at hb
    dsimp only at hb
    rw [statementsFrom_of_ok hnext, statementsFrom] at hb
    cases hb
    exact ⟨_, rfl⟩

/-- So nothing is inserted for a text of blanks. -/
theorem children_of_blank {w : Workspace} {css : String} {options : ParseOptions} {t : Tree}
    (h : css.toList.all isSpace = true) (ht : (parse w css options).1 = .ok t) :
    t.children Tree.rootId = [] := by
  obtain ⟨input, b, hcss, hb, rfl⟩ := parse_eq_ok ht
  have hbom : css.toList.head? ≠ some '\uFEFF' := fun hhead =>
    absurd (List.all_eq_true.mp h _ (List.mem_of_head? hhead)) (by decide)
  rw [hcss, Input.stripBom_of_false (Input.stripBom_eq_self_iff.mpr hbom)] at hb
  obtain ⟨d, rfl⟩ := outlineText_of_blank h hb
  rfl

/-- Whether there are no nodes in what is to be inserted. -/
def Material.isNothing : Material → Bool
  | .nodes ids => ids.isEmpty
  | .bags list => list.isEmpty
  | .text css => css.toList.all isSpace
  | .tree other _ => (other.children Tree.rootId).isEmpty
  | _ => false

namespace Editing

open Stylesheet.Tree

/-- Nothing is made into no nodes. -/
theorem ends_materialize_nothing {m : Material} (hm : m.isNothing = true) (parent : Option NodeId)
    (t : Tree) : Ends (materialize parent m) t (fun _ => True) fun ids _ => ids = [] := by
  cases m with
  | node | bag => cases hm
  | nodes ids =>
    obtain rfl := List.isEmpty_iff.mp hm
    rw [materialize, List.mapM_nil]
    exact .pure rfl
  | bags bags =>
    obtain rfl := List.isEmpty_iff.mp hm
    rw [materialize, List.mapM_nil]
    exact .pure rfl
  -- A blank text is read like any other, and the tree that comes out has no children to take.
  | text css =>
    rw [materialize]
    refine .bind (R := fun other _ => other.children rootId = [])
      (.parsed css {} trivial fun w other h => children_of_blank hm h) fun other u hother => ?_
    refine .changeGet ?_
    rw [importText, textDrafts, hother]
    rfl
  | tree other shared =>
    rw [materialize]
    refine .changeGet ?_
    rw [importTree, List.isEmpty_iff.mp hm]
    rfl

end Editing

namespace Tree

variable {t u v : Tree} {parent j : NodeId} {place : Nat}

namespace Spliced

/-- When nothing is put into a list, only a node that is displaced can change. -/
theorem face_nil (h : t.Spliced u parent place []) (hself : parent ∉ t.children parent)
    (hne : t.displaced? parent place ≠ some j) : u.face j = t.face j := by
  have hnone : ∀ c : NodeId, c ∉ [] := fun _ => List.not_mem_nil
  by_cases hp : parent = j
  · subst hp
    rw [h.face_parent (fun c _ => hnone c) (hnone parent) hself]
    simp only [Node.Face.withChildren_nil, Option.map_id']
  · rw [h.face_of_ne (fun c _ => hnone c) (hnone parent) hp (hnone j), if_neg hne]

/-- The node that was first takes over what the second one has in front of it. -/
theorem face_nil_displaced (h : t.Spliced u parent place []) (hne : parent ≠ j)
    (hj : t.displaced? parent place = some j) :
    u.face j = (t.face j).map (·.withBefore (t.secondBefore? parent)) := by
  have hnone : ∀ c : NodeId, c ∉ [] := fun _ => List.not_mem_nil
  rw [h.face_of_ne (fun c _ => hnone c) (hnone parent) hne (hnone j), if_pos hj]

end Spliced

/-- Only a child can be displaced. -/
theorem mem_children_of_displaced? (h : t.displaced? parent place = some j) :
    j ∈ t.children parent := by
  rw [displaced?] at h
  split_ifs at h
  exact List.mem_of_head? h

theorem SameLists.displaced?_eq (h : t.SameLists u) (parent : NodeId) (place : Nat) :
    u.displaced? parent place = t.displaced? parent place := by
  rw [displaced?, displaced?, first?, first?, isRoot, isRoot, h.kind, h.children]

/-- Nodes that are made on the way displace nothing. -/
theorem Intact.displaced?_eq (h : t.Intact u) (hparent : t.contains parent = true) (place : Nat) :
    u.displaced? parent place = t.displaced? parent place := by
  rw [displaced?, displaced?, first?, first?, isRoot, isRoot, kind?, kind?, children, children,
    h parent hparent]

theorem Intact.secondBefore?_eq (h : t.Intact u) (hparent : t.contains parent = true)
    (hlist : ∀ c ∈ t.children parent, t.contains c = true) :
    u.secondBefore? parent = t.secondBefore? parent := by
  rw [secondBefore?, secondBefore?, children, h parent hparent, ← children]
  cases hc : (t.children parent)[1]? with
  | none => rfl
  | some c =>
    have hcontains := hlist c (List.mem_of_getElem? hc)
    rw [Option.bind_some, Option.bind_some, before?, before?, h c hcontains]

end Tree

namespace Edit

open Stylesheet.Tree Editing

/-- A block that is opened has no nodes in it. -/
theorem secondBefore?_opened (e : Edit) (t : Tree) (parent : NodeId) :
    (e.opened t).secondBefore? parent = t.secondBefore? parent := by
  rw [secondBefore?, secondBefore?, before?_opened, (sameLists_opened e t).children]

theorem face_opened_of_ne {e : Edit} {t : Tree} {j : NodeId} (h : ∀ p ∈ e.container?, p ≠ j) :
    (e.opened t).face j = t.face j := by
  rw [face, get?_opened, if_neg fun hj => h j hj.1 rfl]
  rfl

/-- An insertion of nothing, or of what turns out to be no nodes, leaves every node as it was when
the making began, with one exception: what stood in front of the second node of a stylesheet now
stands in front of the first one as well, if it was in front of this one that nothing was inserted.
The text is the same unless that node, or a block that was opened, makes the difference. -/
theorem faces_of_nothing {d : Desk} (hd : d.tree.Consistent) {target : NodeId} {m : Material}
    {e : Edit} (he : e ∈ [append target m, prepend target m, insertBefore target m,
      insertAfter target m]) {ids : List NodeId} (hrun : (e.run d).1 = .ok ids)
    (hnothing : m.isNothing = true ∨ ids = []) :
    let t := d.tree
    let u := (e.run d).2.tree
    ids = [] ∧ ∃ parent place, e.spot? t = some (parent, place) ∧
      (∀ j, t.contains j = true → t.displaced? parent place ≠ some j →
        u.face j = (e.opened t).face j) ∧
      (∀ j, t.displaced? parent place = some j →
        u.face j = (t.face j).map (·.withBefore (t.secondBefore? parent))) ∧
      (t.kind? rootId = some .root → (∀ p ∈ e.container?, t.lacksBlock p = false) →
        (∀ j, t.displaced? parent place = some j → t.before? j = t.secondBefore? parent) →
        u.print = t.print) := by
  intro t u
  have hends := ends_splicedAt hd he (R := fun _ ids _ => m.isNothing = true → ids = []) ?_
  · obtain ⟨parent, place, v, hspot, hparent, hintact, hids, hspliced⟩ := hends.of_ok hrun
    obtain rfl : ids = [] := hnothing.elim hids id
    have hopened := sameLists_opened e t
    have hcontains : (e.opened t).contains parent = true := by
      rw [hopened.contains]
      exact hparent
    have hlist : ∀ c ∈ (e.opened t).children parent, (e.opened t).contains c = true := by
      rw [hopened.children, hopened.contains]
      exact hd.contains parent
    have hself : parent ∉ v.children parent := by
      rw [children, hintact parent hcontains, ← children, hopened.children]
      exact hd.not_mem_children_self parent
    have hdisplaced : v.displaced? parent place = t.displaced? parent place := by
      rw [hintact.displaced?_eq hcontains, hopened.displaced?_eq]
    have hstay : ∀ j, t.contains j = true → t.displaced? parent place ≠ some j →
        u.face j = (e.opened t).face j := by
      intro j hj hne
      exact (hspliced.face_nil hself (hdisplaced ▸ hne)).trans
        (hintact.face ((contains_opened e t j).trans hj))
    have hfirst : ∀ j, t.displaced? parent place = some j →
        u.face j = (t.face j).map (·.withBefore (t.secondBefore? parent)) := by
      intro j hj
      have hmem := mem_children_of_displaced? hj
      have hne : parent ≠ j := by
        rintro rfl
        exact hd.not_mem_children_self parent hmem
      have hother : ∀ p ∈ e.container?, p ≠ j := fun p hp =>
        (container?_eq_of_spot? hp hspot) ▸ hne
      refine (hspliced.face_nil_displaced hne (hdisplaced.trans hj)).trans ?_
      rw [hintact.secondBefore?_eq hcontains hlist, secondBefore?_opened,
        hintact.face ((contains_opened e t j).trans (hd.contains parent j hmem)),
        face_opened_of_ne hother]
    refine ⟨rfl, parent, place, hspot, hstay, hfirst, fun hroot hlacks hbefore => ?_⟩
    refine print_eq_of_face hd hroot fun x hx => ?_
    obtain ⟨n, hn⟩ := hx.exists_get? hroot
    -- Only the displaced node could have other text in front of it.
    by_cases hj : t.displaced? parent place = some x
    · have hsame := hbefore x hj
      rw [before?, hn] at hsame
      rw [hfirst x hj, face, hn, ← hsame]
      rfl
    · have hstays := hstay x (Option.isSome_iff_exists.mpr ⟨n, hn⟩) hj
      rwa [opened_eq_self hlacks] at hstays
  · -- What is made of nothing is no node, so both reasons come to one.
    intro parent u hu hparent
    by_cases hm : m.isNothing = true
    · exact (ends_materialize_nothing hm (some parent) u).mono (fun _ h => h) fun _ _ h _ => h
    · intro w
      split
      · exact fun h => absurd h hm
      · trivial

/-- Two rules, the second one on a line of its own. -/
def rulesOnLines : Desk :=
  .ofText "a\x7b\x7d\nb\x7b\x7d"

/-- Between two nodes, no bags leave the text as it is. -/
theorem faces_of_nothing_rulesOnLines :
    let e := insertBefore ⟨2⟩ (.bags [])
    (e.run rulesOnLines).1 = .ok [] ∧
      (e.run rulesOnLines).2.tree.print = "a\x7b\x7d\nb\x7b\x7d" := by
  intro e
  have hrun : (e.run rulesOnLines).1 = .ok [] := by decide +kernel
  have hmem : e ∈ [append ⟨2⟩ (.bags []), prepend ⟨2⟩ (.bags []), insertBefore ⟨2⟩ (.bags []),
      insertAfter ⟨2⟩ (.bags [])] :=
    List.mem_cons_of_mem _ (List.mem_cons_of_mem _ List.mem_cons_self)
  obtain ⟨-, parent, place, hspot, -, -, hprint⟩ :=
    faces_of_nothing (orderly_ofText _).consistent hmem hrun (Or.inl rfl)
  have hspot' : e.spot? rulesOnLines.tree = some (rootId, 1) := by decide +kernel
  -- Second place: the first rule is not displaced, so the text stays.
  obtain ⟨rfl, rfl⟩ := Prod.mk.inj (Option.some.inj (hspot.symm.trans hspot'))
  refine ⟨hrun, (hprint (by decide +kernel) nofun fun j hj => ?_).trans (by decide +kernel)⟩
  rw [displaced?, if_neg fun h => Nat.one_ne_zero h.2] at hj
  cases hj

/-- In front of the first node, a text without any character moves the line break that stands in
front of the second node to the beginning. -/
theorem line_break_gained :
    ¬ ∀ (e : Edit) (d : Desk) (target : NodeId) (m : Material),
      e ∈ [append target m, prepend target m, insertBefore target m, insertAfter target m] →
        d.tree.Consistent → m.isNothing = true → (e.run d).1 = .ok [] →
          (e.run d).2.tree.print = d.tree.print := by
  intro h
  have hprint := h (prepend rootId (.text "")) rulesOnLines rootId (.text "")
    (List.mem_cons_of_mem _ List.mem_cons_self) (orderly_ofText _).consistent rfl
    (by decide +kernel)
  have hbefore : rulesOnLines.tree.print = "a\x7b\x7d\nb\x7b\x7d" := by decide +kernel
  have hafter : ((prepend rootId (.text "")).run rulesOnLines).2.tree.print =
      "\na\x7b\x7d\nb\x7b\x7d" := by
    decide +kernel
  rw [hbefore, hafter] at hprint
  exact absurd hprint (by decide)

end Edit

end Stylesheet
