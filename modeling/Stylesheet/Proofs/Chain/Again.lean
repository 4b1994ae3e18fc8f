import Stylesheet.Proofs.Chain.Starts

/-!
# A stylesheet that is read again

A stylesheet that was printed, with a comment behind it that names its map, is read again. The
comment is taken out, unless it became a part of the last node. What is left is the stylesheet that
was read first, as far as the starts of its nodes are concerned (`Tree.Rereads`).
-/

namespace Stylesheet

open Text

namespace Tree

/-- The tree `u` is read from a text that starts with the text of `t`, and its nodes are nodes of
`t`, under the same numbers. -/
structure Rereads (t u : Tree) (i : Input) (b : Draft) : Prop where
  holds : u.HoldsRead b
  places : ∀ place ∈ Draft.places "" false b, place.detail.kind ≠ .root →
    ∃ front rest columns, i.css = front ++ rest ∧ place.detail.ReadBehind front rest columns ∧
      Spot.behind place.front = (Spot.behind front).right columns
  nodes : ∀ x n, u.get? x = some n → u.Attached x → x ≠ rootId →
    ∃ n₁, t.get? x = some n₁ ∧ n₁.detail.StartsLike n.detail
  input : u.inputs[0]? = some i

theorem namesMap_of_get? {t u : Tree} {x : NodeId} (h : t.get? x = u.get? x) :
    t.namesMap x = u.namesMap x := by
  rw [namesMap, namesMap, h]

/-- Only comments name maps. -/
theorem namesMap_of_kind {t : Tree} {x : NodeId} {n : Node} (hn : t.get? x = some n)
    (hkind : n.detail.kind ≠ .comment) : t.namesMap x = false := by
  rw [namesMap, hn, Option.bind_some, Node.content]
  cases hc : n.detail.content with
  | comment text => exact absurd (by rw [Detail.kind, hc]; rfl) hkind
  | _ => rfl

theorem exists_succ_of_ne_rootId {x : NodeId} (h : x ≠ rootId) : ∃ k, x = ⟨k + 1⟩ := by
  obtain ⟨index⟩ := x
  cases index with
  | zero => exact absurd rfl h
  | succ k => exact ⟨k, rfl⟩

variable {i i' : Input} {d d' : Detail} {kids : List Draft}

/-- The children in front of the last one have the same nodes in both trees. -/
theorem get?_of_mem_numbers (more more' : List Draft) {x : NodeId} (hx : x ∈ numbers 1 kids) :
    (ofDraft i (.node d (kids ++ more))).get? x =
      (ofDraft i' (.node d' (kids ++ more'))).get? x := by
  obtain ⟨hle, hlt⟩ := bounds_of_mem_numbers hx
  obtain ⟨k, rfl⟩ := exists_succ_of_ne_rootId (x := x) (by rintro rfl; cases hle)
  have hlt' : k + 1 < 1 + Branch.sizeAll kids := hlt
  exact get?_ofDraft_front i i' d d' kids more more' (by omega)

theorem children_concat (i : Input) (d : Detail) (kids : List Draft) (b : Draft) :
    (ofDraft i (.node d (kids ++ [b]))).children rootId =
      numbers 1 kids ++ [⟨Branch.sizeAll kids + 1⟩] := by
  rw [children_ofDraft, numbers_append, Nat.add_comm 1]
  rfl

theorem sizeAll_concat (bs : List Draft) (b : Draft) :
    Branch.sizeAll (bs ++ [b]) = Branch.sizeAll bs + b.size := by
  induction bs with
  | nil => simp [Branch.sizeAll]
  | cons a bs ih =>
    rw [List.cons_append, Branch.sizeAll, Branch.sizeAll, ih, Nat.add_assoc]

/-! ### A comment of its own -/

/-- The root without its last child is captured and firm, when all the others are. -/
theorem root_of_concat {c : Draft} (hroot : d.kind = .root) (hroot' : d'.kind = .root)
    (hsemicolon : d'.raws.semicolon = d.raws.semicolon) (hcaptured : d.Captured kids)
    (hcaptured' : d'.Captured (kids ++ [c])) (hfirm : d.Firm kids) :
    d'.Captured kids ∧ d'.Firm kids := by
  -- Most clauses speak of kinds that a root is not.
  have hne : ∀ kind : NodeKind, kind ≠ .root → d'.kind ≠ kind := by
    rintro kind hkind rfl
    exact hkind hroot'
  have hleaf := Detail.isLeaf_of_root hroot
  refine ⟨⟨⟨?_, hcaptured'.canOwn, hcaptured.nested⟩, hcaptured.before, ?_, ?_, ?_, ?_⟩, ?_, ?_, ?_⟩
  · exact fun _ => hcaptured'.block (by simp)
  · rintro (h | h | ⟨h, -⟩) <;> exact absurd h (hne _ (by decide))
  · rintro (h | ⟨h, -⟩) <;> exact absurd h (hne _ (by decide))
  · intro _
    rw [hsemicolon]
    exact hcaptured.semicolon hleaf
  · exact fun h => absurd h (hne _ (by decide))
  · exact fun h => absurd h (hne _ (by decide))
  · exact fun h => absurd h (hne _ (by decide))
  · rw [hsemicolon]
    exact hfirm.kids

/-- Below the root, the places are those of the children. -/
theorem mem_places_root (hroot : d.kind = .root) {place : Draft.Place}
    (hne : place.detail.kind ≠ .root) : place ∈ Draft.places "" false (.node d kids) ↔
      place ∈ Draft.placesAll "" (d.raws.semicolon.getD false) kids := by
  rw [Draft.places, Detail.heading_of_root hroot, List.mem_cons, String.empty_append, or_iff_right]
  rintro rfl
  exact hne hroot

/-- The comment at the end of a stylesheet is taken out when it is the only one that names a map. -/
theorem leftOf_of_comment {c : Detail} {comment : String}
    (ht' : (ofDraft i' (.node d' (kids ++ [.node c []]))).Consistent)
    (hcontent : c.content = .comment comment)
    (hcomment : comment.startsWith "# sourceMappingURL=" = true)
    (hlinks : ∀ x ∈ (ofDraft i (.node d kids)).children rootId,
      (ofDraft i (.node d kids)).namesMap x = false) :
    LeftOf (ofDraft i' (.node d' (kids ++ [.node c []])))
      (ofDraft i' (.node d' (kids ++ [.node c []]))).withoutLinks (.node d' kids)
      ⟨Branch.sizeAll kids + 1⟩ := by
  refine leftOf_withoutLinks ht' (holds_ofDraft i' _) (children_concat ..) ?_ fun x hx => ?_
  · rw [namesMap, get?_ofDraft_last, Option.bind_some, Node.content, hcontent]
    exact hcomment
  · have hsame : (ofDraft i (.node d (kids ++ []))).get? x =
        (ofDraft i' (.node d' (kids ++ [.node c []]))).get? x := get?_of_mem_numbers _ _ hx
    rw [List.append_nil] at hsame
    rw [← namesMap_of_get? hsame]
    refine hlinks x ?_
    rwa [children_ofDraft]

/-- Nothing stands in a tree without children. -/
theorem eq_rootId_of_holds {t : Tree} {x : NodeId} (ht : t.Consistent)
    (hold : t.Holds none rootId (.node d [])) (hx : t.Attached x) : x = rootId := by
  obtain ⟨n, hn, -, -, hnil⟩ := hold
  rcases Relation.ReflTransGen.cases_tail hx with heq | ⟨y, -, hy⟩
  · exact heq.symm
  · have hmem := ht.mem_children_iff.mpr hy
    have hlist : t.children rootId = n.children := by rw [children, hn]; rfl
    rw [hlist, show n.children = [] from hnil] at hmem
    exact absurd hmem List.not_mem_nil

/-- A node that still stands in the tree without the comment is one of those in front of it. -/
theorem lt_of_attached_leftOf {u : Tree} {c : Detail} {k : Nat} {n : Node}
    (hleft : LeftOf (ofDraft i' (.node d' (kids ++ [.node c []]))) u (.node d' kids)
      ⟨Branch.sizeAll kids + 1⟩)
    (hn : (ofDraft i' (.node d' (kids ++ [.node c []]))).get? ⟨k + 1⟩ = some n)
    (hx : u.Attached ⟨k + 1⟩) : k < Branch.sizeAll kids := by
  -- The comment has no parent any more.
  have hk : k ≠ Branch.sizeAll kids := by
    rintro rfl
    rcases Relation.ReflTransGen.cases_head hx with heq | ⟨parent, hparent, -⟩
    · cases heq
    · exact absurd (hleft.gone.symm.trans hparent) (Option.some_ne_none _).symm
  have hsize := (Array.getElem?_eq_some_iff.mp hn).1
  change k + 1 < _ at hsize
  rw [size_ofDraft, Branch.size, sizeAll_concat, Branch.size, Branch.sizeAll] at hsize
  omega

/-- A stylesheet with a comment behind it that names a map: what is left without the comment. -/
theorem rereads_of_comment {r : Trailer} (hlines : i.lines = LineIndex.ofText i.css.toList)
    (hcss : i'.css = i.css ++ r.text) (hb : outlineText i.position i.css = .ok (.node d kids))
    {c : Detail} (hread' : (ofDraft i' (.node d' (kids ++ [.node c []]))).HoldsRead
      (.node d' (kids ++ [.node c []])))
    (hleft : LeftOf (ofDraft i' (.node d' (kids ++ [.node c []])))
      (ofDraft i' (.node d' (kids ++ [.node c []]))).withoutLinks (.node d' kids)
      ⟨Branch.sizeAll kids + 1⟩)
    (hsemicolon : d'.raws.semicolon = d.raws.semicolon) :
    (ofDraft i (.node d kids)).Rereads
      (ofDraft i' (.node d' (kids ++ [.node c []]))).withoutLinks i' (.node d' kids) := by
  set t' := ofDraft i' (.node d' (kids ++ [.node c []])) with ht'
  have hread := holdsRead_ofDraft hlines hb
  have hroot : d.kind = .root := hread.root
  have hroot' : d'.kind = .root := hread'.root
  obtain ⟨hcaptured, hfirm⟩ := root_of_concat hroot hroot' hsemicolon hread.captured.top
    hread'.captured.top hread.firm.top
  have hrestored : ∀ x n, t'.withoutLinks.get? x = some n →
      ∃ n', t'.get? x = some n' ∧ n'.detail = n.detail := by
    intro x n hn
    have := hleft.details x
    rw [hn] at this
    exact Option.map_eq_some_iff.mp this.symm
  refine ⟨⟨hleft.consistent, hleft.holds, ?_, hroot', .node hcaptured hread.captured.rest,
    .node hfirm hread.firm.rest, ?_⟩, ?_, ?_, ?_⟩
  · -- The node of the comment was the last one.
    have hsize : t'.nodes.size = (Branch.node d' (kids ++ [.node c []]) : Draft).size :=
      size_ofDraft i' _
    rw [hleft.size, hsize, Branch.size, Branch.size, sizeAll_concat]
    omega
  · intro x n s hn hs
    obtain ⟨n', hn', hdetail⟩ := hrestored x n hn
    rw [hleft.inputs]
    refine hread'.inputs x n' s hn' ?_
    rw [Node.source, hdetail]
    exact hs
  · -- A place of the stylesheet stays where it is, as the comment is behind it.
    intro place hplace hkind
    have hplaces : place ∈ Draft.places "" false (.node d kids) := by
      rw [mem_places_root hroot' hkind, hsemicolon] at hplace
      rwa [mem_places_root hroot hkind]
    obtain ⟨front, rest, columns, hsplit, hbehind, hspot⟩ :=
      Draft.readBehind_of_mem_places hlines hb hplaces
    refine ⟨front, rest ++ r.text, columns, ?_, hbehind.append r.startsLine_text, hspot⟩
    rw [hcss, hsplit, String.append_assoc]
  · -- A node that is left has the same number in both trees.
    intro x n hn hx hne
    obtain ⟨n', hn', hdetail⟩ := hrestored x n hn
    obtain ⟨k, rfl⟩ := exists_succ_of_ne_rootId hne
    have hlt := lt_of_attached_leftOf hleft hn' hx
    have hsame := get?_ofDraft_front i i' d d' kids [] [.node c []] hlt
    rw [List.append_nil] at hsame
    refine ⟨n', hsame.trans hn', ?_⟩
    rw [hdetail]
    exact n.detail.startsLike_refl
  · rw [hleft.inputs]
    rfl

/-! ### A comment that became a part of a node -/

/-- A stylesheet whose last node takes the comment in. -/
theorem rereads_of_leaf (hlines' : i'.lines = LineIndex.ofText i'.css.toList) {e e' : Detail}
    (hb' : outlineText i'.position i'.css = .ok (.node d' (kids ++ [.node e' []])))
    (hresumes : e.Resumes e')
    (hlinks : ∀ x ∈ (ofDraft i (.node d (kids ++ [.node e []]))).children rootId,
      (ofDraft i (.node d (kids ++ [.node e []]))).namesMap x = false) :
    (ofDraft i (.node d (kids ++ [.node e []]))).Rereads
      (ofDraft i' (.node d' (kids ++ [.node e' []]))).withoutLinks i'
      (.node d' (kids ++ [.node e' []])) := by
  set t := ofDraft i (.node d (kids ++ [.node e []])) with ht
  set t' := ofDraft i' (.node d' (kids ++ [.node e' []])) with ht'
  have hlast := get?_ofDraft_last i d e kids
  have hlast' := get?_ofDraft_last i' d' e' kids
  -- The new last node is no comment, and the other children read as they did: no link is removed.
  have hself : t'.withoutLinks = t' := by
    refine withoutLinks_eq_self fun x hx => ?_
    rw [ht', children_concat, List.mem_append, List.mem_singleton] at hx
    rcases hx with hx | rfl
    · rw [← namesMap_of_get? (get?_of_mem_numbers [.node e []] [.node e' []] hx)]
      refine hlinks x ?_
      rw [ht, children_concat]
      exact List.mem_append_left _ hx
    · exact namesMap_of_kind hlast' (by rw [hresumes.kind]; exact hresumes.noComment)
  rw [hself]
  refine ⟨holdsRead_ofDraft hlines' hb', fun place hplace _ => ?_, fun x n hn _ hne => ?_, rfl⟩
  · exact Draft.readBehind_of_mem_places hlines' hb' hplace
  · obtain ⟨k, rfl⟩ := exists_succ_of_ne_rootId hne
    have hle : k ≤ Branch.sizeAll kids := by
      have hsize : k + 1 < t'.nodes.size := (Array.getElem?_eq_some_iff.mp hn).1
      rw [size_ofDraft, Branch.size, sizeAll_concat, Branch.size, Branch.sizeAll] at hsize
      omega
    -- Everything in front of the last node is read the same way; the last one starts the same way.
    rcases Nat.lt_or_eq_of_le hle with hlt | rfl
    · have hsame := get?_ofDraft_front i i' d d' kids [.node e []] [.node e' []] hlt
      exact ⟨n, hsame.trans hn, n.detail.startsLike_refl⟩
    · refine ⟨_, hlast, ?_⟩
      rw [hlast'] at hn
      cases hn
      exact hresumes.startsLike

/-! ### Both -/

/-- A stylesheet that goes on with a comment that names a map. -/
theorem rereads_of_extends {r : Trailer} (hlines : i.lines = LineIndex.ofText i.css.toList)
    (hlines' : i'.lines = LineIndex.ofText i'.css.toList) (hcss : i'.css = i.css ++ r.text)
    {b b' : Draft} (hb : outlineText i.position i.css = .ok b)
    (hb' : outlineText i'.position i'.css = .ok b') {comment : String}
    (hextends : Draft.Extends comment b b')
    (hcomment : comment.startsWith "# sourceMappingURL=" = true)
    (hlinks : ∀ x ∈ (ofDraft i b).children rootId, (ofDraft i b).namesMap x = false) :
    (∃ c, (ofDraft i b).Rereads (ofDraft i' b').withoutLinks i' c) ∨
      ∀ x, (ofDraft i' b').withoutLinks.Attached x → x = rootId := by
  cases hextends with
  | @comment d d' c kids hcontent hsemicolon =>
    have hread' := holdsRead_ofDraft hlines' hb'
    have hleft := leftOf_of_comment hread'.consistent hcontent hcomment hlinks
    cases kids with
    | nil => exact Or.inr fun x => eq_rootId_of_holds hleft.consistent hleft.holds
    | cons a kids =>
      have hsame := hsemicolon (List.cons_ne_nil a kids)
      exact Or.inl ⟨_, rereads_of_comment hlines hcss hb hread' hleft hsame⟩
  | leaf h =>
    obtain ⟨hresumes⟩ := h
    exact Or.inl ⟨_, rereads_of_leaf hlines' hb' hresumes hlinks⟩

end Tree

end Stylesheet
