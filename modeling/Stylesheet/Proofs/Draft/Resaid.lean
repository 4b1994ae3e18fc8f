import Stylesheet.Proofs.Draft.Places

/-!
# One node that says something else

When a node of a draft says something else, of the same kind, and its formatting stays
(`Detail.Restates`), the text of the draft changes at the place of the node and nowhere else
(`Draft.exists_place_of_restates`). Still all formatting is captured (`Draft.captured_of_restates`).

The node is found by the number that its label comes from: two nodes of a draft may say the same.
-/

namespace Stylesheet

/-- The second node may say something else than the first one. -/
structure Detail.Restates (d d' : Detail) : Prop where
  kind : d'.kind = d.kind
  block : d'.block = d.block
  raws : d'.raws = d.raws

namespace Detail.Restates

variable {d d' : Detail}

theorem refl (d : Detail) : d.Restates d :=
  ⟨rfl, rfl, rfl⟩

theorem before_eq (h : d.Restates d') : d'.before = d.before := by
  rw [Detail.before, Detail.before, h.raws]

theorem isLeaf_eq (h : d.Restates d') : d'.isLeaf = d.isLeaf := by
  have hkind : d'.content.kind = d.content.kind := h.kind
  unfold Detail.isLeaf
  cases hc : d.content <;> cases hc' : d'.content <;> rw [hc, hc'] at hkind <;>
    first | rfl | exact congrArg (!·) h.block | cases hkind

theorem ending_eq (h : d.Restates d') : d'.ending = d.ending := by
  have hkind : d'.content.kind = d.content.kind := h.kind
  unfold Detail.ending
  rw [h.raws]
  cases hc : d.content <;> cases hc' : d'.content <;> rw [hc, hc'] at hkind <;>
    first | rfl | cases hkind

end Detail.Restates

namespace Branch

variable {α β : Type} {f : α → β} {Q : β → List (Branch β) → Prop}

mutual

/-- What holds of the labels of a changed branch, said of the labels before the change. -/
theorem every_of_map :
    ∀ b : Branch α, (b.map f).Every Q → b.Every fun a bs => Q (f a) (bs.map (map f))
  | .node a bs, h => by
    rw [map] at h
    exact .node (mapAll_eq f bs ▸ h.top) (every_of_mapAll bs h.rest)

theorem every_of_mapAll : ∀ bs : List (Branch α), (∀ b ∈ mapAll f bs, b.Every Q) →
    ∀ b ∈ bs, b.Every fun a bs => Q (f a) (bs.map (map f))
  | [], _ => List.forall_mem_nil _
  | b :: bs, h => by
    rw [mapAll, List.forall_mem_cons] at h
    exact List.forall_mem_cons.mpr ⟨every_of_map b h.1, every_of_mapAll bs h.2⟩

end

end Branch

namespace Draft

variable {α : Type} {f f' : α → Detail} {x : α}

theorem any_isComment_of_restates (h : ∀ y, (f y).Restates (f' y)) (bs : List (Branch α)) :
    (Branch.mapAll f' bs).any (fun b => !isComment b) =
      (Branch.mapAll f bs).any (fun b => !isComment b) := by
  rw [Branch.mapAll_eq, Branch.mapAll_eq, List.any_map, List.any_map]
  refine congrArg (bs.any ·) (funext fun b => ?_)
  simp only [Function.comp_apply, isComment, Branch.label_map, (h b.label).kind]

/-! ### What is printed -/

mutual

/-- Where the node is not, nothing is said anew. -/
theorem map_of_not_mem (hoff : ∀ y, y ≠ x → f' y = f y) :
    ∀ b : Branch α, x ∉ b.toList → b.map f' = b.map f
  | .node y kids, hx => by
    rw [Branch.toList, List.mem_cons, not_or] at hx
    rw [Branch.map, Branch.map, hoff y (Ne.symm hx.1), mapAll_of_not_mem hoff kids hx.2]

theorem mapAll_of_not_mem (hoff : ∀ y, y ≠ x → f' y = f y) :
    ∀ bs : List (Branch α), x ∉ Branch.listAll bs → Branch.mapAll f' bs = Branch.mapAll f bs
  | [], _ => rfl
  | b :: bs, hx => by
    rw [Branch.listAll, List.mem_append, not_or] at hx
    rw [Branch.mapAll, Branch.mapAll, map_of_not_mem hoff b hx.1, mapAll_of_not_mem hoff bs hx.2]

end

theorem restates_of_eq (hoff : ∀ y, y ≠ x → f' y = f y) (hx : (f x).Restates (f' x)) (y : α) :
    (f y).Restates (f' y) := by
  by_cases hy : y = x
  · rw [hy]
    exact hx
  · rw [hoff y hy]
    exact .refl _

mutual

/-- The text around the place of the node stays. -/
theorem exists_place_of_restates (hoff : ∀ y, y ≠ x → f' y = f y) (hx : (f x).Restates (f' x))
    (front : String) (closed : Bool) : ∀ b : Branch α, b.toList.Nodup → x ∈ b.toList →
      (b.map f).Every Detail.Captured →
      ∃ c lead back, ⟨front ++ lead, f x, (f x).own c⟩ ∈ places front closed (b.map f) ∧
        text closed (b.map f) = lead ++ (f x).own c ++ back ∧
        text closed (b.map f') = lead ++ (f' x).own c ++ back
  | .node y kids, hnodup, hmem, hcap => by
    rw [Branch.map] at hcap
    rw [Branch.map, Branch.map, places, text, text]
    rw [Branch.toList] at hnodup hmem
    obtain ⟨hy, hkids⟩ := List.nodup_cons.mp hnodup
    rcases List.mem_cons.mp hmem with rfl | hmem
    · rw [hx.isLeaf_eq, mapAll_of_not_mem hoff kids hy, hx.raws, hx.ending_eq]
      refine ⟨closed, "", if (f x).isLeaf then "" else
        textAll ((f x).raws.semicolon.getD false) (Branch.mapAll f kids) ++ (f x).ending, ?_⟩
      rw [String.append_empty, Detail.own, Detail.own, hx.isLeaf_eq]
      split_ifs <;> simp [String.append_assoc]
    · have hne : y ≠ x := fun h => hy (h ▸ hmem)
      rw [hoff y hne]
      cases hleaf : (f y).isLeaf with
      | true =>
        -- A leaf has no children.
        have hnil := hcap.top.eq_nil_of_isLeaf hleaf
        cases kids with
        | nil => cases hmem
        | cons b bs => cases hnil
      | false =>
        obtain ⟨c, lead, back, hplace, htext, htext'⟩ := exists_placeAll_of_restates hoff hx
          (front ++ (f y).heading) ((f y).raws.semicolon.getD false) kids hkids hmem hcap.rest
        refine ⟨c, (f y).heading ++ lead, back ++ (f y).ending, List.mem_cons_of_mem _ ?_, ?_, ?_⟩
        · rw [← String.append_assoc]
          exact hplace
        · simp [htext, String.append_assoc]
        · simp [htext', String.append_assoc]

theorem exists_placeAll_of_restates (hoff : ∀ y, y ≠ x → f' y = f y) (hx : (f x).Restates (f' x))
    (front : String) (closesLast : Bool) : ∀ bs : List (Branch α), (Branch.listAll bs).Nodup →
      x ∈ Branch.listAll bs → (∀ b ∈ Branch.mapAll f bs, b.Every Detail.Captured) →
      ∃ c lead back,
        ⟨front ++ lead, f x, (f x).own c⟩ ∈ placesAll front closesLast (Branch.mapAll f bs) ∧
        textAll closesLast (Branch.mapAll f bs) = lead ++ (f x).own c ++ back ∧
        textAll closesLast (Branch.mapAll f' bs) = lead ++ (f' x).own c ++ back
  | [], _, hmem, _ => absurd hmem List.not_mem_nil
  | b :: bs, hnodup, hmem, hcap => by
    have hrestates := restates_of_eq hoff hx
    rw [Branch.listAll] at hnodup hmem
    obtain ⟨hb, hbs, hdisjoint⟩ := List.nodup_append.mp hnodup
    rw [Branch.mapAll] at hcap
    rw [Branch.mapAll, Branch.mapAll, placesAll, textAll, textAll,
      any_isComment_of_restates hrestates bs, Branch.label_map, Branch.label_map,
      (hrestates b.label).before_eq]
    generalize ((Branch.mapAll f bs).any (fun b => !isComment b) || closesLast) = closed
    -- The node lies in the first branch or in the others; the part without it prints as before.
    by_cases hmemb : x ∈ b.toList
    · rw [mapAll_of_not_mem hoff bs fun hx => hdisjoint x hmemb x hx rfl]
      obtain ⟨c, lead, back, hplace, htext, htext'⟩ := exists_place_of_restates hoff hx
        (front ++ (f b.label).before) closed b hb hmemb (hcap _ List.mem_cons_self)
      refine ⟨c, (f b.label).before ++ lead, back ++ textAll closesLast (Branch.mapAll f bs),
        List.mem_append_left _ ?_, ?_, ?_⟩
      · rw [← String.append_assoc]
        exact hplace
      · simp only [htext, String.append_assoc]
      · simp only [htext', String.append_assoc]
    · rw [map_of_not_mem hoff b hmemb]
      obtain ⟨c, lead, back, hplace, htext, htext'⟩ := exists_placeAll_of_restates hoff hx
        (front ++ (f b.label).before ++ text closed (b.map f)) closesLast bs hbs
        ((List.mem_append.mp hmem).resolve_left hmemb)
        (fun b' hb' => hcap b' (List.mem_cons_of_mem _ hb'))
      refine ⟨c, (f b.label).before ++ text closed (b.map f) ++ lead, back,
        List.mem_append_right _ ?_, ?_, ?_⟩
      · simpa only [String.append_assoc] using hplace
      · simp only [htext, String.append_assoc]
      · simp only [htext', String.append_assoc]

end

/-! ### What is captured -/

theorem captured_of_restates (h : ∀ y, (f y).Restates (f' y)) {b : Branch α}
    (hcap : (b.map f).Every Detail.Captured) : (b.map f').Every Detail.Captured := by
  refine (Branch.every_of_map b hcap).map fun y kids hy => ?_
  have hnil : kids.map (Branch.map f') ≠ [] → kids.map (Branch.map f) ≠ [] := by
    cases kids with
    | nil => exact fun hne => absurd rfl hne
    | cons b bs => exact fun _ => List.cons_ne_nil _ _
  -- Both maps keep the shape, so there are children in the one when there are in the other.
  have hempty : (kids.map (Branch.map f')).isEmpty = (kids.map (Branch.map f)).isEmpty := by
    cases kids <;> rfl
  have hkind : (f' y).kind = (f y).kind := (h y).kind
  exact {
    block := fun hne => (h y).block.trans (hy.block (hnil hne))
    canOwn := fun hblock => hkind ▸ hy.canOwn ((h y).block ▸ hblock)
    nested := List.forall_mem_map.mpr fun b hb => by
      have hb := hy.nested _ (List.mem_map_of_mem hb)
      rw [Branch.label_map] at hb ⊢
      exact (h b.label).kind ▸ hb
    before := List.forall_mem_map.mpr fun b hb => by
      have hb := hy.before _ (List.mem_map_of_mem hb)
      rw [Branch.label_map] at hb ⊢
      exact (h b.label).raws ▸ hb
    between := by rw [hkind, (h y).block, (h y).raws]; exact hy.between
    after := by rw [hkind, (h y).block, (h y).raws]; exact hy.after
    semicolon := by rw [(h y).isLeaf_eq, (h y).raws, hempty]; exact hy.semicolon
    marks := by rw [hkind, (h y).raws]; exact hy.marks }

end Draft

end Stylesheet
