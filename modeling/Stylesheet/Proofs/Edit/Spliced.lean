import Stylesheet.Proofs.Edit.Intact
import Stylesheet.Proofs.Edit.Put

/-!
# What an insertion does to nodes that were there

The four insertions put nodes into a list in the same way. They differ in the place and in the
sample, the sibling that new nodes take their formatting from (`Edit.ends_settledAt`).

For the nodes that were there the sample counts only where it is displaced: when something is put in
front of the first node of a stylesheet (`Tree.Spliced`). All others keep their faces, but for the
list of the container (`Tree.Spliced.face_of_ne`, `Tree.Spliced.face_parent`).
-/

namespace Stylesheet

namespace Tree

variable {t u : Tree} {parent j : NodeId} {place : Nat} {ids : List NodeId}

/-- Nodes have settled in and were put into the list of `parent`. When a sample stands behind them,
it is the first node of the list. -/
def Spliced (t u : Tree) (parent : NodeId) (place : Nat) (ids : List NodeId) : Prop :=
  ∃ sample inFront move,
    (if inFront = true then sample else none) = (if place = 0 then t.first? parent else none) ∧
      u = (t.settle parent sample inFront ids).splice parent place ids move

namespace Spliced

/-- The container has the nodes in its list now. -/
theorem face_parent (h : t.Spliced u parent place ids) (hids : ∀ c ∈ t.children parent, c ∉ ids)
    (hself : parent ∉ ids) (hlist : parent ∉ t.children parent) :
    u.face parent = (t.face parent).map
      (·.withChildren fun list => list.take place ++ ids ++ list.drop place) := by
  obtain ⟨sample, inFront, move, hsample, rfl⟩ := h
  have hdisplaced : t.displaced? parent place ≠ some parent := by
    rw [displaced?]
    split_ifs
    · exact fun hfirst => hlist (List.mem_of_head? hfirst)
    · exact (Option.some_ne_none parent).symm
  rw [splice, face_relist, if_pos rfl, face_settle hsample hids hself hself, if_neg hdisplaced]

/-- Another node that was there changes only when it is displaced. -/
theorem face_of_ne (h : t.Spliced u parent place ids) (hids : ∀ c ∈ t.children parent, c ∉ ids)
    (hself : parent ∉ ids) (hne : parent ≠ j) (hj : j ∉ ids) :
    u.face j = if t.displaced? parent place = some j then
        (t.face j).map (·.withBefore (t.secondBefore? parent))
      else t.face j := by
  obtain ⟨sample, inFront, move, hsample, rfl⟩ := h
  rw [splice, face_relist, if_neg hne, face_settle hsample hids hself hj]

theorem inserted (h : t.Spliced u parent place ids) (hparent : t.contains parent = true)
    (hself : parent ∉ ids) (hids : ∀ c ∈ ids, t.contains c = true) :
    t.Inserted u parent ids place := by
  obtain ⟨sample, inFront, move, -, rfl⟩ := h
  exact inserted_of_contains hparent hself hids sample inFront place move

end Spliced

end Tree

namespace Editing

open Stylesheet.Tree

variable {t : Tree} {m : Material}

/-- The material is made and put into a list, beside the nodes that were there. -/
theorem ends_makeAndPut (ht : t.Consistent) {parent : NodeId} (hparent : t.contains parent = true)
    {R : List NodeId → Tree → Prop}
    (hmade : Ends (materialize (some parent) m) t (fun _ => True) R)
    {S : List NodeId → Tree → Tree → Prop} {f : List NodeId → Tree → Tree}
    (hf : ∀ (ids : List NodeId) (v : Tree), v.children parent = t.children parent →
      S ids v (f ids v)) :
    Ends (do let ids ← materialize (some parent) m; change (f ids); return ids) t (fun _ => True)
      fun ids u => ∃ v, t.Intact v ∧ R ids v ∧ S ids v u := by
  refine .bind ((hmade.and (intact_materialize ht (some parent) m)).mono (fun _ _ => trivial)
    fun _ _ h => h) ?_
  rintro ids v ⟨hR, hintact, -⟩
  refine .bind (R := fun _ u => u = f ids v) (.change rfl) ?_
  rintro _ u rfl
  refine .pure ⟨v, hintact, hR, hf ids v ?_⟩
  rw [children, children, hintact parent hparent]

/-- Insertion at an end of a container, which gets its block first. -/
theorem ends_makeAndPutInside (ht : t.Consistent) (parent : NodeId)
    {R : List NodeId → Tree → Prop} (hmade : ∀ u, u.Consistent → u.contains parent = true →
      Ends (materialize (some parent) m) u (fun _ => True) R)
    {S : List NodeId → Tree → Tree → Prop} {f : List NodeId → Tree → Tree}
    (hf : ∀ (ids : List NodeId) (v : Tree), v.children parent = t.children parent →
      S ids v (f ids v)) :
    Ends (do openBlock parent; let ids ← materialize (some parent) m; change (f ids); return ids) t
      (fun _ => True) fun ids u => ∃ v, t.contains parent = true ∧ (t.withBlock parent).Intact v ∧
        R ids v ∧ S ids v u := by
  refine .bind (((ends_openBlock ht parent).and (undisturbed_openBlock t parent)).mono
    (fun _ _ => trivial) fun _ _ h => h) ?_
  rintro _ u ⟨⟨hu, hopened, hblock⟩, hsame, -⟩
  have hparent := contains_of_hasBlock hblock
  refine (ends_makeAndPut (S := S) hu hparent (hmade u hu hparent) fun ids v hv =>
    hf ids v (by rw [hv, hsame.children])).mono (fun _ h => h) fun ids w h => ?_
  obtain ⟨v, hintact, h⟩ := h
  exact ⟨v, hsame.contains ▸ hparent, hopened.trans hintact, h⟩

/-- Insertion next to a node. -/
theorem ends_makeAndPutNextTo (ht : t.Consistent) (exist : NodeId)
    {R : NodeId → List NodeId → Tree → Prop}
    (hmade : ∀ parent, t.contains parent = true →
      Ends (materialize (some parent) m) t (fun _ => True) (R parent))
    {S : NodeId → Nat → List NodeId → Tree → Tree → Prop}
    {f : NodeId → Nat → List NodeId → Tree → Tree}
    (hf : ∀ (parent : NodeId) (i : Nat) (ids : List NodeId) (v : Tree),
      v.indexIn? parent exist = some i → S parent i ids v (f parent i ids v)) :
    Ends (do
      let (parent, i) ← placeOf exist
      let ids ← materialize (some parent) m
      change (f parent i ids)
      return ids) t (fun _ => True) fun ids u => ∃ parent i v, t.place? exist = some (parent, i) ∧
        t.contains parent = true ∧ t.Intact v ∧ R parent ids v ∧ S parent i ids v u := by
  refine .bind ((ends_placeOf t exist).mono (fun _ _ => trivial) fun _ _ h => h) ?_
  rintro ⟨parent, i⟩ _ ⟨rfl, hparent, hindex⟩
  have hcontains := ht.contains_parent hparent
  refine (ends_makeAndPut (S := S parent i) ht hcontains (hmade parent hcontains) fun ids v hv =>
    hf parent i ids v (by rw [indexIn?, hv]; exact hindex)).mono (fun _ h => h) fun ids u h => ?_
  obtain ⟨v, h⟩ := h
  exact ⟨parent, i, v, place?_eq_some_iff.mpr ⟨hparent, hindex⟩, hcontains, h⟩

end Editing

namespace Edit

open Stylesheet.Tree Editing

/-- The container that is opened is the one that the place is in. -/
theorem container?_eq_of_spot? {e : Edit} {t : Tree} {p parent : NodeId} {place : Nat}
    (hp : p ∈ e.container?) (hspot : e.spot? t = some (parent, place)) : p = parent := by
  cases e with
  | append | prepend =>
    cases hp
    cases hspot
    rfl
  | _ => cases hp

/-- The block that is opened changes no list. -/
theorem sameLists_opened (e : Edit) (t : Tree) : t.SameLists (e.opened t) := by
  rw [opened]
  cases e.container? with
  | none => exact .refl t
  | some p =>
    rw [Option.elim_some, withBlock]
    split_ifs
    · exact sameLists_openBlock t p
    · exact .refl t

/-- And it changes no front. -/
theorem before?_opened (e : Edit) (t : Tree) : (e.opened t).before? = t.before? := by
  funext j
  rw [before?, before?, get?_opened]
  split_ifs
  · cases t.get? j <;> rfl
  · rfl

/-- The list of a container stays the same while something is made. -/
theorem children_of_opened {e : Edit} {t v : Tree} {p : NodeId} (hp : t.contains p = true)
    (hintact : (e.opened t).Intact v) : v.children p = t.children p := by
  rw [children, hintact p ((contains_opened e t p).trans hp), ← children,
    (sameLists_opened e t).children]

/-- The sibling that new nodes take their formatting from. -/
def sample? (t : Tree) : Edit → Option NodeId
  | append parent _ => t.last? parent
  | prepend parent _ => t.first? parent
  | insertBefore exist _ | insertAfter exist _ => some exist
  | _ => none

/-- Whether what is inserted comes in front of the sample, at the beginning of the list. -/
def inFront (t : Tree) : Edit → Bool
  | prepend _ _ => true
  | insertBefore exist _ => (t.place? exist).any (·.2 == 0)
  | _ => false

/-- The node that new ones come in front of is the first one. -/
theorem sample?_of_spot? {e : Edit} {t : Tree} {parent : NodeId} {place : Nat}
    (hspot : e.spot? t = some (parent, place)) :
    (if e.inFront t = true then e.sample? t else none) =
      if place = 0 then t.first? parent else none := by
  cases e with
  | append target m =>
    cases hspot
    -- In an empty list the last place is the first one; then there is no sample either.
    simp only [inFront, Bool.false_eq_true, if_false, first?]
    split_ifs with hempty
    · rw [List.length_eq_zero_iff.mp hempty, List.head?_nil]
    · rfl
  | prepend target m =>
    cases hspot
    rfl
  | insertBefore target m =>
    obtain ⟨-, hindex⟩ := place?_eq_some_iff.mp hspot
    simp only [inFront, sample?, show t.place? target = some (parent, place) from hspot,
      Option.any_some, beq_iff_eq]
    split_ifs with hplace
    · rw [first?, List.head?_eq_getElem?, ← hplace]
      exact (getElem?_of_indexIn? hindex).symm
    · rfl
  | insertAfter target m =>
    obtain ⟨⟨p, i⟩, -, heq⟩ := Option.map_eq_some_iff.mp hspot
    cases heq
    rfl
  | _ => cases hspot

/-- What the four insertions do to the nodes that were there, and which sibling is the sample. -/
theorem ends_settledAt {t : Tree} (ht : t.Consistent) {m : Material} {target : NodeId} {e : Edit}
    (he : e ∈ [append target m, prepend target m, insertBefore target m, insertAfter target m])
    {R : NodeId → List NodeId → Tree → Prop}
    (hmade : ∀ parent u, u.Consistent → u.contains parent = true →
      Ends (materialize (some parent) m) u (fun _ => True) (R parent)) :
    Ends e.perform t (fun _ => True) fun ids u => ∃ parent place v,
      e.spot? t = some (parent, place) ∧ t.contains parent = true ∧ (e.opened t).Intact v ∧
        R parent ids v ∧ ∃ move,
          u = (v.settle parent (e.sample? t) (e.inFront t) ids).splice parent place ids move := by
  have hnext := fun parent => hmade parent t ht
  simp only [List.mem_cons, List.not_mem_nil, or_false] at he
  rcases he with rfl | rfl | rfl | rfl
  case inl =>
    have hends := ends_makeAndPutInside (f := fun ids u => u.insertLast target ids)
      (S := fun ids v u => ∃ move, u = (v.settle target (t.last? target) false ids).splice target
        (t.children target).length ids move) ht target (hmade target) ?_
    · refine hends.mono (fun _ h => h) ?_
      rintro ids u ⟨v, h⟩
      exact ⟨target, _, v, rfl, h⟩
    · intro ids v hv
      -- The sample is looked up in the tree that the material was added to.
      have hlast : t.last? target = v.last? target := by rw [last?, last?, hv]
      exact ⟨id, by rw [insertLast, hlast, hv]⟩
  case inr.inl =>
    have hends := ends_makeAndPutInside (f := fun ids u => u.insertFirst target ids)
      (S := fun ids v u => ∃ move, u = (v.settle target (t.first? target) true ids).splice target
        0 ids move) ht target (hmade target) ?_
    · refine hends.mono (fun _ h => h) ?_
      rintro ids u ⟨v, h⟩
      exact ⟨target, 0, v, rfl, h⟩
    · intro ids v hv
      have hfirst : t.first? target = v.first? target := by rw [first?, first?, hv]
      exact ⟨(· + ids.length), by rw [insertFirst, hfirst]⟩
  case inr.inr.inl =>
    have hends := ends_makeAndPutNextTo
      (f := fun parent i ids u => u.insertInFront parent target i ids)
      (S := fun parent i ids v u => ∃ move,
        u = (v.settle parent (some target) (i == 0) ids).splice parent i ids move)
      ht target hnext fun parent i ids v _ => ⟨_, rfl⟩
    refine hends.mono (fun _ h => h) ?_
    rintro ids u ⟨parent, i, v, hplace, h⟩
    refine ⟨parent, i, v, hplace, ?_⟩
    rw [inFront, hplace]
    exact h
  case inr.inr.inr =>
    have hends := ends_makeAndPutNextTo
      (f := fun parent i ids u => u.insertBehind parent target i ids)
      (S := fun parent i ids v u => ∃ move,
        u = (v.settle parent (some target) false ids).splice parent (i + 1) ids move)
      ht target hnext fun parent i ids v _ => ⟨_, rfl⟩
    refine hends.mono (fun _ h => h) ?_
    rintro ids u ⟨parent, i, v, hplace, h⟩
    exact ⟨parent, i + 1, v, by rw [spot?, hplace, Option.map_some], h⟩

/-- What the four insertions do to the nodes that were there. -/
theorem ends_splicedAt {t : Tree} (ht : t.Consistent) {m : Material} {target : NodeId} {e : Edit}
    (he : e ∈ [append target m, prepend target m, insertBefore target m, insertAfter target m])
    {R : NodeId → List NodeId → Tree → Prop}
    (hmade : ∀ parent u, u.Consistent → u.contains parent = true →
      Ends (materialize (some parent) m) u (fun _ => True) (R parent)) :
    Ends e.perform t (fun _ => True) fun ids u => ∃ parent place v,
      e.spot? t = some (parent, place) ∧ t.contains parent = true ∧ (e.opened t).Intact v ∧
        R parent ids v ∧ v.Spliced u parent place ids := by
  refine (ends_settledAt ht he hmade).mono (fun _ h => h) fun ids u h => ?_
  obtain ⟨parent, place, v, hspot, hparent, hintact, hR, move, rfl⟩ := h
  refine ⟨parent, place, v, hspot, hparent, hintact, hR, _, _, move, ?_, rfl⟩
  rw [sample?_of_spot? hspot, first?, first?, children_of_opened hparent hintact]

end Edit

end Stylesheet
