import Stylesheet.Proofs.Print.Alike

/-!
# Nodes without marks and cursors

The *face* of a node is what it is and what ties it to others: its details, its parent and its
children. Marks and cursors are not part of it. The text depends on the faces of the nodes that
stand in the tree (`Tree.print_eq_of_face`), and the lemmas of this module say what insertion and
removal do to a face.
-/

namespace Stylesheet

/-- What a node is and what ties it to others. -/
structure Node.Face where
  detail : Detail
  parent : Option NodeId
  children : List NodeId
deriving Repr, DecidableEq

namespace Node

/-- The node without its mark and without the cursors on its list. -/
def face (n : Node) : Node.Face :=
  ⟨n.detail, n.parent, n.children⟩

namespace Face

/-- The face with something else in front of the node. -/
def withBefore (before : Option String) (f : Node.Face) : Node.Face :=
  { f with detail := { f.detail with raws := { f.detail.raws with before } } }

/-- The face with its children changed. -/
def withChildren (g : List NodeId → List NodeId) (f : Node.Face) : Node.Face :=
  { f with children := g f.children }

/-- A list that nothing is put into. -/
theorem withChildren_nil (place : Nat) (f : Node.Face) :
    f.withChildren (fun list => list.take place ++ [] ++ list.drop place) = f := by
  rw [withChildren, List.append_nil, List.take_append_drop]

/-- The ties alone. -/
def links (f : Node.Face) : Node.Links :=
  ⟨f.parent, f.children, f.detail.kind, f.detail.block⟩

end Face

end Node

namespace Tree

/-- The face of a node of the tree. -/
def face (t : Tree) (id : NodeId) : Option Node.Face :=
  (t.get? id).map Node.face

variable {t u : Tree} {j : NodeId}

theorem contains_eq_face (t : Tree) (j : NodeId) : t.contains j = (t.face j).isSome := by
  rw [Tree.contains, face, Option.isSome_map]

theorem links_eq_face (t : Tree) (j : NodeId) : t.links j = (t.face j).map Node.Face.links := by
  rw [links, face, Option.map_map]
  rfl

theorem children_eq_face (t : Tree) (j : NodeId) :
    t.children j = ((t.face j).map Node.Face.children).getD [] := by
  rw [children, face, Option.map_map]
  rfl

theorem before?_eq_face (t : Tree) (j : NodeId) :
    t.before? j = (t.face j).bind (·.detail.raws.before) := by
  rw [before?, face]
  cases t.get? j <;> rfl

/-! ### The printed text -/

/-- The text depends on the faces of the nodes that stand in the tree. -/
theorem print_eq_of_face (ht : t.Consistent) (hroot : t.kind? rootId = some .root)
    (hface : ∀ x, t.Attached x → u.face x = t.face x) : u.print = t.print := by
  have hnode : ∀ x, t.Attached x → ∃ n n', t.get? x = some n ∧ u.get? x = some n' ∧
      n'.face = n.face := by
    intro x hx
    obtain ⟨n, hn⟩ := hx.exists_get? hroot
    have h := hface x hx
    rw [face, face, hn] at h
    obtain ⟨n', hn', heq⟩ := Option.map_eq_some_iff.mp h
    exact ⟨n, n', hn, hn', heq⟩
  -- The trees mirror each other under the identity; they may differ in what printing never looks
  -- at.
  have hmirror : t.Mirror (fun x => x) u := by
    refine ⟨ht, hroot, rfl, fun _ _ _ _ heq => heq, fun x hx => ?_⟩
    obtain ⟨n, n', hn, hn', heq⟩ := hnode x hx
    obtain ⟨hdetail, hparent, hchildren⟩ := Node.Face.mk.inj heq
    refine ⟨n, n', hn, hn', ?_, ?_, ?_, ?_, ?_⟩
    · rw [Option.map_id', hparent]
    · rw [List.map_id', hchildren]
    · rw [Node.kind, Node.content, hdetail]
      rfl
    · rw [Node.isContainer, hdetail]
      rfl
    · rw [Node.raws, hdetail]
      rfl
  refine hmirror.print_eq fun x hx => ?_
  obtain ⟨n, n', hn, hn', heq⟩ := hnode x hx
  rw [content?, content?, hn, hn', Option.map_some, Option.map_some]
  exact congrArg (fun f : Node.Face => some f.detail.content) heq

/-! ### Changes of one node -/

/-- Changing a node changes its face, and no other. -/
theorem face_modify {f : Node → Node} {g : Node.Face → Node.Face}
    (hf : ∀ n, (f n).face = g n.face) (t : Tree) (id j : NodeId) :
    (t.modify id f).face j = if id = j then (t.face j).map g else t.face j :=
  map_modify hf t id j

/-- Marks do not show. -/
theorem face_markDirty (t : Tree) (id : NodeId) : (t.markDirty id).face = t.face :=
  funext (map_markDirty (fun _ => rfl) t id)

theorem face_markTreeDirty (t : Tree) (id : NodeId) : (t.markTreeDirty id).face = t.face :=
  funext (map_modifyAll_of (f := unmark) (fun _ => rfl) t _)

/-- The front of one node is set. -/
theorem face_setBefore (t : Tree) (before : Option String) (id j : NodeId) :
    (t.setBefore before id).face j =
      if id = j then (t.face j).map (·.withBefore before) else t.face j :=
  face_modify (fun _ => rfl) t id j

/-- The list of one node is changed. -/
theorem face_relist (t : Tree) (parent : NodeId) (f : List NodeId → List NodeId)
    (move : Int → Int) (j : NodeId) :
    (t.relist parent f move).face j =
      if parent = j then (t.face j).map (·.withChildren f) else t.face j := by
  rw [relist, face_markDirty]
  exact face_modify (fun _ => rfl) t parent j

/-! ### Insertion -/

/-- Steps that are about other nodes. -/
theorem face_foldl_of_not_mem {step : Tree → NodeId → Tree}
    (hstep : ∀ u id, id ≠ j → (step u id).face j = u.face j) {ids : List NodeId} (hj : j ∉ ids)
    (t : Tree) : (ids.foldl step t).face j = t.face j := by
  induction ids generalizing t with
  | nil => rfl
  | cons id ids ih =>
    rw [List.mem_cons, not_or] at hj
    rw [List.foldl_cons, ih hj.2, hstep t id (Ne.symm hj.1)]

/-- Settling a node changes the face of no other node. -/
theorem face_settleOne_of_ne (parent : NodeId) (parentIsRoot : Bool) (sampleBefore : Option String)
    (t : Tree) {id : NodeId} (hne : id ≠ j) :
    (settleOne parent parentIsRoot sampleBefore t id).face j = t.face j := by
  rw [settleOne, face, get?_modify, if_neg hne, ← face, face_markTreeDirty]

/-- The node that stands at the very beginning of a stylesheet, when something is put in front of
it. -/
def displaced? (t : Tree) (parent : NodeId) (place : Nat) : Option NodeId :=
  if t.isRoot parent = true ∧ place = 0 then t.first? parent else none

/-- What stands in front of the second child. -/
def secondBefore? (t : Tree) (parent : NodeId) : Option String :=
  (t.children parent)[1]?.bind t.before?

/-- Where a sample is taken for the node that is displaced. -/
theorem displaced?_eq {parent : NodeId} {place : Nat} {sample : Option NodeId} {inFront : Bool}
    (hsample : (if inFront = true then sample else none) =
      if place = 0 then t.first? parent else none) :
    t.displaced? parent place =
      if t.isRoot parent = true ∧ inFront = true then sample else none := by
  rw [displaced?]
  by_cases hroot : t.isRoot parent = true
  · simp only [hroot, true_and]
    exact hsample.symm
  · rw [if_neg fun h => hroot h.1, if_neg fun h => hroot h.1]

/-- At the root, only the sample may change besides the nodes that are put in. -/
theorem face_settleAtTop (t : Tree) (parent sample : NodeId) (inFront : Bool) {ids : List NodeId}
    (sampleBefore : Option String) (hj : j ∉ ids) :
    (t.settleAtTop parent sample inFront ids sampleBefore).face j =
      if inFront = true ∧ sample = j then
        (t.face j).map (·.withBefore (t.secondBefore? parent))
      else t.face j := by
  rw [settleAtTop]
  cases inFront with
  | true =>
    rw [if_pos rfl, face_setBefore, secondBefore?]
    simp only [true_and]
  | false =>
    have hnot : ¬ (false = true ∧ sample = j) := fun h => Bool.false_ne_true h.1
    rw [if_neg Bool.false_ne_true, if_neg hnot]
    split_ifs
    · rfl
    · refine face_foldl_of_not_mem (fun u id hne => ?_) hj t
      rw [face_setBefore, if_neg hne]

/-- Of the nodes that were there, only the one at the very beginning of a stylesheet is formatted in
another way when others settle in: in front of it stands now what stood in front of the second. -/
theorem face_settle {parent : NodeId} {place : Nat} {sample : Option NodeId} {inFront : Bool}
    (hsample : (if inFront = true then sample else none) =
      if place = 0 then t.first? parent else none)
    {ids : List NodeId} (hids : ∀ c ∈ t.children parent, c ∉ ids) (hself : parent ∉ ids)
    (hj : j ∉ ids) :
    (t.settle parent sample inFront ids).face j =
      if t.displaced? parent place = some j then
        (t.face j).map (·.withBefore (t.secondBefore? parent))
      else t.face j := by
  have hframe : ∀ x, x ∉ ids → (ids.foldl
      (settleOne parent (t.isRoot parent) (sample.bind t.before?)) t).face x = t.face x :=
    fun x hx => face_foldl_of_not_mem (fun u id hne => face_settleOne_of_ne _ _ _ u hne) hx t
  rw [displaced?_eq hsample]
  unfold settle
  cases sample with
  | none => rw [ite_self, if_neg (Option.some_ne_none j).symm]; exact hframe j hj
  | some s =>
    dsimp only
    by_cases hroot : t.isRoot parent = true
    · rw [Option.bind_some] at hframe ⊢
      generalize ids.foldl (settleOne parent (t.isRoot parent) (t.before? s)) t = settled
        at hframe ⊢
      -- What stood in front of the second child is looked up when the others have settled in.
      have hsecond : settled.secondBefore? parent = t.secondBefore? parent := by
        rw [secondBefore?, secondBefore?, children_eq_face, hframe parent hself, ← children_eq_face]
        cases hget : (t.children parent)[1]? with
        | none => rfl
        | some c =>
          have hc := hids c (List.mem_of_getElem? hget)
          rw [Option.bind_some, Option.bind_some, before?_eq_face, hframe c hc, ← before?_eq_face]
      rw [if_pos hroot, face_settleAtTop _ _ _ _ _ hj, hsecond, hframe j hj]
      by_cases hfront : inFront = true <;> simp [hroot, hfront]
    · have hnone : (if t.isRoot parent = true ∧ inFront = true then some s else none) = none :=
        if_neg fun h => hroot h.1
      rw [hnone, if_neg hroot, if_neg (Option.some_ne_none j).symm]
      exact hframe j hj

/-! ### Removal -/

/-- Besides a child that is taken out and its container, only the second node of a stylesheet can
change, when the first one goes. -/
theorem face_removeAt {parent child : NodeId} {i : Nat} (hchild : child ≠ j)
    (hsecond : t.isRoot parent = true → i = 0 → (t.children parent)[1]? ≠ some j) :
    (t.removeAt parent child i).face j =
      if parent = j then (t.face j).map (·.withChildren (·.eraseIdx i)) else t.face j := by
  have hdetach : ∀ u : Tree, (u.detach child).face j = u.face j := by
    intro u
    rw [face, detach, get?_modify, if_neg hchild, ← face]
  have hhand : (t.handOverBefore parent child i).face j = t.face j := by
    rw [handOverBefore]
    split_ifs with h
    · rw [Bool.and_eq_true, beq_iff_eq] at h
      cases hget : (t.children parent)[1]? with
      | none => rfl
      | some second =>
        have hne : second ≠ j := fun heq => hsecond h.1 h.2 (heq ▸ hget)
        dsimp only
        rw [face_setBefore, if_neg hne]
    · rfl
  rw [removeAt, face_relist, hdetach, hhand]

end Tree

end Stylesheet
