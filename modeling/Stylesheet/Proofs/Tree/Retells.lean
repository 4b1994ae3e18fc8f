import Stylesheet.Output.Generate
import Stylesheet.Proofs.Tree.Reload

/-!
# A tree and what is read of it

A tree that was read from the JSON of another one has other numbers for its nodes and for its
inputs, and knows less about the maps of its inputs. `Tree.Retells` is what the two have in common:
nodes that stand in the same places, say the same and were read in the same places of the same
inputs.

It stays so when comments that name maps are taken out of both (`Tree.Retells.withoutLinks`), and
the inputs in use are the same ones as far as they were written (`Tree.Retells.inputsInUse_eq`).
-/

namespace Stylesheet

namespace Tree

/-- The nodes of `t` that stand in the tree are nodes of `u`, with their numbers changed by `ρ` and
the numbers of inputs changed to places in `used`. -/
structure Retells (ρ : NodeId → NodeId) (used : List Nat) (t u : Tree) : Prop where
  consistent : t.Consistent
  consistent' : u.Consistent
  rooted : t.kind? rootId = some .root
  root : ρ rootId = rootId
  distinct : ∀ x y, t.Attached x → t.Attached y → ρ x = ρ y → x = y
  contains : ∀ x, t.Attached x → u.contains (ρ x) = true
  parent : ∀ x, t.Attached x → u.parent? (ρ x) = (t.parent? x).map ρ
  children : ∀ x, t.Attached x → u.children (ρ x) = (t.children x).map ρ
  detail : ∀ x, t.Attached x → u.detail (ρ x) = (t.detail x).renumber used
  known : ∀ x, t.Attached x → ∀ s ∈ (t.detail x).source, s.input ∈ used
  inputs : ∀ k ∈ used, u.inputs[used.idxOf k]? = (t.inputs[k]?).map Input.reread

variable {ρ : NodeId → NodeId} {used : List Nat} {t u : Tree} {x c : NodeId} {i : Nat}

/-- The input with a number in the list is found under its place in the list. -/
theorem getElem?_filterMap_idxOf {inputs : Array Input} :
    ∀ {used : List Nat} {k : Nat}, (∀ j ∈ used, j < inputs.size) → k ∈ used →
      (used.filterMap (inputs[·]?))[used.idxOf k]? = inputs[k]?
  | [], _, _, hk => absurd hk List.not_mem_nil
  | j :: used, k, hused, hk => by
    obtain ⟨hj, hused⟩ := List.forall_mem_cons.mp hused
    rw [List.filterMap_cons_some (Array.getElem?_eq_getElem hj), List.idxOf_cons]
    by_cases hjk : j = k
    · rw [beq_iff_eq.mpr hjk, cond_true, ← hjk]
      exact (Array.getElem?_eq_getElem hj).symm
    · rw [beq_eq_false_iff_ne.mpr hjk, cond_false, List.getElem?_cons_succ]
      exact getElem?_filterMap_idxOf hused ((List.mem_cons.mp hk).resolve_left (Ne.symm hjk))

/-- A tree that is read retells the one that was written. -/
theorem retells_reread (ht : t.Consistent) (hroot : t.kind? rootId = some .root)
    (hused : ∀ i ∈ t.usedInputs, i < t.inputs.size) :
    t.Retells t.placeIn t.usedInputs t.reread where
  consistent := ht
  consistent' := consistent_reread ht
  rooted := hroot
  root := t.placeIn_rootId
  distinct := (mirror_reread ht hroot).distinct
  contains x hx := ((mirror_reread ht hroot).contains hx).2
  parent x hx := (mirror_reread ht hroot).parent?_eq hx
  children x hx := (mirror_reread ht hroot).children_eq hx
  detail x hx := detail_of_get? (get?_reread ht hroot hx)
  known x hx s hs := by
    refine mem_usedInputs_of_source ?_ hs
    rw [toList_draft]
    exact List.mem_map_of_mem (ht.mem_shape_iff.mpr hx)
  inputs k hk := by
    show (((t.usedInputs.filterMap (t.inputs[·]?)).map Input.reread).toArray)[_]? = _
    rw [List.getElem?_toArray, List.getElem?_map, getElem?_filterMap_idxOf hused hk]

/-! ### Taking a child out -/

theorem inputs_removeAt (t : Tree) (parent child : NodeId) (i : Nat) :
    (t.removeAt parent child i).inputs = t.inputs := by
  rw [removeAt, relist, inputs_markDirty]
  show (t.handOverBefore parent child i).inputs = t.inputs
  rw [handOverBefore]
  split_ifs
  · cases (t.children parent)[1]? <;> rfl
  · rfl

/-- Removing a node changes fronts, and no places in texts. -/
theorem source_removeAt (t : Tree) (parent child : NodeId) (i : Nat) (x : NodeId) :
    ((t.removeAt parent child i).detail x).source = (t.detail x).source := by
  rw [detail, detail_removeAt, handOverBefore]
  split_ifs
  · cases (t.children parent)[1]? with
    | none => rfl
    | some second =>
      dsimp only
      rw [setBefore, get?_modify, detail]
      split_ifs
      · cases t.get? x <;> rfl
      · rfl
  · rfl

/-- Taking comments out changes neither the inputs nor where nodes were read. -/
theorem inputs_source_foldl_withoutChild (t : Tree) (ids : List NodeId) :
    (ids.foldl withoutChild t).inputs = t.inputs ∧
      ∀ x, ((ids.foldl withoutChild t).detail x).source = (t.detail x).source := by
  induction ids generalizing t with
  | nil => exact ⟨rfl, fun _ => rfl⟩
  | cons c ids ih =>
    have hstep : (t.withoutChild c).inputs = t.inputs ∧
        ∀ x, ((t.withoutChild c).detail x).source = (t.detail x).source := by
      rw [withoutChild]
      cases t.indexIn? rootId c with
      | none => exact ⟨rfl, fun _ => rfl⟩
      | some i => exact ⟨inputs_removeAt t rootId c i, source_removeAt t rootId c i⟩
    obtain ⟨hinputs, hsource⟩ := ih (t.withoutChild c)
    exact ⟨hinputs.trans hstep.1, fun x => (hsource x).trans (hstep.2 x)⟩

theorem inputs_withoutLinks (t : Tree) : t.withoutLinks.inputs = t.inputs :=
  (inputs_source_foldl_withoutChild t _).1

/-- Nor does removing comments that name maps. -/
theorem source_withoutLinks (t : Tree) (x : NodeId) :
    (t.withoutLinks.detail x).source = (t.detail x).source :=
  (inputs_source_foldl_withoutChild t _).2 x

/-- What the first child leaves to the second one, when it is taken out of the root. -/
theorem detail_removeAt_root (hroot : t.kind? rootId = some .root) (hx : t.contains x = true) :
    (t.removeAt rootId c i).detail x =
      if i = 0 ∧ (t.children rootId)[1]? = some x then
        { t.detail x with raws := { (t.detail x).raws with before := t.before? c } }
      else t.detail x := by
  obtain ⟨n, hn⟩ := Option.isSome_iff_exists.mp hx
  have htop : t.isRoot rootId = true := by rw [isRoot, hroot]; rfl
  rw [detail, detail_removeAt, handOverBefore, htop, Bool.true_and]
  -- Only when the first child goes is something handed over, and to the second one alone.
  by_cases hi : i = 0
  · rw [if_pos (beq_iff_eq.mpr hi)]
    cases hsecond : (t.children rootId)[1]? with
    | none =>
      rw [if_neg (fun h => by cases h.2)]
      rfl
    | some second =>
      dsimp only
      rw [setBefore, get?_modify]
      by_cases hx : second = x
      · rw [if_pos hx, if_pos ⟨hi, congrArg some hx⟩, detail_of_get? hn, hn]
        rfl
      · rw [if_neg hx, if_neg fun h => hx (Option.some.inj h.2)]
        rfl
  · rw [if_neg fun h => hi (beq_iff_eq.mp h), if_neg fun h => hi h.1]
    rfl

/-- The place of a member in a list does not depend on how the members are numbered. -/
theorem findIdx?_map_beq {l : List NodeId} (h : ∀ y ∈ l, ρ y = ρ c → y = c) :
    (l.map ρ).findIdx? (· == ρ c) = l.findIdx? (· == c) := by
  rw [List.findIdx?_map]
  induction l with
  | nil => rfl
  | cons y l ih =>
    obtain ⟨hy, hl⟩ := List.forall_mem_cons.mp h
    have hbeq : (ρ y == ρ c) = (y == c) := by
      rw [Bool.eq_iff_iff, beq_iff_eq, beq_iff_eq]
      exact ⟨hy, congrArg ρ⟩
    rw [List.findIdx?_cons, List.findIdx?_cons, Function.comp_apply, hbeq, ih hl]

/-- What still stands in the tree stood there before, and is not the node that is gone. -/
theorem attached_of_removed {parent : NodeId} {kept : List NodeId}
    (hremoved : t.Removed u parent [c] kept) (hne : c ≠ rootId) (hx : u.Attached x) :
    t.Attached x ∧ x ≠ c := by
  refine ⟨Relation.ReflTransGen.mono (fun a b hab => (hremoved.under hab).1) x rootId hx, ?_⟩
  rintro rfl
  rcases Relation.ReflTransGen.cases_head hx with heq | ⟨p, hp, -⟩
  · exact hne heq
  · exact (hremoved.under hp).2 (List.mem_singleton.mpr rfl)

namespace Retells

variable (h : t.Retells ρ used u)
include h

theorem attached_child (hc : c ∈ t.children rootId) : t.Attached c :=
  Attached.child h.consistent .refl hc

/-- The root lists the same nodes under their new numbers. -/
theorem children_root : u.children rootId = (t.children rootId).map ρ := by
  rw [← h.children rootId .refl, h.root]

theorem indexIn?_eq (hc : c ∈ t.children rootId) :
    u.indexIn? rootId (ρ c) = t.indexIn? rootId c := by
  rw [indexIn?, indexIn?, h.children_root]
  refine findIdx?_map_beq fun y hy => ?_
  exact h.distinct y c (h.attached_child hy) (h.attached_child hc)

/-- An attached node in both trees. -/
theorem exists_nodes (hx : t.Attached x) :
    ∃ n n', t.get? x = some n ∧ u.get? (ρ x) = some n' ∧ n'.parent = n.parent.map ρ ∧
      n'.children = n.children.map ρ ∧ n'.detail = n.detail.renumber used := by
  obtain ⟨n, hn⟩ := hx.exists_get? h.rooted
  obtain ⟨n', hn'⟩ := Option.isSome_iff_exists.mp (h.contains x hx)
  have hdetail := h.detail x hx
  have hparent := h.parent x hx
  have hchildren := h.children x hx
  rw [detail_of_get? hn, detail_of_get? hn'] at hdetail
  rw [parent?, parent?, hn, hn'] at hparent
  rw [Tree.children, Tree.children, hn, hn'] at hchildren
  exact ⟨n, n', hn, hn', hparent, hchildren, hdetail⟩

/-- One tree mirrors the other. -/
theorem mirror : t.Mirror ρ u where
  consistent := h.consistent
  rooted := h.rooted
  root := h.root
  distinct := h.distinct
  node x hx := by
    obtain ⟨n, n', hn, hn', hparent, hchildren, hdetail⟩ := h.exists_nodes hx
    refine ⟨n, n', hn, hn', hparent, hchildren, ?_, ?_, ?_⟩
    · rw [Node.kind, Node.content, hdetail]
      rfl
    · rw [Node.isContainer, hdetail]
      rfl
    · rw [Node.raws, hdetail]
      rfl

theorem rooted' : u.kind? rootId = some .root := by
  have hkind := h.mirror.kind?_eq (x := rootId) .refl
  rwa [h.root, h.rooted] at hkind

theorem before?_eq (hx : t.Attached x) : u.before? (ρ x) = t.before? x := by
  obtain ⟨n, n', hn, hn', hmirror⟩ := h.mirror.node x hx
  rw [before?, before?, hn, hn']
  exact congrArg Raws.before hmirror.raws

theorem content?_eq (hx : t.Attached x) : u.content? (ρ x) = t.content? x := by
  obtain ⟨n, n', hn, hn', -, -, hdetail⟩ := h.exists_nodes hx
  rw [content?, content?, hn, hn']
  show some n'.detail.content = some n.detail.content
  rw [hdetail]
  rfl

/-- A child of the root is taken out of both trees. -/
theorem removeAt (hindex : t.indexIn? rootId c = some i) :
    (t.removeAt rootId c i).Retells ρ used (u.removeAt rootId (ρ c) i) := by
  have hc : c ∈ t.children rootId := List.mem_of_getElem? (getElem?_of_indexIn? hindex)
  have hindex' : u.indexIn? rootId (ρ c) = some i := by rw [h.indexIn?_eq hc, hindex]
  have hremoved := removed_removeAt h.consistent hindex
  have hremoved' := removed_removeAt h.consistent' hindex'
  have hne : c ≠ rootId := fun heq =>
    h.consistent.not_mem_children_self rootId (heq ▸ hc)
  have hattached : ∀ x, (t.removeAt rootId c i).Attached x → t.Attached x ∧ x ≠ c :=
    fun x hx => attached_of_removed hremoved hne hx
  -- Both trees hand the text in front of the first child on to the same node.
  have hsecond : ∀ x, t.Attached x →
      ((u.children rootId)[1]? = some (ρ x) ↔ (t.children rootId)[1]? = some x) := by
    intro x hx
    rw [h.children_root, List.getElem?_map, Option.map_eq_some_iff]
    constructor
    · rintro ⟨y, hy, heq⟩
      rwa [← h.distinct y x (h.attached_child (List.mem_of_getElem? hy)) hx heq]
    · exact fun hx => ⟨x, hx, rfl⟩
  have hcontains : ∀ x, t.Attached x → t.contains x = true :=
    fun x hx => (h.mirror.contains hx).1
  refine
    { consistent := h.consistent.remove hremoved
      consistent' := h.consistent'.remove hremoved'
      rooted := (hremoved.kind rootId).trans h.rooted
      root := h.root
      distinct := fun x y hx hy => h.distinct x y (hattached x hx).1 (hattached y hy).1
      contains := fun x hx => (hremoved'.contains _).trans (h.contains x (hattached x hx).1)
      parent := fun x hx => ?_
      children := fun x hx => ?_
      detail := fun x hx => ?_
      known := fun x hx s hs => ?_
      inputs := fun k hk => ?_ }
  · obtain ⟨hup, hxc⟩ := hattached x hx
    have hxc' : ρ x ≠ ρ c := fun heq => hxc (h.distinct x c hup (h.attached_child hc) heq)
    rw [hremoved.links, hremoved'.links, if_neg fun hm => hxc (List.mem_singleton.mp hm),
      if_neg fun hm => hxc' (List.mem_singleton.mp hm), h.parent x hup]
  · obtain ⟨hup, -⟩ := hattached x hx
    by_cases hroot : rootId = x
    · rw [← hroot, h.root, hremoved.list, hremoved'.list, h.children_root]
      exact (List.eraseIdx_map ..)
    -- The map is injective on attached nodes, and the root is its own image.
    · have hroot' : rootId ≠ ρ x := fun heq =>
        hroot (h.distinct rootId x .refl hup (h.root.trans heq))
      rw [hremoved.others x hroot, hremoved'.others _ hroot', h.children x hup]
  · obtain ⟨hup, -⟩ := hattached x hx
    rw [detail_removeAt_root h.rooted (hcontains x hup),
      detail_removeAt_root h.rooted' (h.contains x hup), h.before?_eq (h.attached_child hc),
      h.detail x hup]
    simp only [hsecond x hup]
    split_ifs <;> rfl
  · obtain ⟨hup, -⟩ := hattached x hx
    refine h.known x hup s ?_
    rw [detail_removeAt_root h.rooted (hcontains x hup)] at hs
    split_ifs at hs <;> exact hs
  · rw [inputs_removeAt, inputs_removeAt, h.inputs k hk]

/-- The same child may be removed on both sides. -/
theorem withoutChild (hc : c ∈ t.children rootId) :
    (t.withoutChild c).Retells ρ used (u.withoutChild (ρ c)) := by
  rw [Tree.withoutChild, Tree.withoutChild, h.indexIn?_eq hc]
  cases hindex : t.indexIn? rootId c with
  | none => exact h
  | some i => exact h.removeAt hindex

/-- A comment names a map on both sides or on neither. -/
theorem namesMap_eq (hx : t.Attached x) : u.namesMap (ρ x) = t.namesMap x := by
  have hnames : ∀ (v : Tree) y, v.namesMap y =
      ((v.content? y).bind Content.text?).any (·.startsWith "# sourceMappingURL=") := by
    intro v y
    rw [namesMap, content?]
    cases v.get? y <;> rfl
  rw [hnames, hnames, h.content?_eq hx]

end Retells

/-- The other children of the root stay when one is taken out. -/
theorem mem_children_withoutChild (ht : t.Consistent) {y : NodeId} (hy : y ∈ t.children rootId)
    (hne : y ≠ c) : y ∈ (t.withoutChild c).children rootId := by
  rw [withoutChild]
  cases hindex : t.indexIn? rootId c with
  | none => exact hy
  | some i =>
    have hremoved := removed_removeAt ht hindex
    have hmem := hremoved.perm.mem_iff.mp hy
    rw [hremoved.list]
    exact (List.mem_append.mp hmem).resolve_left fun h => hne (List.mem_singleton.mp h)

namespace Retells

/-- Children of the root are taken out of both trees, one after the other. -/
theorem foldl_withoutChild {ids : List NodeId} (h : t.Retells ρ used u) (hnodup : ids.Nodup)
    (hids : ∀ c ∈ ids, c ∈ t.children rootId) :
    (ids.foldl Tree.withoutChild t).Retells ρ used ((ids.map ρ).foldl Tree.withoutChild u) := by
  induction ids generalizing t u with
  | nil => exact h
  | cons c ids ih =>
    obtain ⟨hc, hids⟩ := List.forall_mem_cons.mp hids
    obtain ⟨hnot, hnodup⟩ := List.nodup_cons.mp hnodup
    refine ih (h.withoutChild hc) hnodup fun y hy => ?_
    exact mem_children_withoutChild h.consistent (hids y hy) fun heq => hnot (heq ▸ hy)

variable (h : t.Retells ρ used u)
include h

/-- The comments that name maps are the same ones, and are taken out of both trees. -/
theorem withoutLinks : t.withoutLinks.Retells ρ used u.withoutLinks := by
  have hlist : (u.children rootId).reverse.filter u.namesMap =
      ((t.children rootId).reverse.filter t.namesMap).map ρ := by
    rw [h.children_root, ← List.map_reverse, List.filter_map]
    refine congrArg (List.map ρ) (List.filter_congr fun c hc => ?_)
    exact h.namesMap_eq (h.attached_child (List.mem_reverse.mp hc))
  rw [Tree.withoutLinks, Tree.withoutLinks, hlist]
  refine h.foldl_withoutChild ?_ fun c hc => ?_
  · exact ((List.nodup_reverse.mpr (h.consistent.nodup_children rootId)).filter _)
  · exact List.mem_reverse.mp (List.mem_of_mem_filter hc)

/-! ### Inputs -/

/-- Both say the same, with the inputs under their new numbers. -/
theorem draft_eq : u.draft rootId = (t.draft rootId).map (Detail.renumber used) := by
  have hshape := h.mirror.shape_eq .refl
  rw [h.root] at hshape
  rw [draft, draft, hshape, Branch.map_map, Branch.map_map]
  exact Branch.map_congr _ fun x hx => h.detail x (h.consistent.mem_shape_iff.mp hx)

theorem mem_used {k : Nat} (hk : k ∈ t.usedInputs) : k ∈ used := by
  obtain ⟨d, hd, hsource⟩ := List.mem_map.mp (mem_usedInputs.mp hk)
  rw [toList_draft] at hd
  obtain ⟨x, hx, rfl⟩ := List.mem_map.mp hd
  obtain ⟨s, hs, rfl⟩ := Option.map_eq_some_iff.mp hsource
  exact h.known x (h.consistent.mem_shape_iff.mp hx) s hs

/-- The inputs in use are the same ones, renumbered. -/
theorem usedInputs_eq : u.usedInputs = t.usedInputs.map used.idxOf := by
  have hread : u.readFrom.filterMap id = (t.readFrom.filterMap id).map used.idxOf := by
    rw [readFrom, readFrom, h.draft_eq, Branch.toList_map, List.map_map, List.filterMap_map,
      List.filterMap_map, List.map_filterMap]
    refine congrArg (List.filterMap · _) (funext fun d => ?_)
    show (d.source.map (Source.renumber used)).map Source.input =
      (d.source.map Source.input).map used.idxOf
    rw [Option.map_map, Option.map_map]
    rfl
  rw [Tree.usedInputs_eq, Tree.usedInputs_eq, hread]
  refine eraseDups_map fun a ha b _ heq => (List.idxOf_inj (h.mem_used ?_)).mp heq
  rw [Tree.usedInputs_eq]
  exact List.mem_eraseDups.mpr ha

/-- The inputs in use are the same ones, as far as they were written. -/
theorem inputsInUse_eq : u.inputsInUse = t.inputsInUse.map Input.reread := by
  rw [inputsInUse, inputsInUse, h.usedInputs_eq, List.filterMap_map, List.map_filterMap]
  exact List.filterMap_congr fun k hk => h.inputs k (h.mem_used hk)

end Retells

end Tree

end Stylesheet
