import Stylesheet.Proofs.Print.Alike
import Stylesheet.Proofs.Tree.Order
import Stylesheet.Proofs.Tree.Written

/-!
# Trees that were written and read

What `Tree.reread` has in common with the tree it was written from. The nodes of the document are
found under their places in its order (`Tree.get?_reread`), so that the tree that is read mirrors
the one that was written, and printing, which looks at nothing but what mirrors keep, gives the same
text (`Tree.print_reread`).

Written again, the inputs get the numbers they have: numbers given out by first occurrence come in
their order (`eraseDups_map_idxOf`), and so the table and every reference to it are the same
(`Tree.toJson_reread`, `Tree.sharesInput_reread`). `Tree.Legible` is what a tree has to have to be
read at all (`Tree.Legible.ofJson_toJson`).
-/

namespace Stylesheet

namespace Branch

/-- What holds of every label as such may be added to what holds of it with the branches below. -/
theorem Every.and {P : α → List (Branch α) → Prop} {Q : α → Prop} {b : Branch α}
    (h : b.Every P) (hQ : ∀ a ∈ b.toList, Q a) : b.Every fun a bs => P a bs ∧ Q a := by
  induction h with
  | node top rest ih =>
    rw [toList, List.forall_mem_cons] at hQ
    refine .node ⟨top, hQ.1⟩ fun b hb => ih b hb fun a ha => ?_
    exact hQ.2 a (mem_listAll.mpr ⟨b, hb, ha⟩)

end Branch

/-! ### Numbers for inputs -/

/-- A map that keeps members apart keeps first occurrences. -/
theorem eraseDups_map [DecidableEq α] [DecidableEq β] {f : α → β} :
    ∀ {l : List α}, (∀ a ∈ l, ∀ b ∈ l, f a = f b → a = b) →
      (l.map f).eraseDups = l.eraseDups.map f
  | [], _ => rfl
  | a :: l, h => by
    have hfilter : (l.map f).filter (fun b => !b == f a) = (l.filter fun b => !b == a).map f := by
      rw [List.filter_map]
      refine congrArg (List.map f) (List.filter_congr fun b hb => ?_)
      have hiff : f b = f a ↔ b = a :=
        ⟨h b (List.mem_cons_of_mem a hb) a List.mem_cons_self, congrArg f⟩
      simp only [Function.comp_apply, beq_eq_decide, hiff]
    rw [List.map_cons, List.eraseDups_cons, List.eraseDups_cons, hfilter, List.map_cons]
    refine congrArg (f a :: ·) (eraseDups_map fun b hb c hc => ?_)
    exact h b (List.mem_cons_of_mem a (List.mem_filter.mp hb).1) c
      (List.mem_cons_of_mem a (List.mem_filter.mp hc).1)
termination_by l => l.length
decreasing_by exact Nat.lt_succ_of_le (List.length_filter_le _ _)

theorem nodup_eraseDups [DecidableEq α] : ∀ l : List α, l.eraseDups.Nodup
  | [] => List.nodup_nil
  | a :: l => by
    rw [List.eraseDups_cons]
    refine List.nodup_cons.mpr ⟨fun hmem => ?_, nodup_eraseDups _⟩
    have hne := (List.mem_filter.mp (List.mem_eraseDups.mp hmem)).2
    rw [beq_self_eq_true] at hne
    cases hne
termination_by l => l.length
decreasing_by exact Nat.lt_succ_of_le (List.length_filter_le _ _)

/-- Numbers given out in the order of first occurrences are all numbers up to their count. -/
theorem eraseDups_map_idxOf [DecidableEq α] (l : List α) :
    (l.map l.eraseDups.idxOf).eraseDups = List.range l.eraseDups.length := by
  rw [eraseDups_map fun a ha b _ heq => (List.idxOf_inj (List.mem_eraseDups.mpr ha)).mp heq,
    Tree.map_idxOf_of_nodup (nodup_eraseDups l)]

namespace Tree

variable {t : Tree} {x : NodeId}

/-- The details of a branch, in the order of its nodes. -/
theorem toList_draft (t : Tree) (x : NodeId) :
    (t.draft x).toList = (t.shape x).toList.map t.detail :=
  Branch.toList_map _ _

/-- The inputs that the nodes of the document were read from, in its order. -/
def readFrom (t : Tree) : List (Option Nat) :=
  (t.draft rootId).toList.map fun d => d.source.map Source.input

/-- Each input counts once, in the order in which nodes name them. -/
theorem usedInputs_eq (t : Tree) : t.usedInputs = (t.readFrom.filterMap id).eraseDups := by
  rw [usedInputs, readFrom, toList_draft, List.filterMap_map, List.filterMap_map]
  rfl

/-- An input is used when some node was read from it. -/
theorem mem_usedInputs {i : Nat} : i ∈ t.usedInputs ↔ some i ∈ t.readFrom := by
  rw [usedInputs_eq, List.mem_eraseDups, List.mem_filterMap]
  exact ⟨fun ⟨_, h, heq⟩ => heq ▸ h, fun h => ⟨_, h, rfl⟩⟩

theorem mem_usedInputs_of_source {d : Detail} {s : Source} (hd : d ∈ (t.draft rootId).toList)
    (hs : s ∈ d.source) : s.input ∈ t.usedInputs := by
  refine mem_usedInputs.mpr (List.mem_map.mpr ⟨d, hd, ?_⟩)
  rw [Option.mem_def.mp hs]
  rfl

/-! ### The tree that is read -/

/-- The tree that is read has the nodes of the document under their places. -/
theorem nodes_reread (ht : t.Consistent) (hroot : t.kind? rootId = some .root) :
    t.reread.nodes = ((t.shape rootId).toList.map
      (t.entry t.placeIn fun x => (t.detail x).renumber t.usedInputs)).toArray := by
  rw [reread, draft, Branch.map_map, ht.layout_shape hroot]
  rfl

/-- The entry of a node: the node itself, with all numbers new. -/
theorem get?_reread (ht : t.Consistent) (hroot : t.kind? rootId = some .root)
    (hx : t.Attached x) : t.reread.get? (t.placeIn x) =
      some (t.entry t.placeIn (fun x => (t.detail x).renumber t.usedInputs) x) := by
  have hmem : x ∈ (t.shape rootId).toList := ht.mem_shape_iff.mpr hx
  rw [get?, nodes_reread ht hroot, List.getElem?_toArray, List.getElem?_map, placeIn,
    List.getElem?_idxOf hmem]
  rfl

/-- A tree that is laid out anew is consistent. -/
theorem consistent_reread (ht : t.Consistent) : t.reread.Consistent := by
  have hsound : ((t.draft rootId).map (Detail.renumber t.usedInputs)).Every Detail.Sound :=
    Draft.sound_map (f := Detail.renumber t.usedInputs) (fun _ => rfl) (fun _ => rfl)
      (ht.sound_draft rootId)
  have h := consistent_ofDraft (Input.assemble "" false none none none) hsound
  exact h.of_links_eq rfl

/-- The root comes first. -/
theorem placeIn_rootId (t : Tree) : t.placeIn rootId = rootId := by
  have hlist : (t.shape rootId).toList = rootId :: (t.shape rootId).toList.tail := by
    rw [shape]
    cases t.nodes.size <;> rfl
  rw [placeIn, hlist, List.idxOf_cons_self]
  rfl

/-- The new tree mirrors the old one, node for node. -/
theorem mirror_reread (ht : t.Consistent) (hroot : t.kind? rootId = some .root) :
    t.Mirror t.placeIn t.reread where
  consistent := ht
  rooted := hroot
  root := t.placeIn_rootId
  distinct x y hx hy heq :=
    (List.idxOf_inj (ht.mem_shape_iff.mpr hx)).mp (congrArg NodeId.index heq)
  node x hx := by
    obtain ⟨n, hn⟩ := hx.exists_get? hroot
    refine ⟨n, _, hn, get?_reread ht hroot hx, ?_⟩
    rw [entry, detail_of_get? hn, parent?, children, hn]
    exact ⟨rfl, rfl, rfl, rfl, rfl⟩

/-- So it prints the same. -/
theorem print_reread (ht : t.Consistent) (hroot : t.kind? rootId = some .root) :
    t.reread.print = t.print := by
  refine (mirror_reread ht hroot).print_eq fun x hx => ?_
  obtain ⟨n, hn⟩ := hx.exists_get? hroot
  rw [content?, content?, get?_reread ht hroot hx, hn, entry, detail_of_get? hn]
  rfl

/-- It says the same as well, with the inputs under their new numbers. -/
theorem draft_reread (ht : t.Consistent) (hroot : t.kind? rootId = some .root) :
    t.reread.draft rootId = (t.draft rootId).map (Detail.renumber t.usedInputs) := by
  have hshape := (mirror_reread ht hroot).shape_eq .refl
  rw [placeIn_rootId] at hshape
  rw [draft, draft, hshape, Branch.map_map, Branch.map_map]
  refine Branch.map_congr _ fun x hx => ?_
  exact detail_of_get? (get?_reread ht hroot (ht.mem_shape_iff.mp hx))

/-! ### Writing it again -/

/-- The nodes name the same inputs in the same order. -/
theorem readFrom_reread (ht : t.Consistent) (hroot : t.kind? rootId = some .root) :
    t.reread.readFrom = t.readFrom.map (Option.map t.usedInputs.idxOf) := by
  rw [readFrom, readFrom, draft_reread ht hroot, Branch.toList_map, List.map_map, List.map_map]
  refine List.map_congr_left fun d _ => ?_
  show (d.source.map (Source.renumber t.usedInputs)).map Source.input = _
  rw [Option.map_map, Function.comp_apply, Option.map_map]
  rfl

/-- All inputs of the new tree are in use, in their order. -/
theorem usedInputs_reread (ht : t.Consistent) (hroot : t.kind? rootId = some .root) :
    t.reread.usedInputs = List.range t.usedInputs.length := by
  have hlist : t.reread.readFrom.filterMap id =
      (t.readFrom.filterMap id).map t.usedInputs.idxOf := by
    rw [readFrom_reread ht hroot, List.filterMap_map, List.map_filterMap]
    rfl
  rw [usedInputs_eq t.reread, hlist, usedInputs_eq, eraseDups_map_idxOf]

/-- A place is written with the number that its input has among those in use. -/
theorem sourceJson_renumber {used : List Nat} {s : Source} (hs : s.input ∈ used) :
    sourceJson (List.range used.length) (s.renumber used) = sourceJson used s := by
  have hlt := List.idxOf_lt_length_iff.mpr hs
  have hindex : (List.range used.length).idxOf (used.idxOf s.input) = used.idxOf s.input := by
    have h := List.nodup_range.idxOf_getElem (used.idxOf s.input)
      (by rw [List.length_range]; exact hlt)
    rwa [List.getElem_range] at h
  have hposition : Position.toJson ∘ Position.narrow = Position.toJson :=
    funext Position.toJson_narrow
  rw [sourceJson, sourceJson, Source.renumber]
  dsimp only
  rw [hindex, Option.map_map, Option.map_map, hposition]

theorem nodeFields_renumber {used : List Nat} {d : Detail} (hd : ∀ s ∈ d.source, s.input ∈ used)
    (nodes : List Json) : nodeFields (List.range used.length) (d.renumber used) nodes =
      nodeFields used d nodes := by
  have hsource : (d.source.map (Source.renumber used)).map (sourceJson (List.range used.length)) =
      d.source.map (sourceJson used) := by
    rw [Option.map_map]
    exact Option.map_congr fun s hs => sourceJson_renumber (hd s hs)
  rw [nodeFields, nodeFields, ← hsource]
  rfl

mutual

/-- A branch is written the same under old and new numbers. -/
theorem branchJson_renumber {used : List Nat} : ∀ b : Draft,
    (∀ d ∈ b.toList, ∀ s ∈ d.source, s.input ∈ used) →
      branchJson (List.range used.length) (b.map (Detail.renumber used)) = branchJson used b
  | .node d kids, h => by
    rw [Branch.toList, List.forall_mem_cons] at h
    rw [Branch.map, branchJson, branchJson, branchesJson_renumber kids h.2,
      nodeFields_renumber h.1]

theorem branchesJson_renumber {used : List Nat} : ∀ bs : List Draft,
    (∀ d ∈ Branch.listAll bs, ∀ s ∈ d.source, s.input ∈ used) →
      branchesJson (List.range used.length) (Branch.mapAll (Detail.renumber used) bs) =
        branchesJson used bs
  | [], _ => rfl
  | b :: bs, h => by
    rw [Branch.listAll, List.forall_mem_append] at h
    rw [Branch.mapAll, branchesJson, branchesJson, branchJson_renumber b h.1,
      branchesJson_renumber bs h.2]

end

theorem filterMap_range (l : List α) : (List.range l.length).filterMap (l[·]?) = l := by
  have hmap : (List.range l.length).map (l[·]?) = l.map some := by
    refine List.ext_getElem (by rw [List.length_map, List.length_map, List.length_range]) ?_
    intro i hi hi'
    rw [List.getElem_map, List.getElem_map, List.getElem_range]
    exact List.getElem?_eq_getElem _
  calc (List.range l.length).filterMap (l[·]?)
      = ((List.range l.length).map (l[·]?)).filterMap id := by rw [List.filterMap_map]; rfl
    _ = (l.map some).filterMap id := by rw [hmap]
    _ = l.filterMap some := by rw [List.filterMap_map]; rfl
    _ = l := List.filterMap_some

/-- Writing the new tree gives what writing the old one did. -/
theorem toJson_reread (ht : t.Consistent) (hroot : t.kind? rootId = some .root)
    (hused : ∀ i ∈ t.usedInputs, i < t.inputs.size) : t.reread.toJson = t.toJson := by
  have hsources : ∀ d ∈ (t.draft rootId).toList, ∀ s ∈ d.source, s.input ∈ t.usedInputs :=
    fun d hd s hs => mem_usedInputs_of_source hd hs
  -- The inputs come in the order of their numbers, so that the table is the same.
  have hinputs : ((List.range t.usedInputs.length).filterMap (t.reread.inputs[·]?)).map
      Input.toJson = (t.usedInputs.filterMap (t.inputs[·]?)).map Input.toJson := by
    have hrange := filterMap_range ((t.usedInputs.filterMap (t.inputs[·]?)).map Input.reread)
    rw [List.length_map, length_inputs_used hused] at hrange
    simp only [reread, List.getElem?_toArray]
    rw [hrange, List.map_map]
    exact List.map_congr_left fun input _ => input.toJson_reread
  rw [toJson_eq_object, toJson_eq_object, usedInputs_reread ht hroot, draft_reread ht hroot,
    hinputs]
  generalize t.draft rootId = b at hsources ⊢
  obtain ⟨d, kids⟩ := b
  rw [Branch.toList, List.forall_mem_cons] at hsources
  rw [Branch.map, Branch.label, Branch.kids, Branch.label, Branch.kids, NodeRecord.object,
    branchesJson_renumber kids hsources.2, nodeFields_renumber hsources.1, NodeRecord.object]

/-! ### Shared inputs -/

/-- The nodes at two places of the document were read from the same input. -/
def SharesInput (t : Tree) (i j : Nat) : Prop :=
  ∃ input, t.readFrom[i]? = some (some input) ∧ t.readFrom[j]? = some (some input)

/-- Nodes share an input in one tree if they do in the other. -/
theorem sharesInput_reread (ht : t.Consistent) (hroot : t.kind? rootId = some .root) (i j : Nat) :
    t.reread.SharesInput i j ↔ t.SharesInput i j := by
  -- Numbering the inputs anew is injective on those in use.
  have hplace : ∀ (i k : Nat), t.reread.readFrom[i]? = some (some k) →
      ∃ input ∈ t.usedInputs, t.readFrom[i]? = some (some input) ∧
        t.usedInputs.idxOf input = k := by
    intro i k hk
    rw [readFrom_reread ht hroot, List.getElem?_map, Option.map_eq_some_iff] at hk
    obtain ⟨o, ho, hk⟩ := hk
    obtain ⟨input, rfl, hindex⟩ := Option.map_eq_some_iff.mp hk
    exact ⟨input, mem_usedInputs.mpr (List.mem_of_getElem? ho), ho, hindex⟩
  constructor
  · rintro ⟨k, hi, hj⟩
    obtain ⟨input, hmem, hi, hindex⟩ := hplace i k hi
    obtain ⟨input', -, hj, hindex'⟩ := hplace j k hj
    obtain rfl : input = input' := (List.idxOf_inj hmem).mp (hindex.trans hindex'.symm)
    exact ⟨input, hi, hj⟩
  · rintro ⟨input, hi, hj⟩
    refine ⟨t.usedInputs.idxOf input, ?_, ?_⟩ <;>
      rw [readFrom_reread ht hroot, List.getElem?_map]
    · rw [hi]
      rfl
    · rw [hj]
      rfl

/-! ### Legible trees -/

namespace Legible

/-- The inputs that are in use are there. -/
theorem lt_of_mem_usedInputs {k : Packages} (h : t.Legible k) :
    ∀ i ∈ t.usedInputs, i < t.inputs.size := by
  intro i hi
  obtain ⟨d, hd, hsource⟩ := List.mem_map.mp (mem_usedInputs.mp hi)
  rw [toList_draft] at hd
  obtain ⟨x, -, rfl⟩ := List.mem_map.mp hd
  obtain ⟨s, hs, rfl⟩ := Option.map_eq_some_iff.mp hsource
  exact (h.detail x).source s hs

/-- All that a legible tree says can be read again. -/
theorem legible_draft {k : Packages} (h : t.Legible k) (ht : t.Consistent) :
    (t.draft rootId).Every (Detail.Legible t.usedInputs) := by
  have hlabels : ∀ d ∈ (t.draft rootId).toList,
      (d.content.opensBlock = true → d.block = true) ∧ ∀ s ∈ d.source, s.input ∈ t.usedInputs := by
    intro d hd
    refine ⟨?_, fun s hs => mem_usedInputs_of_source hd hs⟩
    rw [toList_draft] at hd
    obtain ⟨x, -, rfl⟩ := List.mem_map.mp hd
    exact (h.detail x).block
  exact ((ht.sound_draft rootId).and hlabels).mono fun d kids hd => ⟨hd.1, hd.2.1, hd.2.2⟩

/-- A legible tree that is written is read. -/
theorem ofJson_toJson {e : Environment} (h : t.Legible e.packages) (ht : t.Consistent)
    (hroot : t.kind? rootId = some .root) : Tree.ofJson e t.toJson = .ok t.reread := by
  have hlabel : (t.draft rootId).label.kind = .root := by
    rw [draft, Branch.label_map, shape, label_shapeWithin]
    rw [kind_detail (contains_of_kind? hroot)] at hroot
    exact Option.some.inj hroot
  exact Tree.ofJson_toJson hlabel (h.legible_draft ht) h.lt_of_mem_usedInputs h.inputs

end Legible

end Tree

end Stylesheet
