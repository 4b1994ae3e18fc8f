import Stylesheet.Proofs.Edit.Spliced
import Stylesheet.Proofs.Tree.Reload

/-!
# What stands in front of nodes that are put in

A node in front of which nothing was captured takes over what stands in front of a sibling, the
sample (`Tree.inherited?`, `Tree.before?_settle`). In a rule or an at-rule it takes the blanks only.
At the top of a stylesheet it takes all of it, which may be more than blanks, unless it comes first
or the sample does.

Which nodes these are depends on what is inserted (`Material.Brings`). `Edit.inherited_of_insertion`
says for the four insertions what stands in front of each such node afterwards.
-/

namespace Stylesheet

open Text

namespace Tree

variable {t u v : Tree} {c j parent : NodeId} {ids : List NodeId}

/-- Nothing is captured in front of the node, or blanks only. -/
def Spaced (t : Tree) (id : NodeId) : Prop :=
  ∀ s ∈ t.before? id, ∀ x ∈ s.toList, isBlank x = true

/-! ### Settling in -/

/-- What nodes without anything captured in front of them take over from the sample. -/
def inherited? (t : Tree) (parent : NodeId) (sample : Option NodeId) (inFront : Bool) :
    Option String :=
  if t.isRoot parent then
    if inFront || sample == t.first? parent then none else sample.bind t.before?
  else (sample.bind t.before?).map blanksOf

/-- Blanks, unless a node at the top of a stylesheet is the sample and is not the first one. -/
theorem inherited?_cases (t : Tree) (parent : NodeId) (sample : Option NodeId) (inFront : Bool) :
    (∀ s ∈ t.inherited? parent sample inFront, ∀ x ∈ s.toList, isBlank x = true) ∨
      t.isRoot parent = true ∧ ∃ s ∈ sample, t.first? parent ≠ some s ∧
        t.inherited? parent sample inFront = t.before? s := by
  unfold inherited?
  split_ifs with hroot hfirst
  · exact Or.inl nofun
  -- At the root the sample's text is copied as it is, unless the sample is the first child.
  · cases sample with
    | none => exact Or.inl nofun
    | some s =>
      refine Or.inr ⟨hroot, s, rfl, fun h => hfirst ?_, rfl⟩
      simp [h]
  · left
    intro s hs x hx
    obtain ⟨before, -, rfl⟩ := Option.map_eq_some_iff.mp hs
    rw [blanksOf, String.toList_ofList, List.mem_filter] at hx
    exact hx.2

/-- Only the container and the sample count. -/
theorem inherited?_congr {sample : Option NodeId} (hkind : u.kind? parent = t.kind? parent)
    (hchildren : u.children parent = t.children parent)
    (hsample : ∀ s ∈ sample, u.before? s = t.before? s) (inFront : Bool) :
    u.inherited? parent sample inFront = t.inherited? parent sample inFront := by
  have hbind : sample.bind u.before? = sample.bind t.before? := by
    cases sample with
    | none => rfl
    | some s => exact hsample s rfl
  rw [inherited?, inherited?, isRoot, isRoot, first?, first?, hkind, hchildren, hbind]

/-- The front of a node is set, -/
theorem before?_setBefore (before : Option String) (hc : t.contains c = true) :
    (t.setBefore before c).before? c = before := by
  obtain ⟨n, hn⟩ := Option.isSome_iff_exists.mp hc
  rw [setBefore, before?, get?_modify, if_pos rfl, hn]
  rfl

/-- and that of another node is not. -/
theorem before?_setBefore_of_ne (before : Option String) {id : NodeId} (hne : id ≠ c) :
    (t.setBefore before id).before? c = t.before? c := by
  rw [before?_eq_face, face_setBefore, if_neg hne, ← before?_eq_face]

/-- Settling one node leaves the fronts of others alone. -/
theorem before?_settleOne_of_ne (parentIsRoot : Bool) (sampleBefore : Option String)
    {id : NodeId} (hne : id ≠ c) :
    (settleOne parent parentIsRoot sampleBefore t id).before? c = t.before? c := by
  rw [before?_eq_face, face_settleOne_of_ne _ _ _ _ hne, ← before?_eq_face]

/-- A node that has a front keeps it, and so does every node at the root. -/
theorem before?_settleOne (parentIsRoot : Bool) (sampleBefore : Option String)
    (hc : t.contains c = true) :
    (settleOne parent parentIsRoot sampleBefore t c).before? c =
      if parentIsRoot || (t.before? c).isSome then t.before? c else sampleBefore.map blanksOf := by
  have hface := congrFun (face_markTreeDirty t c) c
  obtain ⟨n, hn⟩ := Option.isSome_iff_exists.mp hc
  rw [face, face, hn] at hface
  obtain ⟨n', hn', hsame⟩ := Option.map_eq_some_iff.mp hface
  have hraws : n'.raws = n.raws := congrArg (fun f : Node.Face => f.detail.raws) hsame
  simp only [settleOne, before?, get?_modify, if_pos, hn, hn', Option.map_some, Option.bind_some]
  show (if parentIsRoot || n'.raws.before.isSome then n'.raws.before else _) = _
  rw [hraws]

theorem contains_settleOne (parentIsRoot : Bool) (sampleBefore : Option String) (t : Tree)
    (id : NodeId) :
    (settleOne parent parentIsRoot sampleBefore t id).contains c = t.contains c := by
  by_cases hid : id = c
  · rw [settleOne, Tree.contains, get?_modify, if_pos hid, Option.isSome_map, ← Tree.contains,
      contains_eq_face, face_markTreeDirty, ← contains_eq_face]
  · rw [contains_eq_face, face_settleOne_of_ne _ _ _ _ hid, ← contains_eq_face]

theorem contains_setBefore (before : Option String) (t : Tree) (id : NodeId) :
    (t.setBefore before id).contains c = t.contains c := by
  rw [contains_eq_face, contains_eq_face, face_setBefore]
  split_ifs
  · rw [Option.isSome_map]
  · rfl

/-- A node gets something in front of it in one step of many, and keeps it. -/
theorem before?_foldl {step : Tree → NodeId → Tree} {a b : Option String}
    (hcontains : ∀ u id, (step u id).contains c = u.contains c)
    (hother : ∀ u id, id ≠ c → (step u id).before? c = u.before? c)
    (hself : ∀ u, u.contains c = true → u.before? c = b ∨ u.before? c = a →
      (step u c).before? c = b)
    (ids : List NodeId) (ht : t.contains c = true)
    (h : t.before? c = b ∨ c ∈ ids ∧ t.before? c = a) :
    (ids.foldl step t).contains c = true ∧ (ids.foldl step t).before? c = b := by
  -- The node may come up more than once; the second time it has its new text already.
  induction ids generalizing t with
  | nil => exact ⟨ht, h.resolve_right fun h => List.not_mem_nil h.1⟩
  | cons id ids ih =>
    rw [List.foldl_cons]
    apply ih
    · rw [hcontains]
      exact ht
    by_cases hid : id = c
    · subst hid
      exact Or.inl (hself t ht (h.imp_right fun h => h.2))
    · rw [hother t id hid]
      exact h.imp_right fun h => ⟨(List.mem_cons.mp h.1).resolve_left (Ne.symm hid), h.2⟩

/-- What stands in front of a node when it has settled in, before the top of a stylesheet is dealt
with. -/
theorem before?_settleEach (parent : NodeId) (parentIsRoot : Bool)
    (sampleBefore : Option String) (hc : c ∈ ids) (hcontains : t.contains c = true)
    (hnone : t.before? c = none) :
    (ids.foldl (settleOne parent parentIsRoot sampleBefore) t).contains c = true ∧
      (ids.foldl (settleOne parent parentIsRoot sampleBefore) t).before? c =
        if parentIsRoot then none else sampleBefore.map blanksOf := by
  apply before?_foldl (a := none)
  case hcontains => exact contains_settleOne parentIsRoot sampleBefore
  case hother => exact fun u id => before?_settleOne_of_ne parentIsRoot sampleBefore
  case hself =>
    intro u hu hbefore
    rw [before?_settleOne _ _ hu]
    rcases hbefore with h | h <;> rw [h] <;> cases parentIsRoot <;> simp
  case ht => exact hcontains
  case h => exact Or.inr ⟨hc, hnone⟩

/-- What stands in front of a node that settles in, when nothing was captured there. -/
theorem before?_settle (hc : c ∈ ids) (hcontains : t.contains c = true)
    (hnone : t.before? c = none) (hparent : parent ∉ ids) {sample : Option NodeId}
    (hsample : ∀ s ∈ sample, s ∉ ids) (inFront : Bool) :
    (t.settle parent sample inFront ids).before? c = t.inherited? parent sample inFront := by
  obtain ⟨hthere, hbefore⟩ := before?_settleEach parent (t.isRoot parent)
    (sample.bind t.before?) hc hcontains hnone
  have hface := face_foldl_of_not_mem (fun u id hne => face_settleOne_of_ne parent (t.isRoot parent)
    (sample.bind t.before?) u hne) hparent t
  unfold settle inherited?
  dsimp only
  generalize ids.foldl (settleOne parent (t.isRoot parent) (sample.bind t.before?)) t = settled
    at hthere hbefore hface ⊢
  have hfirst : settled.first? parent = t.first? parent := by
    rw [first?, first?, children_eq_face, hface, ← children_eq_face]
  cases sample with
  | none =>
    dsimp only
    rw [hbefore, Option.bind_none, ite_self]
  | some s =>
    have hne : s ≠ c := fun heq => hsample s rfl (heq ▸ hc)
    dsimp only
    cases hroot : t.isRoot parent with
    | false =>
      rw [hroot] at hbefore
      simpa using hbefore
    | true =>
      rw [hroot, if_pos rfl] at hbefore
      rw [if_pos rfl, if_pos rfl, settleAtTop, hfirst]
      cases inFront with
      | true => simpa [before?_setBefore_of_ne _ hne] using hbefore
      | false =>
        by_cases hs : t.first? parent = some s
        · simpa [hs] using hbefore
        · have hs' : ¬ some s = t.first? parent := fun h => hs h.symm
          simp only [Bool.false_eq_true, if_false, beq_iff_eq, hs, Bool.false_or, hs']
          -- Whatever the nodes had in front of them gives way.
          refine (before?_foldl (a := none) (contains_setBefore (t.before? s))
            (fun u id => before?_setBefore_of_ne (t.before? s))
            (fun u hu _ => before?_setBefore (t.before? s) hu) ids hthere (Or.inr ⟨hc, hbefore⟩)).2

/-- Lists are changed, and fronts are not. -/
theorem before?_splice (t : Tree) (parent : NodeId) (place : Nat) (ids : List NodeId)
    (move : Int → Int) : (t.splice parent place ids move).before? = t.before? := by
  funext j
  rw [splice, before?_eq_face, before?_eq_face, face_relist]
  split_ifs
  · cases t.face j <;> rfl
  · rfl

/-- Only nodes that are put in can get another front. -/
theorem before?_insertLast (t : Tree) (parent : NodeId) (hj : j ∉ ids) :
    (t.insertLast parent ids).before? j = t.before? j := by
  have hsettled := face_foldl_of_not_mem (fun u id hne => face_settleOne_of_ne parent
    (t.isRoot parent) ((t.last? parent).bind t.before?) u hne) hj t
  rw [insertLast, before?_splice, before?_eq_face, before?_eq_face]
  unfold settle
  cases hlast : t.last? parent with
  | none => rw [← hsettled, hlast]
  | some s =>
    rw [hlast] at hsettled
    dsimp only
    -- Settling at the top touches the first child of all, which is never a node put in last.
    split_ifs
    · rw [face_settleAtTop _ _ _ _ _ hj, if_neg fun h => Bool.false_ne_true h.1]
      exact congrArg (Option.bind · _) hsettled
    · exact congrArg (Option.bind · _) hsettled

theorem contains_insertLast (t : Tree) (parent : NodeId) (ids : List NodeId) (j : NodeId) :
    (t.insertLast parent ids).contains j = t.contains j := by
  rw [insertLast, splice, contains_eq_links, contains_eq_links, links_relist, links_settle]
  split_ifs <;> simp only [Option.isSome_map]

/-! ### What is made -/

/-- There may be more nodes, and those that were there have what they had in front of them. -/
structure KeepsBefore (t u : Tree) : Prop where
  contains : ∀ j, t.contains j = true → u.contains j = true
  before : ∀ j, t.contains j = true → u.before? j = t.before? j

namespace KeepsBefore

theorem refl (t : Tree) : t.KeepsBefore t :=
  ⟨fun _ h => h, fun _ _ => rfl⟩

theorem trans (h : t.KeepsBefore u) (h' : u.KeepsBefore v) : t.KeepsBefore v where
  contains j hj := h'.contains j (h.contains j hj)
  before j hj := by rw [h'.before j (h.contains j hj), h.before j hj]

/-- What is made for insertion leaves fronts alone. -/
theorem of_intact (h : t.Intact u) : t.KeepsBefore u where
  contains _ hj := h.contains hj
  before j hj := by rw [before?, before?, h j hj]

theorem graft (t : Tree) (b : Draft) : t.KeepsBefore (t.graft b).2 :=
  .of_intact (.graft t b)

/-- A child that was not there before is put into a list. -/
theorem insertLast (h : t.KeepsBefore u) (parent : NodeId) {child : NodeId}
    (hchild : t.contains child = false) : t.KeepsBefore (u.insertLast parent [child]) := by
  have hne : ∀ j, t.contains j = true → j ∉ [child] := by
    intro j hj hmem
    rw [List.mem_singleton.mp hmem, hchild] at hj
    cases hj
  constructor
  · intro j hj
    rw [contains_insertLast]
    exact h.contains j hj
  · intro j hj
    rw [before?_insertLast u parent (hne j hj)]
    exact h.before j hj

end KeepsBefore

/-- A copy of a node is labelled with its details. -/
theorem label_draft (t : Tree) (id : NodeId) : (t.draft id).label = t.detail id := by
  rw [draft, Branch.label_map, shape, label_shapeWithin]

theorem before?_eq_detail (t : Tree) (j : NodeId) : t.before? j = (t.detail j).raws.before := by
  rw [before?, detail]
  cases t.get? j <;> rfl

/-- A new node has the front that was drafted. -/
theorem before?_graft (t : Tree) (b : Draft) :
    (t.graft b).2.before? (t.graft b).1 = b.label.raws.before := by
  obtain ⟨n, hn, hdetail, -, -⟩ := (Stores.holds b (Stores.of_graft t b)).get?_eq
  show ((t.graft b).2.get? ⟨t.nodes.size⟩).bind (·.raws.before) = _
  rw [hn, ← hdetail]
  rfl

/-- Several branches that are put into the store. -/
theorem before?_graftAll : ∀ (bs : List Draft) (t : Tree),
    t.KeepsBefore (t.graftAll bs).2 ∧
      (∀ c ∈ (t.graftAll bs).1, (t.graftAll bs).2.contains c = true) ∧
      (t.graftAll bs).1.map (t.graftAll bs).2.before? = bs.map (·.label.raws.before)
  | [], t => ⟨.refl t, nofun, rfl⟩
  | b :: bs, t => by
    obtain ⟨hkeeps, hcontains, hbefore⟩ := before?_graftAll bs (t.graft b).2
    have htop := (top_graft t b).1
    refine ⟨(KeepsBefore.graft t b).trans hkeeps, ?_, ?_⟩
    · exact List.forall_mem_cons.mpr ⟨hkeeps.contains _ htop, hcontains⟩
    · have hfirst : ((t.graft b).2.graftAll bs).2.before? (t.graft b).1 = b.label.raws.before := by
        rw [hkeeps.before _ htop, before?_graft]
      rw [List.map_cons, ← hbefore, ← hfirst]
      rfl

/-- The children of the root of another tree have in front of them what they had there. -/
theorem before?_graftChildren {f : Detail → Detail} (hf : ∀ d, (f d).raws.before = d.raws.before)
    (other t : Tree) :
    let made := t.graftAll ((other.children rootId).map fun id => (other.draft id).map f)
    (∀ c ∈ made.1, made.2.contains c = true) ∧
      made.1.map made.2.before? = (other.children rootId).map other.before? := by
  intro made
  obtain ⟨-, hcontains, hbefore⟩ := before?_graftAll
    ((other.children rootId).map fun id => (other.draft id).map f) t
  refine ⟨hcontains, hbefore.trans ?_⟩
  rw [List.map_map]
  apply List.map_congr_left
  intro id _
  rw [Function.comp, Branch.label_map, hf, label_draft, before?_eq_detail]

end Tree

/-- What was captured in front of the node of a bag. -/
def Bag.before? : Bag → Option String
  | .node fields _ => fields.raws.bind (·.before)

/-- A node that a bag describes has the front that the bag gives it. -/
theorem BagFields.before_of_detail? {b : BagFields} {hasList : Bool} {d : Detail}
    (h : b.detail? hasList = .ok d) : d.raws.before = b.raws.bind (·.before) := by
  rw [detail?] at h
  cases hc : b.content? with
  | error x => rw [hc] at h; cases h
  | ok content =>
    rw [hc] at h
    cases h
    cases b.raws <;> rfl

namespace Material

/-- What was captured in front of each node that is made of the material. Of nodes that are named,
the tree says so. -/
def Brings (t : Tree) (m : Material) (befores : List (Option String)) : Prop :=
  match m with
  | .node id => List.Forall₂ (fun c b => t.contains c = true → b = t.before? c) [id] befores
  | .nodes ids => List.Forall₂ (fun c b => t.contains c = true → b = t.before? c) ids befores
  | .bag top => befores = [top.before?]
  | .bags tops => befores = tops.map Bag.before?
  | .text css => ∃ w other, (parse w css {}).1 = .ok other ∧
      befores = (other.children Tree.rootId).map other.before?
  | .tree other _ => befores = (other.children Tree.rootId).map other.before?

/-- It makes no difference whether the nodes that are named are looked at before or after others are
made. -/
theorem Brings.earlier {t u : Tree} {m : Material} {befores : List (Option String)}
    (hu : t.KeepsBefore u) (h : m.Brings u befores) : m.Brings t befores := by
  have hnamed : ∀ ids : List NodeId,
      List.Forall₂ (fun c b => u.contains c = true → b = u.before? c) ids befores →
        List.Forall₂ (fun c b => t.contains c = true → b = t.before? c) ids befores :=
    fun ids hids => hids.imp fun c b hb hc => (hb (hu.contains c hc)).trans (hu.before c hc)
  cases m with
  | node id => exact hnamed [id] h
  | nodes ids => exact hnamed ids h
  | _ => exact h

end Material

namespace Editing

open Stylesheet.Tree

/-- While bags are made, what stands in front of nodes is set of new nodes only. -/
theorem building_keepsBefore (t : Tree) :
    Building (fun _ => True) t.KeepsBefore (fun _ => True) (t.contains · = false) where
  push {u _} h _ := by
    rw [push_eq_graft]
    exact ⟨h.trans (.graft u _), not_contains_of_size_le (size_le_of_contains h.contains)⟩
  own _ := trivial
  insertLast h _ hchild := h.insertLast _ hchild

/-- The node of a bag has in front of it what the bag says. -/
theorem ends_buildBefore : ∀ (bag : Bag) (t : Tree),
    Ends (build bag) t (fun _ => True) fun c u =>
      t.KeepsBefore u ∧ u.contains c = true ∧ u.before? c = bag.before?
  | .node fields nodes, t => by
    rw [build]
    refine .bind (R := fun d u => t = u ∧ fields.detail? nodes.isSome = .ok d)
      (.lift _ trivial fun d hd => ⟨rfl, hd⟩) ?_
    rintro d _ ⟨rfl, hd⟩
    refine .bind (R := fun c u => c = (t.graft (.node d [])).1 ∧ u = (t.graft (.node d [])).2)
      (.changeGet ?_) ?_
    · rw [push_eq_graft]
      exact ⟨rfl, rfl⟩
    rintro _ _ ⟨rfl, rfl⟩
    have htop := (top_graft t (.node d [])).1
    have hbefore := (before?_graft t (.node d [])).trans (BagFields.before_of_detail? hd)
    have hkeeps := KeepsBefore.graft t (.node d [])
    cases d.block with
    | false => exact .pure ⟨hkeeps, htop, hbefore⟩
    | true =>
      -- What is made below the node is made while the node is there.
      refine .andReturn ((((building_keepsBefore _).buildList trivial (fun _ _ bag _ =>
        bag.describes fun _ _ _ _ => trivial) (.refl _)).mono (fun _ _ => trivial) fun _ _ h => h))
        fun _ u hu => ?_
      exact ⟨hkeeps.trans hu, hu.contains _ htop, (hu.before _ htop).trans hbefore⟩

/-- Nodes that are made one after the other, when what is known of one stays true while others are
made. -/
theorem ends_eachBefore {α : Type} {f : α → Editing NodeId} {G : α → Tree → Option String → Prop}
    (hG : ∀ a t u b, t.KeepsBefore u → G a t b → G a u b)
    (hf : ∀ a t, Ends (f a) t (fun _ => True) fun c u =>
      t.KeepsBefore u ∧ u.contains c = true ∧ G a u (u.before? c)) : ∀ (as : List α) (t : Tree),
    Ends (as.mapM f) t (fun _ => True) fun cs u => t.KeepsBefore u ∧
      (∀ c ∈ cs, u.contains c = true) ∧ List.Forall₂ (G · u ·) as (cs.map u.before?)
  | [], t => by
    rw [List.mapM_nil]
    exact .pure ⟨.refl t, nofun, .nil⟩
  | a :: as, t => by
    rw [List.mapM_cons]
    refine (hf a t).bind ?_
    rintro c u ⟨hu, hc, ha⟩
    refine (ends_eachBefore hG hf as u).andReturn fun cs v hv => ?_
    obtain ⟨hv, hcs, has⟩ := hv
    refine ⟨hu.trans hv, List.forall_mem_cons.mpr ⟨hv.contains c hc, hcs⟩, .cons ?_ has⟩
    rw [hv.before c hc]
    exact hG a u v _ hv ha

/-- A node that is named, or a copy of it, has in front of it what the node had. -/
theorem ends_adoptBefore (parent : Option NodeId) (id : NodeId) (t : Tree) :
    Ends (adopt parent id) t (fun _ => True) fun c u =>
      t.KeepsBefore u ∧ u.contains c = true ∧ u.contains id = true ∧
        u.before? c = u.before? id := by
  refine .adopt parent id trivial (fun n hn _ _ => ?_) fun n hn _ _ => ?_
  · have hid : t.contains id = true := Option.isSome_iff_exists.mpr ⟨n, hn⟩
    have hkeeps := KeepsBefore.graft t (t.draft id)
    refine ⟨hkeeps, (top_graft t (t.draft id)).1, hkeeps.contains id hid, ?_⟩
    unfold copy
    rw [hkeeps.before id hid, before?_graft, label_draft, before?_eq_detail]
  · have hid : t.contains id = true := Option.isSome_iff_exists.mpr ⟨n, hn⟩
    exact ⟨.refl t, hid, hid, rfl⟩

/-- Nodes bring their own fronts, or those of what was copied. -/
theorem ends_nodesBefore (parent : Option NodeId) (ids : List NodeId) (t : Tree) :
    Ends (ids.mapM (adopt parent)) t (fun _ => True) fun cs u =>
      (∀ c ∈ cs, u.contains c = true) ∧ (Material.nodes ids).Brings u (cs.map u.before?) := by
  have heach := ends_eachBefore (f := adopt parent)
    (G := fun c u b => u.contains c = true ∧ b = u.before? c) ?_ (ends_adoptBefore parent) ids t
  · refine heach.mono (fun _ h => h) fun cs u h => ⟨h.2.1, ?_⟩
    exact h.2.2.imp fun c b hb _ => hb.2
  · intro c u v b hv hc
    exact ⟨hv.contains c hc.1, hc.2.trans (hv.before c hc.1).symm⟩

/-- Bags bring the fronts that they describe. -/
theorem ends_bagsBefore (bags : List Bag) (t : Tree) :
    Ends (bags.mapM build) t (fun _ => True) fun cs u =>
      (∀ c ∈ cs, u.contains c = true) ∧ cs.map u.before? = bags.map Bag.before? := by
  have heach := ends_eachBefore (f := build) (G := fun bag _ b => b = bag.before?)
    (fun _ _ _ _ _ h => h) ends_buildBefore bags t
  refine heach.mono (fun _ h => h) fun cs u h => ⟨h.2.1, ?_⟩
  have hsame := List.forall₂_map_left_iff.mpr (h.2.2.imp fun _ _ hb => hb.symm)
  rw [List.forall₂_eq_eq_eq] at hsame
  exact hsame.symm

/-- What is made of the material has in front of it what was captured there. -/
theorem ends_brings (parent : Option NodeId) (m : Material) (t : Tree) :
    Ends (materialize parent m) t (fun _ => True) fun ids u =>
      (∀ c ∈ ids, u.contains c = true) ∧ m.Brings u (ids.map u.before?) := by
  cases m with
  | node id =>
    rw [materialize]
    refine (ends_adoptBefore parent id t).andReturn fun c u h => ?_
    exact ⟨List.forall_mem_singleton.mpr h.2.1, .cons (fun _ => h.2.2.2) .nil⟩
  | nodes ids => exact ends_nodesBefore parent ids t
  | bag bag =>
    rw [materialize]
    refine (ends_buildBefore bag t).andReturn fun c u h => ?_
    exact ⟨List.forall_mem_singleton.mpr h.2.1, congrArg (fun b => [b]) h.2.2⟩
  | bags bags => exact ends_bagsBefore bags t
  -- A text and a tree come with texts of their own; what bags bring is read off their fields.
  | text css =>
    rw [materialize]
    refine .bind (R := fun other _ => ∃ w, (parse w css {}).1 = .ok other)
      (.parsed css {} trivial fun w _ h => ⟨w, h⟩) ?_
    rintro other u ⟨w, hparse⟩
    obtain ⟨hcontains, hbefore⟩ :=
      before?_graftChildren (f := Tree.dropSource) (fun _ => rfl) other u
    exact .changeGet ⟨hcontains, w, other, hparse, hbefore⟩
  | tree other shared =>
    rw [materialize]
    exact .changeGet (before?_graftChildren (f := renumberInput (t.inputNumber other shared))
      (fun _ => rfl) other { t with inputs := t.inputs ++ other.inputs })

end Editing

namespace Edit

open Stylesheet.Tree Editing

/-- The sample is a child of the container. -/
theorem mem_children_of_sample? {e : Edit} {t : Tree} {parent s : NodeId} {place : Nat}
    (hspot : e.spot? t = some (parent, place)) (hs : s ∈ e.sample? t) :
    s ∈ t.children parent := by
  cases e with
  | append target m =>
    cases hspot
    exact List.mem_of_getLast? hs
  | prepend target m =>
    cases hspot
    exact List.mem_of_head? hs
  -- The sample is the neighbour that the edit names, and its place is in the list.
  | insertBefore target m =>
    cases hs
    exact List.mem_of_getElem? (getElem?_of_indexIn? (place?_eq_some_iff.mp hspot).2)
  | insertAfter target m =>
    cases hs
    obtain ⟨⟨p, i⟩, hplace, heq⟩ := Option.map_eq_some_iff.mp hspot
    cases heq
    exact List.mem_of_getElem? (getElem?_of_indexIn? (place?_eq_some_iff.mp hplace).2)
  | _ => cases hspot

/-- Making what is inserted leaves all fronts alone. -/
theorem keepsBefore_of_opened {e : Edit} {t v : Tree} (h : (e.opened t).Intact v) :
    t.KeepsBefore v := by
  have hkeeps := KeepsBefore.of_intact h
  constructor
  · exact fun j hj => hkeeps.contains j ((contains_opened e t j).trans hj)
  · intro j hj
    rw [hkeeps.before j ((contains_opened e t j).trans hj), before?_opened]

/-- **What stands in front of the nodes that are put in.** Where nothing was captured in front of a
node, nothing is afterwards or blanks are, for whatever is inserted and wherever. The exception is a
node at the top of a stylesheet that takes over all that stands in front of another one, which is
not the first. -/
theorem inherited_of_insertion {d : Desk} (hd : d.tree.Consistent) {m : Material} {target : NodeId}
    {e : Edit}
    (he : e ∈ [append target m, prepend target m, insertBefore target m, insertAfter target m])
    {ids : List NodeId} (hrun : (e.run d).1 = .ok ids) :
    let t := d.tree
    let u := (e.run d).2.tree
    ∃ parent place befores, e.spot? t = some (parent, place) ∧ m.Brings t befores ∧
      List.Forall₂ (fun c before => before = none →
        u.before? c = t.inherited? parent (e.sample? t) (e.inFront t) ∧
          (u.Spaced c ∨ t.isRoot parent = true ∧
            ∃ s ∈ e.sample? t, t.first? parent ≠ some s ∧ u.before? c = t.before? s))
        ids befores := by
  intro t u
  have hends := ends_settledAt hd he (R := fun parent ids v =>
    (∀ c ∈ ids, c ≠ parent ∧ c ∉ v.children parent) ∧ (∀ c ∈ ids, v.contains c = true) ∧
      m.Brings v (ids.map v.before?)) ?_
  · obtain ⟨parent, place, v, hspot, hparent, hintact, ⟨hloose, hcontains, hbrings⟩, move, hu⟩ :=
      hends.of_ok hrun
    have hkeeps := keepsBefore_of_opened hintact
    have hchildren := children_of_opened hparent hintact
    refine ⟨parent, place, ids.map v.before?, hspot, hbrings.earlier hkeeps, ?_⟩
    rw [List.forall₂_map_right_iff, List.forall₂_same]
    intro c hc hnone
    have hmem : ∀ s ∈ e.sample? t, s ∈ t.children parent :=
      fun s => mem_children_of_sample? hspot
    have hsample : ∀ s ∈ e.sample? t, s ∉ ids := by
      intro s hs hids
      apply (hloose s hids).2
      rw [hchildren]
      exact hmem s hs
    have hkind : v.kind? parent = t.kind? parent := by
      rw [kind?, hintact parent ((contains_opened e t parent).trans hparent), ← kind?,
        (sameLists_opened e t).kind]
    have hbefore : u.before? c = t.inherited? parent (e.sample? t) (e.inFront t) := by
      have hsettled := before?_settle hc (hcontains c hc) hnone
        (fun hids => (hloose parent hids).1 rfl) hsample (e.inFront t)
      rw [inherited?_congr hkind hchildren fun s hs =>
        hkeeps.before s (hd.contains parent s (hmem s hs))] at hsettled
      have hput := congrArg (Tree.before? · c) hu
      rw [before?_splice] at hput
      exact hput.trans hsettled
    refine ⟨hbefore, ?_⟩
    unfold Spaced
    rw [hbefore]
    exact inherited?_cases t parent _ _
  · -- Of the nodes that were there, only detached ones are put in themselves.
    intro parent w hw hparent
    refine ((ends_brings (some parent) m w).and (intact_materialize hw (some parent) m)).mono
      (fun _ _ => trivial) ?_
    rintro ids v ⟨⟨hcontains, hbrings⟩, hintact, hloose⟩
    refine ⟨fun c hc => ⟨?_, fun hmem => ?_⟩, hcontains, hbrings⟩
    · rintro rfl
      exact (hloose c hc hparent).2.2 rfl
    · rw [children, hintact parent hparent, ← children] at hmem
      have hdetached := (hloose c hc (hw.contains parent c hmem)).1
      rw [hw.listed parent c hmem] at hdetached
      cases hdetached

/-- A rule is put behind a declaration in a rule, where there is a line break in front of it. -/
theorem inherited_of_insertion_inRule :
    let d : Desk := ⟨Tree.sheet "a\x7bb:c;\n *d:e\x7d", {}⟩
    d.tree.Consistent ∧ ((append ⟨1⟩ (.bag (Bag.rule "x"))).run d).1 = .ok [⟨4⟩] ∧
      ((append ⟨1⟩ (.bag (Bag.rule "x"))).run d).2.tree.before? ⟨4⟩ = some "\n " ∧
      ((append ⟨1⟩ (.bag (Bag.rule "x"))).run d).2.tree.Spaced ⟨4⟩ := by
  intro d
  have hd : d.tree.Consistent := (Tree.grown_sheet _).orderly.consistent
  have hrun : ((append ⟨1⟩ (.bag (Bag.rule "x"))).run d).1 = .ok [⟨4⟩] := by decide +kernel
  obtain ⟨parent, place, befores, hspot, hbrings, hall⟩ :=
    inherited_of_insertion hd List.mem_cons_self hrun
  cases hspot
  cases hbrings
  have hroot : d.tree.isRoot ⟨1⟩ = false := by decide +kernel
  obtain ⟨-, hspaced⟩ := (List.forall₂_cons.mp hall).1 rfl
  refine ⟨hd, hrun, by decide +kernel, hspaced.resolve_right fun h => ?_⟩
  rw [hroot] at h
  exact Bool.false_ne_true h.1

/-- The hack in front of a declaration at the top of a stylesheet is put in front of a new rule. -/
theorem hack_handed_on :
    ¬ ∀ (w : Workspace) (css : String) (options : ParseOptions) (t : Tree) (target : NodeId)
      (bag : Bag) (e : Edit) (ids : List NodeId), (parse w css options).1 = .ok t →
      e ∈ [append target (.bag bag), prepend target (.bag bag), insertBefore target (.bag bag),
        insertAfter target (.bag bag)] →
      bag.before? = none → (e.run ⟨t, w⟩).1 = .ok ids →
        ∀ c ∈ ids, (e.run ⟨t, w⟩).2.tree.Spaced c := by
  intro h
  have hspaced := h {} "a\x7b\x7d*b:c" {} _ rootId (Bag.rule "x") _ [⟨3⟩]
    (parse_sheet (by decide +kernel)) List.mem_cons_self rfl (by decide +kernel) ⟨3⟩
    List.mem_cons_self
  have hbefore : ((append rootId (.bag (Bag.rule "x"))).run
      ⟨Tree.sheet "a\x7b\x7d*b:c", {}⟩).2.tree.before? ⟨3⟩ = some "*" := by
    decide +kernel
  exact absurd (hspaced "*" hbefore '*' (by decide)) (by decide)

end Edit

end Stylesheet
