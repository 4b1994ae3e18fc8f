import Stylesheet.Proofs.Edit.Command
import Stylesheet.Proofs.Edit.Ends
import Stylesheet.Proofs.Tree.Shape

/-!
# What edits keep of every node

All that edits do to the details of nodes is little: they change them in place, copy them, or make
them anew. So a condition on single nodes that outlives these few changes (`Detail.Lasting`) holds
of all nodes of a tree for good, when it holds of them once: every edit keeps it, whether the edit
fails or not (`Edit.throughout_run`).

What is put in has to meet the condition as well (`Edit.Meets`): the nodes that bags describe, the
nodes of texts and of other trees, and formatting that is set.
-/

namespace Stylesheet

/-- A condition on the details of a node that outlives edits. It may depend on the number of inputs
of the tree. -/
structure Detail.Lasting (P : Nat → Detail → Prop) : Prop where
  default (count : Nat) : P count default
  mono {m n : Nat} {d : Detail} (hle : m ≤ n) (h : P m d) : P n d
  /-- Formatting around a node is changed, and what is between its parts is dropped at most. -/
  around {count : Nat} {d : Detail} (h : P count d) (before after between : Option String)
    (hbetween : between = d.raws.between ∨ between = none) :
    P count { d with raws := { d.raws with before, after, between } }
  withContent {count : Nat} {d : Detail} (h : P count d) {new : Content}
    (hkind : new.kind = d.content.kind) : P count { d with content := new }
  openBlock {count : Nat} {d : Detail} (h : P count d) : P count { d with block := true }
  dropSource {m : Nat} {d : Detail} (h : P m d) (n : Nat) : P n (Tree.dropSource d)
  renumberInput {m n : Nat} {d : Detail} (h : P m d) {f : Nat → Nat} (hf : ∀ i < m, f i < n) :
    P n (Tree.renumberInput f d)

namespace Tree

variable {P : Nat → Detail → Prop} {I : Input → Prop} {t : Tree}

/-- A condition holds of every node, and one of every input. -/
structure Throughout (P : Nat → Detail → Prop) (I : Input → Prop) (t : Tree) : Prop where
  detail : ∀ x, P t.inputs.size (t.detail x)
  inputs : ∀ input ∈ t.inputs, I input

/-- It is enough to look at the nodes that are there: the details of others are the default ones. -/
theorem throughout_of_get? (hP : Detail.Lasting P)
    (hdetail : ∀ x n, t.get? x = some n → P t.inputs.size n.detail)
    (hinputs : ∀ input ∈ t.inputs, I input) : t.Throughout P I := by
  refine ⟨fun x => ?_, hinputs⟩
  rw [Tree.detail]
  cases hx : t.get? x with
  | none => exact hP.default _
  | some n => exact hdetail x n hx

namespace Throughout

theorem of_get? (h : t.Throughout P I) {x : NodeId} {n : Node} (hn : t.get? x = some n) :
    P t.inputs.size n.detail :=
  detail_of_get? hn ▸ h.detail x

/-! ### Changes in place -/

section InPlace

variable (hP : Detail.Lasting P) (h : t.Throughout P I)

include hP h

/-- One node is changed. -/
theorem modify (id : NodeId) {f : Node → Node}
    (hf : ∀ n, t.get? id = some n → P t.inputs.size n.detail →
      P t.inputs.size (f n).detail) : (t.modify id f).Throughout P I := by
  refine throughout_of_get? hP (fun x n hn => ?_) h.inputs
  rw [get?_modify] at hn
  split_ifs at hn with hx
  · obtain ⟨m, hm, rfl⟩ := Option.map_eq_some_iff.mp hn
    exact hf m (hx ▸ hm) (h.of_get? hm)
  · exact h.of_get? hn

omit hP in
/-- A step for each node of a list keeps the condition. -/
theorem foldl {step : Tree → NodeId → Tree}
    (hstep : ∀ t x, t.Throughout P I → (step t x).Throughout P I) (ids : List NodeId) :
    (ids.foldl step t).Throughout P I := by
  induction ids generalizing t with
  | nil => exact h
  | cons x ids ih => exact ih (hstep t x h)

/-- Changes that leave all details as they are do not matter. -/
theorem modifyAll (ids : List NodeId) {f : Node → Node} (hf : ∀ n, (f n).detail = n.detail) :
    (t.modifyAll ids f).Throughout P I := by
  refine foldl h (fun t x h => h.modify hP x fun n _ hn => ?_) ids
  rw [hf]
  exact hn

/-- Marks are no details. -/
theorem markDirty (id : NodeId) : (t.markDirty id).Throughout P I := by
  rw [Tree.markDirty]
  split_ifs
  · exact h.modifyAll hP _ fun _ => rfl
  · exact h

theorem setBefore (before : Option String) (id : NodeId) :
    (t.setBefore before id).Throughout P I :=
  h.modify hP id fun n _ hn => hP.around hn before n.raws.after n.raws.between (.inl rfl)

/-- A node that is put in is marked with all that is below it, and gets a new front. -/
theorem settleOne (parent : NodeId) (parentIsRoot : Bool) (sampleBefore : Option String)
    (id : NodeId) : (Tree.settleOne parent parentIsRoot sampleBefore t id).Throughout P I := by
  have hmarked : (t.markTreeDirty id).Throughout P I := h.modifyAll hP _ fun _ => rfl
  exact hmarked.modify hP id fun n _ hn => hP.around hn _ n.raws.after n.raws.between (.inl rfl)

theorem settleAtTop (parent sample : NodeId) (inFront : Bool) (ids : List NodeId)
    (sampleBefore : Option String) :
    (t.settleAtTop parent sample inFront ids sampleBefore).Throughout P I := by
  rw [Tree.settleAtTop]
  split_ifs
  · exact h.setBefore hP _ sample
  · exact h
  · exact foldl h (fun _ x h => h.setBefore hP sampleBefore x) ids

/-- All nodes that are put in, and the node that was first before. -/
theorem settle (parent : NodeId) (sample : Option NodeId) (inFront : Bool) (ids : List NodeId) :
    (t.settle parent sample inFront ids).Throughout P I := by
  have hsettled := foldl h (fun _ x h => h.settleOne hP parent (t.isRoot parent)
    (sample.bind t.before?) x) ids
  cases sample with
  | none => exact hsettled
  | some s =>
    unfold Tree.settle
    dsimp only
    split_ifs
    · exact hsettled.settleAtTop hP parent s inFront ids _
    · exact hsettled

/-- Lists and cursors are no details. -/
theorem relist (parent : NodeId) (f : List NodeId → List NodeId) (move : Int → Int) :
    (t.relist parent f move).Throughout P I := by
  refine markDirty hP ?_ parent
  exact h.modify hP parent fun _ _ hn => hn

theorem splice (parent : NodeId) (place : Nat) (ids : List NodeId) (move : Int → Int) :
    (t.splice parent place ids move).Throughout P I :=
  h.relist hP parent _ move

theorem insertLast (parent : NodeId) (ids : List NodeId) :
    (t.insertLast parent ids).Throughout P I :=
  (h.settle hP parent _ _ ids).splice hP parent _ ids _

theorem detach (id : NodeId) : (t.detach id).Throughout P I :=
  h.modify hP id fun _ _ hn => hn

/-- The second child takes over what the first one has in front of it. -/
theorem removeAt (parent child : NodeId) (i : Nat) :
    (t.removeAt parent child i).Throughout P I := by
  have hover : (t.handOverBefore parent child i).Throughout P I := by
    rw [handOverBefore]
    split_ifs
    · split
      · exact h.setBefore hP _ _
      · exact h
    · exact h
  exact (hover.detach hP child).relist hP parent _ _

theorem removeChildren (parent : NodeId) : (t.removeChildren parent).Throughout P I :=
  (foldl h (fun _ x h => h.detach hP x) (t.children parent)).relist hP parent _ _

theorem setContent {id : NodeId} {n : Node} (hn : t.get? id = some n) {new : Content}
    (hkind : new.kind = n.content.kind) : (t.setContent id n.content new).Throughout P I := by
  rw [Tree.setContent]
  split_ifs
  · exact h
  · refine markDirty hP ?_ id
    refine h.modify hP id fun m hm hdetail => hP.withContent hdetail ?_
    rw [hn] at hm
    cases hm
    exact hkind

theorem cleanRaws (id : NodeId) (keepBetween : Bool) :
    (t.cleanRaws id keepBetween).Throughout P I := by
  refine foldl h (fun _ x h => markDirty hP ?_ x) _
  refine h.modify hP x fun n _ hn => hP.around hn none none _ ?_
  cases keepBetween with
  | false => exact Or.inr rfl
  | true => exact Or.inl rfl

end InPlace

/-! ### New nodes -/

section New

variable (hP : Detail.Lasting P) (h : t.Throughout P I)

include hP h

/-- New nodes have the details of the draft. -/
theorem graft {b : Draft} (hb : ∀ d ∈ b.toList, P t.inputs.size d) :
    (t.graft b).2.Throughout P I := by
  refine throughout_of_get? hP (fun x n hn => ?_) h.inputs
  rcases mem_layout_of_get?_graft hn with hn | hn
  · exact h.of_get? hn
  · exact hb n.detail (detail_mem_of_mem_layout hn)

theorem graftAll {bs : List Draft} (hbs : ∀ b ∈ bs, ∀ d ∈ b.toList, P t.inputs.size d) :
    (t.graftAll bs).2.Throughout P I := by
  induction bs generalizing t with
  | nil => exact h
  | cons b bs ih =>
    rw [List.forall_mem_cons] at hbs
    exact ih (h.graft hP hbs.1) hbs.2

/-- A copy has the details of the nodes that it is made of, and lacks a front. -/
theorem copy (id : NodeId) : (t.copy id).2.Throughout P I := by
  refine h.graft hP fun d hd => ?_
  rw [draft, Branch.toList_map] at hd
  obtain ⟨x, -, rfl⟩ := List.mem_map.mp hd
  exact h.detail x

omit hP h in
/-- The nodes at the top of another tree, changed one by one. -/
theorem of_other {other : Tree} {J : Input → Prop} (hother : other.Throughout P J)
    {f : Detail → Detail} {count : Nat} (hf : ∀ d, P other.inputs.size d → P count (f d)) :
    ∀ b ∈ (other.children rootId).map (fun id => (other.draft id).map f), ∀ d ∈ b.toList,
      P count d := by
  intro b hb d hd
  obtain ⟨id, -, rfl⟩ := List.mem_map.mp hb
  rw [Branch.toList_map, draft, Branch.toList_map, List.map_map] at hd
  obtain ⟨x, -, rfl⟩ := List.mem_map.mp hd
  exact hf _ (hother.detail x)

/-- The inputs of a text that is put in do not come along. -/
theorem importText {other : Tree} {J : Input → Prop} (hother : other.Throughout P J) :
    (t.importText other).2.Throughout P I :=
  h.graftAll hP (of_other hother fun _ hd => hP.dropSource hd _)

/-- Inputs that no node names do no harm. -/
theorem appendInputs {inputs : Array Input} (hinputs : ∀ i ∈ inputs, I i) :
    Throughout P I { t with inputs := t.inputs ++ inputs } := by
  refine ⟨fun x => hP.mono ?_ (h.detail x), fun i hi => ?_⟩
  · show t.inputs.size ≤ (t.inputs ++ inputs).size
    rw [Array.size_append]
    exact Nat.le_add_right _ _
  · rcases Array.mem_append.mp hi with hi | hi
    · exact h.inputs i hi
    · exact hinputs i hi

/-- The nodes of another tree come with their inputs, which get new numbers. -/
theorem importTree {other : Tree} (hother : other.Throughout P I) (shared : List (Nat × Nat)) :
    (t.importTree other shared).2.Throughout P I := by
  refine (h.appendInputs hP hother.inputs).graftAll hP (of_other hother fun d hd => ?_)
  show P (t.inputs ++ other.inputs).size (Tree.renumberInput (t.inputNumber other shared) d)
  rw [Array.size_append]
  exact hP.renumberInput hd fun i hi => inputNumber_lt t other shared hi

end New

end Throughout

/-- The condition holds of the empty tree when it holds of a bare root. -/
theorem throughout_empty (hP : Detail.Lasting P) (hroot : P 0 { content := .root }) :
    Tree.empty.Throughout P I := by
  refine throughout_of_get? hP (fun x n hn => ?_) fun i hi => absurd hi (Array.not_mem_empty i)
  have hmem : n ∈ Tree.empty.nodes := Array.mem_of_getElem? hn
  rw [Tree.empty, Array.mem_singleton] at hmem
  rw [hmem]
  exact hroot

/-- A condition on the nodes that are read and on the input that they are read from. -/
theorem throughout_of_parse (hP : Detail.Lasting P) {w : Workspace} {css : String}
    {options : ParseOptions} (h : (parse w css options).1 = .ok t)
    (hdetail : ∀ input b, (Input.create w css options).1 = .ok input →
      outlineText input.position input.css = .ok b → ∀ d ∈ b.toList, P 1 d)
    (hinput : ∀ input, (Input.create w css options).1 = .ok input → I input) :
    t.Throughout P I := by
  obtain ⟨input, w', b, hcreate, hb, rfl⟩ := parse_eq_ofDraft h
  have hok : (Input.create w css options).1 = .ok input := congrArg Prod.fst hcreate
  refine throughout_of_get? hP (fun x n hn => ?_) fun i hi => ?_
  · exact hdetail input b hok hb n.detail (detail_mem_of_mem_layout (mem_layout_of_get? hn))
  · obtain rfl : i = input := Array.mem_singleton.mp hi
    exact hinput i hok

end Tree

/-! ### What is put in -/

/-- A condition holds of every node that comes in with the material. -/
def Material.Meets (P : Nat → Detail → Prop) (I : Input → Prop) : Material → Prop
  | .bag b => b.Describes fun d => ∀ count, P count d
  | .bags bs => ∀ b ∈ bs, b.Describes fun d => ∀ count, P count d
  | .text css => ∀ w other, (parse w css {}).1 = .ok other → other.Throughout P fun _ => True
  | .tree other _ => other.Throughout P I
  | _ => True

namespace Editing

open Stylesheet.Tree

variable {P : Nat → Detail → Prop} {I : Input → Prop}

section

variable (hP : Detail.Lasting P)

include hP

/-- Nodes that bags describe are new, and so they only have to meet the condition themselves. -/
theorem building_throughout :
    Building (fun d => ∀ count, P count d) (Throughout P I) (fun _ => True) fun _ => True where
  push h hd := by
    rw [push_eq_graft]
    refine ⟨h.graft hP fun d' hd' => ?_, trivial⟩
    obtain rfl := List.mem_singleton.mp hd'
    exact hd _
  own _ := trivial
  insertLast h _ _ := h.insertLast hP _ _

/-- Whatever a bag is built into, and whether this fails or not. -/
theorem keeps_build {bag : Bag} (hbag : bag.Describes fun d => ∀ count, P count d) :
    Keeps (Throughout P I) (build bag) :=
  fun _ h => ((building_throughout hP).build hbag h).mono (fun _ h => h) fun _ _ h => h.1

/-- A node is taken as it is or copied. -/
theorem keeps_adopt (parent : Option NodeId) (id : NodeId) :
    Keeps (Throughout P I) (adopt parent id) :=
  fun _ h => .adopt parent id h (fun _ _ _ _ => h.copy hP id) fun _ _ _ _ => h

/-- All material that meets the condition. -/
theorem keeps_materialize (parent : Option NodeId) {m : Material} (hm : m.Meets P I) :
    Keeps (Throughout P I) (materialize parent m) := by
  cases m with
  | node id => exact (keeps_adopt hP parent id).bind fun c => .pure [c]
  | nodes ids => exact .mapM ids fun id _ => keeps_adopt hP parent id
  | bag bag => exact (keeps_build hP hm).bind fun c => .pure [c]
  | bags bags => exact .mapM bags fun bag hbag => keeps_build hP (hm bag hbag)
  | text css =>
    intro t h
    rw [materialize]
    -- Two trees meet the condition here: the one that was read, and the one that takes its nodes.
    refine .bind (R := fun other u => other.Throughout P (fun _ => True) ∧ u.Throughout P I)
      (.parsed css {} h ?_) ?_
    · exact fun w other hparse => ⟨hm w other hparse, h⟩
    · exact fun other u hu => .changeGet (hu.2.importText hP hu.1)
  | tree other shared =>
    rw [materialize]
    exact .changeGet fun t h => h.importTree hP hm shared

theorem keeps_openBlock (parent : NodeId) : Keeps (Throughout P I) (openBlock parent) := by
  rw [openBlock]
  refine .bind (.node parent) fun n => ?_
  have hopen : Keeps (Throughout P I)
      (change (·.modify parent (·.withDetail fun d => { d with block := true }))) :=
    .change fun t h => h.modify hP parent fun _ _ hn => hP.openBlock hn
  split
  · exact .throw _
  · exact .throw _
  · exact hopen

/-- What all ways to insert have in common. -/
theorem keeps_insert {m : Material} (hm : m.Meets P I) (parent : NodeId)
    {f : List NodeId → Tree → Tree}
    (hf : ∀ ids (t : Tree), t.Throughout P I → (f ids t).Throughout P I) :
    Keeps (Throughout P I) (do
      let ids ← materialize (some parent) m
      change (f ids)
      return ids) :=
  (keeps_materialize hP _ hm).bind fun ids => .bind (.change (hf ids)) fun _ => .pure ids

theorem keeps_append (parent : NodeId) {m : Material} (hm : m.Meets P I) :
    Keeps (Throughout P I) (append parent m) :=
  (keeps_openBlock hP parent).bind fun _ => keeps_insert hP hm parent fun ids _ h =>
    h.insertLast hP parent ids

theorem keeps_prepend (parent : NodeId) {m : Material} (hm : m.Meets P I) :
    Keeps (Throughout P I) (prepend parent m) :=
  (keeps_openBlock hP parent).bind fun _ => keeps_insert hP hm parent fun ids _ h =>
    (h.settle hP parent _ _ ids).splice hP parent _ ids _

omit hP in
theorem keeps_placeOf (id : NodeId) : Keeps (Throughout P I) (placeOf id) := by
  rw [placeOf]
  refine .bind .tree fun t => ?_
  split
  · exact .throw _
  · split
    · exact .throw _
    · exact .pure _

theorem keeps_insertBefore (exist : NodeId) {m : Material} (hm : m.Meets P I) :
    Keeps (Throughout P I) (insertBefore exist m) :=
  (keeps_placeOf exist).bind fun place => keeps_insert hP hm place.1 fun ids _ h =>
    (h.settle hP place.1 _ _ ids).splice hP place.1 _ ids _

theorem keeps_insertAfter (exist : NodeId) {m : Material} (hm : m.Meets P I) :
    Keeps (Throughout P I) (insertAfter exist m) :=
  (keeps_placeOf exist).bind fun place => keeps_insert hP hm place.1 fun ids _ h =>
    (h.settle hP place.1 _ _ ids).splice hP place.1 _ ids _

theorem keeps_removeChild (parent child : NodeId) :
    Keeps (Throughout P I) (removeChild parent child) := by
  rw [removeChild]
  refine .bind .tree fun t => ?_
  split
  · exact .throw _
  · exact .change fun t h => h.removeAt hP parent child _

theorem keeps_remove (id : NodeId) : Keeps (Throughout P I) (remove id) := by
  rw [remove]
  refine .bind (.node id) fun n => ?_
  split
  · exact keeps_removeChild hP _ id
  · exact .pure ()

theorem keeps_removeAll (parent : NodeId) : Keeps (Throughout P I) (removeAll parent) :=
  .bind (.node parent) fun _ => .change fun _ h => h.removeChildren hP parent

theorem keeps_replaceWith (id : NodeId) {m : Material} (hm : m.Meets P I) :
    Keeps (Throughout P I) (replaceWith id m) := by
  rw [replaceWith]
  refine .bind (.node id) fun n => ?_
  have hrest : Keeps (Throughout P I) (do
      let ids ← insertBefore id m
      remove id
      return ids) :=
    (keeps_insertBefore hP id hm).bind fun ids => (keeps_remove hP id).bind fun _ => .pure ids
  split_ifs
  · exact .pure []
  · exact hrest

theorem keeps_cloneNode (id : NodeId) : Keeps (Throughout P I) (cloneNode id) := by
  rw [cloneNode]
  refine .bind (.node id) fun _ => .bind (.changeGet fun t h => h.copy hP id) fun copy => ?_
  refine .bind (.change fun t h => ?_) fun _ => .pure copy
  exact h.modify hP copy fun n _ hn => hP.around hn none n.raws.after none (.inr rfl)

/-! ### Fields -/

/-- All setters. -/
theorem keeps_update (id : NodeId) (expected : NodeKind) {f : Content → Content}
    (hf : ∀ c, (f c).kind = c.kind) : Keeps (Throughout P I) (update id expected f) :=
  .update (fun _ n h hn => h.setContent hP hn (hf n.content)) expected

theorem keeps_setSelectors (id : NodeId) (values : List String) :
    Keeps (Throughout P I) (setSelectors id values) :=
  .setSelectors (fun _ n selector h hn =>
    h.setContent hP hn (Content.kind_withSelector selector n.content)) values

theorem keeps_touch (id : NodeId) {f : Detail → Detail}
    (hf : ∀ count d, P count d → P count (f d)) : Keeps (Throughout P I) (touch id f) :=
  .touch fun _ h => (h.markDirty hP id).modify hP id fun _ _ hn => hf _ _ hn

end

end Editing

/-! ### All edits -/

namespace Edit

open Editing

variable {P : Nat → Detail → Prop} {I : Input → Prop}

/-- A condition holds of every node that the edit puts in, and is kept by the formatting that it
sets. -/
structure Meets (P : Nat → Detail → Prop) (I : Input → Prop) (e : Edit) : Prop where
  material : ∀ m ∈ e.material?, m.Meets P I
  raws : ∀ id raws, e = .setRaws id raws →
    ∀ count (d : Detail), P count d → P count { d with raws }

/-- The step of `throughout_run`: each edit, when what it puts in meets the condition. -/
theorem keeps_perform (hP : Detail.Lasting P) {e : Edit} (he : e.Meets P I) :
    Keeps (Tree.Throughout P I) e.perform := by
  have hnode : ∀ id, (Material.node id).Meets P I := fun _ => trivial
  obtain ⟨hmaterial, hraws⟩ := he
  cases e with
  | create m => exact keeps_materialize hP none (hmaterial m rfl)
  | append parent m => exact keeps_append hP parent (hmaterial m rfl)
  | prepend parent m => exact keeps_prepend hP parent (hmaterial m rfl)
  | insertBefore exist m => exact keeps_insertBefore hP exist (hmaterial m rfl)
  | insertAfter exist m => exact keeps_insertAfter hP exist (hmaterial m rfl)
  | replaceWith id m => exact keeps_replaceWith hP id (hmaterial m rfl)
  | remove id => exact .silently (keeps_remove hP id)
  | removeChild parent child => exact .silently (keeps_removeChild hP parent child)
  | removeAll parent => exact .silently (keeps_removeAll hP parent)
  -- A move is a removal and an insertion; the node meets the condition already.
  | moveTo id parent => exact .move (keeps_remove hP id) (keeps_append hP parent (hnode id))
  | moveBefore id target =>
    exact .move (keeps_remove hP id) (keeps_insertBefore hP target (hnode id))
  | moveAfter id target => exact .move (keeps_remove hP id) (keeps_insertAfter hP target (hnode id))
  | cloneNode id => exact .single (keeps_cloneNode hP id)
  | cloneBefore id =>
    exact .copy (keeps_cloneNode hP id) fun copy => keeps_insertBefore hP id (hnode copy)
  | cloneAfter id =>
    exact .copy (keeps_cloneNode hP id) fun copy => keeps_insertAfter hP id (hnode copy)
  -- Setters keep the kind, which is all that a lasting condition asks of them.
  | setProp id new | setValue id new | setImportant id new | setSelector id new | setName id new
  | setParams id new | setText id new =>
    exact .silently (keeps_update hP id _ fun c => by simp)
  | setSelectors id values => exact .silently (keeps_setSelectors hP id values)
  | cleanRaws id keepBetween =>
    exact .silently (.cleanRaws fun _ h => h.cleanRaws hP id keepBetween)
  | setRaws id raws => exact .silently (keeps_touch hP id (hraws id raws rfl))
  | dropSource id =>
    exact .silently (keeps_touch hP id fun count _ h => hP.dropSource h count)
  | markDirty id => exact .silently (.change fun _ h => h.markDirty hP id)

/-- Every edit keeps a lasting condition on all nodes, whether it fails or not. -/
theorem throughout_run (hP : Detail.Lasting P) {e : Edit} (he : e.Meets P I) {d : Desk}
    (hd : d.tree.Throughout P I) : (e.run d).2.tree.Throughout P I :=
  (keeps_perform hP he d.tree hd).atEnd d.workspace

end Edit

end Stylesheet
