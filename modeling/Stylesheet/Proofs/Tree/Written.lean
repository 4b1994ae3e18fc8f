import Stylesheet.Proofs.Draft.Basic
import Stylesheet.Proofs.Json.Fields
import Stylesheet.Tree.Json

/-!
# Nodes that are written and read

A tree is written as one object, with a table of the inputs that its nodes were read from, numbered
by first occurrence. What is read of such an object is known field by field: captured formatting and
contents come back as they were, places with lines and columns of 32 bits (`Position.narrow`) and in
the input that has its number in the table (`Source.renumber`), and inputs as they are made from
their texts (`Input.reread`).

A node comes back when its block is there if it opens one (`Detail.Legible`). The induction over the
branches (`NodeForm.draft?_branchJson`) puts nodes together; `Tree.ofJson_toJson` says what tree is
read: `Tree.reread`, with the nodes laid out in the order of the document.
-/

namespace Stylesheet

open Json

/-! ### Captured formatting -/

/-- Formatting is read as it was written, -/
theorem RawValue.ofJson?_toJson (r : RawValue) : RawValue.ofJson? r.toJson = some r :=
  rfl

/-- field by field. -/
theorem Raws.ofJson?_toJson (r : Raws) : Raws.ofJson? r.toJson = some r := by
  -- Three kinds of fields: texts, values with their source, and the one flag.
  have htext : ∀ name (value : Option String), r.toJson.get? name = value.map .str →
      optional readStr name r.toJson = some value :=
    fun _ _ hget => optional_of_get?_same hget nofun fun _ => rfl
  have hfield : ∀ name (value : Option RawValue), r.toJson.get? name = value.map RawValue.toJson →
      optional RawValue.ofJson? name r.toJson = some value :=
    fun _ _ hget => optional_of_get?_same hget nofun RawValue.ofJson?_toJson
  have hbool : r.toJson.get? "semicolon" = r.semicolon.map .bool := by simp [toJson]
  have hsemicolon : optional readBool "semicolon" r.toJson = some r.semicolon :=
    optional_of_get?_same hbool nofun fun _ => rfl
  rw [ofJson?, show r.toJson.record? _ = some r.toJson from rfl]
  dsimp only [bind, Option.bind]
  rw [htext "before" r.before (by simp [toJson]), htext "after" r.after (by simp [toJson]),
    htext "between" r.between (by simp [toJson]), hsemicolon,
    htext "afterName" r.afterName (by simp [toJson]), htext "left" r.left (by simp [toJson]),
    htext "right" r.right (by simp [toJson]), htext "important" r.important (by simp [toJson]),
    htext "ownSemicolon" r.ownSemicolon (by simp [toJson]),
    htext "indent" r.indent (by simp [toJson]), hfield "value" r.value (by simp [toJson]),
    hfield "selector" r.selector (by simp [toJson]), hfield "params" r.params (by simp [toJson])]

/-! ### Places -/

/-- The position with a line and a column of 32 bits. -/
def Position.narrow (p : Position) : Position :=
  ⟨p.offset, p.line % UInt32.size, p.column % UInt32.size⟩

theorem Position.toJson_narrow (p : Position) : p.narrow.toJson = p.toJson := by
  rw [toJson, toJson, narrow]
  dsimp only
  rw [Nat.mod_mod, Nat.mod_mod]

/-- Of a place, only line and column survive, and these as far as they fit. -/
theorem Position.ofJson?_toJson (p : Position) : Position.ofJson? p.toJson = some p.narrow := by
  have hmod : ∀ n, n % UInt32.size < UInt32.size := fun n => Nat.mod_lt n (by decide)
  rw [ofJson?, show p.toJson.record? _ = some p.toJson from rfl]
  dsimp only [bind, Option.bind]
  rw [need_of_get? (by simp [toJson]) (readNat64_nat p.offset),
    need_of_get? (by simp [toJson]) (readNat32_nat (hmod p.line)),
    need_of_get? (by simp [toJson]) (readNat32_nat (hmod p.column))]
  rfl

/-- The place in the input that has the number of its place in the list. -/
def Source.renumber (used : List Nat) (s : Source) : Source :=
  ⟨used.idxOf s.input, s.start.map Position.narrow, s.stop.map Position.narrow⟩

/-- The input of a place has its number among those in use. -/
theorem Source.ofJson?_sourceJson (used : List Nat) (s : Source) :
    Source.ofJson? (Tree.sourceJson used s) = some (s.renumber used) := by
  have hposition : ∀ name (value : Option Position),
      (Tree.sourceJson used s).get? name = value.map Position.toJson →
      optional Position.ofJson? name (Tree.sourceJson used s) =
        some (value.map Position.narrow) :=
    fun _ _ hget => optional_of_get? hget nofun Position.ofJson?_toJson
  rw [ofJson?, show (Tree.sourceJson used s).record? _ = some (Tree.sourceJson used s) from rfl]
  dsimp only [bind, Option.bind]
  rw [need_of_get? (by simp [Tree.sourceJson]) (readNat64_nat (used.idxOf s.input)),
    hposition "start" s.start (by simp [Tree.sourceJson]),
    hposition "end" s.stop (by simp [Tree.sourceJson])]
  rfl

/-! ### Inputs -/

namespace Input

/-- What is written of an input. -/
def fields (i : Input) : Fields :=
  ⟨i.css, i.hasBom, i.file, i.id, i.map.map PreviousMap.text⟩

/-- The fields of an input come back. -/
theorem readFields_toJson (i : Input) : readFields i.toJson = some i.fields := by
  have htext : ∀ name (value : Option String), i.toJson.get? name = value.map .str →
      optional readStr name i.toJson = some value :=
    fun _ _ hget => optional_of_get?_same hget nofun fun _ => rfl
  have hmap : i.toJson.get? "map" = (i.map.map PreviousMap.text).map .str := by
    simp [toJson, Option.map_map, Function.comp_def]
  rw [readFields, show i.toJson.record? _ = some i.toJson from rfl]
  dsimp only [bind, Option.bind]
  rw [need_of_get? (a := i.css) (j := .str i.css) (by simp [toJson]) rfl,
    withDefault_of_get? (a := i.hasBom) (j := .bool i.hasBom) (by simp [toJson]) rfl,
    htext "file" i.file (by simp [toJson]), htext "id" i.id (by simp [toJson]),
    htext "map" _ hmap]
  rfl

/-- A map that came with an input, when only its text is known. -/
def rereadMap (i : Input) (m : PreviousMap) : PreviousMap :=
  { text := m.text, link := none, inline := false, file := i.file
    root := i.file.map Path.dirname, map := m.map }

/-- The input that is made from what is written of it. -/
def reread (i : Input) : Input :=
  assemble i.css i.hasBom i.file i.id (i.map.map i.rereadMap)

theorem toJson_reread (i : Input) : i.reread.toJson = i.toJson := by
  rw [toJson, toJson, reread, assemble]
  dsimp only
  rw [Option.map_map]
  rfl

/-- The map of the input is what its text says. -/
def Legible (k : Packages) (i : Input) : Prop :=
  ∀ m ∈ i.map, parseMap k m.text = .ok m.map

/-- A legible input is created again from its fields. -/
theorem ofFields_fields {e : Environment} {i : Input} (h : i.Legible e.packages) :
    ofFields e i.fields = .ok i.reread := by
  rw [ofFields, reread, fields]
  dsimp only
  cases hmap : i.map with
  | none => rfl
  | some m =>
    have hload : PreviousMap.load e ""
        ⟨i.file, .enabled { prev := some (.json m.text) }⟩ = .ok (some (i.rereadMap m)) := by
      rw [PreviousMap.load, if_neg nofun]
      show (parseMap e.packages m.text).map _ = _
      rw [h m hmap]
      rfl
    show (PreviousMap.load e "" _).map _ = _
    rw [hload]
    rfl

end Input

/-! ### Nodes -/

theorem NodeKind.ofJson?_name (kind : NodeKind) :
    NodeKind.ofJson? (.str kind.name) = some kind := by
  cases kind <;> rfl

namespace Content

/-- The fields with texts. -/
def texts (c : Content) : List (String × Option String) :=
  [("selector", c.selector?), ("name", c.name?), ("params", c.params?), ("prop", c.prop?),
    ("value", c.value?), ("text", c.text?)]

/-- A field of the contents is found under its name, when there is one. -/
theorem get?_toFields_text (c : Content) :
    ∀ field ∈ c.texts, (obj c.toFields).get? field.1 = field.2.map .str := by
  cases c <;> simp [texts, toFields, selector?, name?, params?, prop?, value?, text?]

theorem get?_toFields_important (c : Content) :
    (obj c.toFields).get? "important" = if c.isImportant then some (.bool true) else none := by
  cases c with
  | declaration prop value important => cases important <;> rfl
  | _ => rfl

/-- The fields that every node can have. -/
def commonFields : List String :=
  ["type", "raws", "nodes", "source", "inputs"]

/-- The fields that all nodes share are not among those of the contents. -/
theorem get?_toFields_common (c : Content) :
    ∀ name ∈ commonFields, (obj c.toFields).get? name = none := by
  cases c <;> simp [toFields, commonFields]

/-- No field of the contents has a name that all nodes share. -/
theorem not_common_of_mem_texts (c : Content) : ∀ field ∈ c.texts, field.1 ∉ commonFields := by
  simp [texts, commonFields]

end Content

namespace NodeRecord

/-- What is read of a node with the given details, and of the inputs when it is the root. -/
def ofDetail (used : List Nat) (d : Detail) (inputs : List Input.Fields) : NodeRecord where
  kind := d.content.kind
  raws := d.raws
  selector := d.content.selector?
  name := d.content.name?
  params := d.content.params?
  prop := d.content.prop?
  value := d.content.value?
  important := d.content.isImportant
  text := d.content.text?
  source := d.source.map (Source.renumber used)
  inputs := inputs

/-- The object of a node, with the inputs when it is the root. -/
def object (used : List Nat) (d : Detail) (nodes inputs : List Json) : Json :=
  .obj (Tree.nodeFields used d nodes ++ if inputs.isEmpty then [] else [("inputs", .arr inputs)])

section

variable (used : List Nat) (d : Detail) (nodes inputs : List Json)

theorem get?_nodes : (object used d nodes inputs).get? "nodes" =
    if d.block then some (.arr nodes) else none := by
  have hnone := d.content.get?_toFields_common "nodes" (by decide)
  simp [object, Tree.nodeFields, hnone]

/-- The other fields are those of the kind of the node. -/
theorem get?_of_not_common {name : String} (h : name ∉ Content.commonFields) :
    (object used d nodes inputs).get? name = (obj d.content.toFields).get? name := by
  simp only [Content.commonFields, List.mem_cons, List.not_mem_nil, or_false, not_or,
    @eq_comm _ name] at h
  simp [object, Tree.nodeFields, h]

/-- Each text of a node is read as it was written. -/
theorem read_text (name : String) (value : Option String) (h : (name, value) ∈ d.content.texts) :
    optional readStr name (object used d nodes inputs) = some value := by
  have hget := get?_of_not_common used d nodes inputs (d.content.not_common_of_mem_texts _ h)
  rw [d.content.get?_toFields_text _ h] at hget
  exact optional_of_get?_same hget nofun fun _ => rfl

theorem read_important : withDefault false readBool "important" (object used d nodes inputs) =
    some d.content.isImportant := by
  rw [withDefault, get?_of_not_common used d nodes inputs (by decide),
    d.content.get?_toFields_important]
  cases d.content.isImportant <;> rfl

theorem read_source : optional Source.ofJson? "source" (object used d nodes inputs) =
    some (d.source.map (Source.renumber used)) := by
  have hnone := d.content.get?_toFields_common "source" (by decide)
  have hget : (object used d nodes inputs).get? "source" =
      d.source.map (Tree.sourceJson used) := by
    simp [object, Tree.nodeFields, hnone]
  exact optional_of_get? hget nofun (Source.ofJson?_sourceJson used)

theorem read_inputs {fields : List Input.Fields}
    (hinputs : inputs.mapM Input.readFields = some fields) :
    withDefault [] (readList Input.readFields) "inputs" (object used d nodes inputs) =
      some fields := by
  have hnone := d.content.get?_toFields_common "inputs" (by decide)
  cases inputs with
  | nil =>
    rw [List.mapM_nil] at hinputs
    refine (withDefault_of_none ?_).trans hinputs
    simp [object, Tree.nodeFields, hnone]
  | cons input inputs =>
    refine withDefault_of_get? (j := .arr (input :: inputs)) ?_ hinputs
    simp [object, Tree.nodeFields, hnone]

/-- The object of a node says what was written into it. -/
theorem ofFields?_object {fields : List Input.Fields}
    (hinputs : inputs.mapM Input.readFields = some fields) :
    ofFields? (object used d nodes inputs) = some (ofDetail used d fields) := by
  -- The fields that every node has are looked up past the ones of its kind.
  have hcommon := d.content.get?_toFields_common
  have htype : need NodeKind.ofJson? "type" (object used d nodes inputs) = some d.content.kind := by
    refine need_of_get? ?_ (NodeKind.ofJson?_name _)
    simp [object, Tree.nodeFields, hcommon "type" (by decide)]
  have hraws : withDefault {} Raws.ofJson? "raws" (object used d nodes inputs) = some d.raws := by
    refine withDefault_of_get? ?_ (Raws.ofJson?_toJson _)
    simp [object, Tree.nodeFields, hcommon "raws" (by decide)]
  have htext := read_text used d nodes inputs
  rw [ofFields?, htype, hraws, htext "selector" d.content.selector? (by simp [Content.texts]),
    htext "name" d.content.name? (by simp [Content.texts]),
    htext "params" d.content.params? (by simp [Content.texts]),
    htext "prop" d.content.prop? (by simp [Content.texts]),
    htext "value" d.content.value? (by simp [Content.texts]), read_important,
    htext "text" d.content.text? (by simp [Content.texts]), read_source,
    read_inputs used d nodes inputs hinputs]
  rfl

end

variable {used : List Nat} {d : Detail}

/-- A record has the contents of the node that it was written for. -/
theorem content?_ofDetail (hkind : d.kind ≠ .root) (inputs : List Input.Fields) :
    (ofDetail used d inputs).content? = .ok d.content := by
  rw [Detail.kind] at hkind
  rw [content?, ofDetail]
  cases hcontent : d.content with
  | root =>
    rw [hcontent] at hkind
    exact absurd rfl hkind
  | _ => rfl

/-- And it has its place, with the input known. -/
theorem source?_ofDetail (hsource : ∀ s ∈ d.source, s.input ∈ used) (inputs : List Input.Fields) :
    (ofDetail used d inputs).source? used.length = .ok (d.source.map (Source.renumber used)) := by
  rw [source?, ofDetail]
  cases hs : d.source with
  | none => rfl
  | some s => exact if_pos (List.idxOf_lt_length_iff.mpr (hsource s hs))

end NodeRecord

/-- The details with the input numbered by its place in the list. -/
def Detail.renumber (used : List Nat) (d : Detail) : Detail :=
  { d with source := d.source.map (Source.renumber used) }

/-- A node that is read as it was written: what opens a block has one, and the input is one of
those in the list. -/
structure Detail.Legible (used : List Nat) (d : Detail) (kids : List Draft) : Prop where
  sound : d.Sound kids
  block : d.content.opensBlock = true → d.block = true
  source : ∀ s ∈ d.source, s.input ∈ used

/-- What opens a block has one, and the input is one of the first `count`. -/
structure Detail.Known (count : Nat) (d : Detail) : Prop where
  block : d.content.opensBlock = true → d.block = true
  source : ∀ s ∈ d.source, s.input < count

namespace NodeForm

variable {used : List Nat}

/-- The form of a node, whose children have the given forms. -/
theorem ofJson?_object {d : Detail} {nodes inputs : List Json} {fields : List Input.Fields}
    {forms : List NodeForm} (hinputs : inputs.mapM Input.readFields = some fields)
    (hforms : nodes.mapM ofJson? = some forms) :
    ofJson? (NodeRecord.object used d nodes inputs) =
      some (.node (.ofDetail used d fields) (if d.block then some forms else none)) := by
  have hfields := NodeRecord.ofFields?_object used d nodes inputs hinputs
  have hnodes := NodeRecord.get?_nodes used d nodes inputs
  cases hblock : d.block with
  | true =>
    rw [if_pos hblock] at hnodes
    exact Sketch.ofJson?_nodes hfields hnodes hforms
  | false =>
    rw [hblock] at hnodes
    exact Sketch.ofJson?_leaf hfields hnodes

theorem branchJson_eq_object (d : Detail) (kids : List Draft) :
    Tree.branchJson used (.node d kids) =
      NodeRecord.object used d (Tree.branchesJson used kids) [] := by
  rw [Tree.branchJson, NodeRecord.object]
  exact congrArg obj (List.append_nil _).symm

/-- Only a node with a block has children, so that no child is lost. -/
theorem kids?_of_block {d : Detail} {kids : List Draft} {forms : List NodeForm}
    (hd : d.Sound kids)
    (hdrafts : drafts? used.length forms = .ok (Branch.mapAll (Detail.renumber used) kids)) :
    kids? used.length (if d.block then some forms else none) =
      .ok (Branch.mapAll (Detail.renumber used) kids) := by
  cases hblock : d.block with
  | true => exact hdrafts
  | false =>
    have hnil : kids = [] := by
      by_contra hne
      rw [hd.block hne] at hblock
      cases hblock
    rw [hnil]
    rfl

mutual

/-- A branch that is written is read. -/
theorem draft?_branchJson : ∀ b : Draft, b.Every (Detail.Legible used) → b.label.kind ≠ .root →
    ∃ form, ofJson? (Tree.branchJson used b) = some form ∧
      form.draft? used.length = .ok (b.map (Detail.renumber used))
  | .node d kids, h, hkind => by
    obtain ⟨hsound, hblock, hsource⟩ := h.top
    obtain ⟨forms, hforms, hdrafts⟩ := drafts?_branchesJson kids h.rest hsound.nested
    rw [branchJson_eq_object]
    refine ⟨_, ofJson?_object List.mapM_nil hforms, ?_⟩
    -- An at-rule has a block when a list of children was written, even an empty one.
    have hopens : (d.content.opensBlock || (if d.block then some forms else none).isSome) =
        d.block := by
      cases hb : d.block with
      | true => exact Bool.or_true _
      | false =>
        rw [hb] at hblock
        exact (Bool.or_false _).trans (Bool.eq_false_iff.mpr fun h => nomatch hblock h)
    rw [draft?, NodeRecord.content?_ofDetail (d := d) hkind, NodeRecord.source?_ofDetail hsource,
      kids?_of_block hsound hdrafts]
    dsimp only [bind, Except.bind]
    rw [hopens]
    rfl

/-- The children come back, list by list. -/
theorem drafts?_branchesJson : ∀ bs : List Draft, (∀ b ∈ bs, b.Every (Detail.Legible used)) →
    (∀ b ∈ bs, b.label.kind ≠ .root) →
    ∃ forms, (Tree.branchesJson used bs).mapM ofJson? = some forms ∧
      drafts? used.length forms = .ok (Branch.mapAll (Detail.renumber used) bs)
  | [], _, _ => ⟨[], List.mapM_nil, rfl⟩
  | b :: bs, h, hkinds => by
    rw [List.forall_mem_cons] at h hkinds
    obtain ⟨form, hform, hdraft⟩ := draft?_branchJson b h.1 hkinds.1
    obtain ⟨forms, hforms, hdrafts⟩ := drafts?_branchesJson bs h.2 hkinds.2
    refine ⟨form :: forms, ?_, ?_⟩
    · rw [Tree.branchesJson, List.mapM_cons, hform, hforms]
      rfl
    · rw [drafts?, hdraft, hdrafts, Branch.mapAll]
      rfl

end

/-- A record of a root makes a tree of its inputs and children. -/
theorem tree?_eq_ok {e : Environment} {r : NodeRecord} {children : Option (List NodeForm)}
    {inputs : List Input} {source : Option Source} {kids : List Draft} {count : Nat}
    (hkind : r.kind = .root) (hinputs : r.inputs.mapM (Input.ofFields e) = .ok inputs)
    (hcount : inputs.length = count) (hsource : r.source? count = .ok source)
    (hkids : kids? count children = .ok kids) :
    tree? e (.node r children) = .ok
      { nodes := (Tree.layout 0 none (.node ⟨.root, r.raws, source, true⟩ kids)).toArray
        inputs := inputs.toArray } := by
  rw [tree?, if_neg (not_not.mpr hkind), hinputs]
  dsimp only [bind, Except.bind, pure, Except.pure]
  rw [hcount, hsource, hkids]

end NodeForm

/-! ### Trees -/

namespace Tree

variable {t : Tree}

/-- The tree that is read when `t` was written: the nodes that stand in the tree, in the order of
the document, and the inputs that they were read from. -/
def reread (t : Tree) : Tree where
  nodes := (layout 0 none ((t.draft rootId).map (Detail.renumber t.usedInputs))).toArray
  inputs := ((t.usedInputs.filterMap (t.inputs[·]?)).map Input.reread).toArray

theorem toJson_eq_object (t : Tree) : t.toJson =
    NodeRecord.object t.usedInputs (t.draft rootId).label
      (branchesJson t.usedInputs (t.draft rootId).kids)
      ((t.usedInputs.filterMap (t.inputs[·]?)).map Input.toJson) := by
  rw [toJson, List.map_filterMap]
  cases t.draft rootId
  rfl

/-- No number in the table of inputs is without its input. -/
theorem length_inputs_used (hused : ∀ i ∈ t.usedInputs, i < t.inputs.size) :
    (t.usedInputs.filterMap (t.inputs[·]?)).length = t.usedInputs.length := by
  refine List.filterMap_length_eq_length.mpr fun i hi => ?_
  rw [Array.getElem?_eq_getElem (hused i hi)]
  rfl

/-- When no step fails, mapping in a monad is mapping. -/
theorem mapM_of_forall {m : Type → Type} [Monad m] [LawfulMonad m] {f : α → m β} {g : α → β} :
    ∀ {as : List α}, (∀ a ∈ as, f a = pure (g a)) → as.mapM f = pure (as.map g)
  | [], _ => List.mapM_nil
  | a :: as, h => by
    rw [List.forall_mem_cons] at h
    rw [List.mapM_cons, h.1, mapM_of_forall h.2, pure_bind, pure_bind, List.map_cons]

/-- A tree whose nodes and inputs can be read is read. -/
theorem ofJson_toJson {e : Environment} (hroot : (t.draft rootId).label.kind = .root)
    (hdraft : (t.draft rootId).Every (Detail.Legible t.usedInputs))
    (hused : ∀ i ∈ t.usedInputs, i < t.inputs.size)
    (hinputs : ∀ input ∈ t.inputs, input.Legible e.packages) :
    Tree.ofJson e t.toJson = .ok t.reread := by
  rw [ofJson, toJson_eq_object, reread]
  generalize t.draft rootId = b at hroot hdraft ⊢
  obtain ⟨d, kids⟩ := b
  dsimp only [Branch.label, Branch.kids] at hroot ⊢
  -- The table of inputs: `found` is what is written, and each entry is read on its own.
  generalize hfound : t.usedInputs.filterMap (t.inputs[·]?) = found
  have hlegible : ∀ input ∈ found, input.Legible e.packages := by
    intro input hmem
    rw [← hfound, List.mem_filterMap] at hmem
    obtain ⟨i, -, hi⟩ := hmem
    exact hinputs input (Array.mem_of_getElem? hi)
  have hlength : (found.map Input.reread).length = t.usedInputs.length := by
    rw [List.length_map, ← hfound, length_inputs_used hused]
  have hfields : (found.map Input.toJson).mapM Input.readFields =
      some (found.map Input.fields) := by
    rw [List.mapM_map]
    exact mapM_of_forall fun input _ => Input.readFields_toJson input
  have hreread : (found.map Input.fields).mapM (Input.ofFields e) =
      .ok (found.map Input.reread) := by
    rw [List.mapM_map]
    exact mapM_of_forall fun input h => Input.ofFields_fields (hlegible input h)
  -- The branches below the root, and then the root, which is never read as a child.
  obtain ⟨hsound, hblock, hsource⟩ := hdraft.top
  obtain ⟨forms, hforms, hdrafts⟩ := NodeForm.drafts?_branchesJson kids hdraft.rest hsound.nested
  have hcontent : d.content = .root := by
    cases hc : d.content with
    | root => rfl
    | _ => rw [Detail.kind, hc] at hroot; cases hroot
  have hkind : (NodeRecord.ofDetail t.usedInputs d (found.map Input.fields)).kind = .root := hroot
  rw [NodeForm.ofJson?_object hfields hforms]
  dsimp only
  rw [NodeForm.tree?_eq_ok hkind hreread hlength (NodeRecord.source?_ofDetail hsource _)
    (NodeForm.kids?_of_block hsound hdrafts)]
  rw [Branch.map, Detail.renumber, hblock (by rw [hcontent]; rfl), hcontent]
  rfl

/-- Every node and every input is read as it was written. -/
structure Legible (k : Packages) (t : Tree) : Prop where
  detail : ∀ x, (t.detail x).Known t.inputs.size
  inputs : ∀ input ∈ t.inputs, input.Legible k

end Tree

end Stylesheet
