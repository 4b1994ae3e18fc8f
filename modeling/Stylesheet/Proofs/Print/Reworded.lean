import Stylesheet.Proofs.Draft.Resaid
import Stylesheet.Proofs.Edit.Command
import Stylesheet.Proofs.Outline.Read
import Stylesheet.Proofs.Print.Alike
import Stylesheet.Proofs.Tree.Order

/-!
# Printing a tree after its fields were set

Setting a field of a node changes what this node says and nothing else (`Tree.Reworded`). So only
the text of such a node is printed in another way, and all is printed as before when the fields
have their old values again.
-/

namespace Stylesheet

namespace Edit

/-- The node whose field the edit sets. -/
def setsFieldOf? : Edit → Option NodeId
  | .setProp id _ | .setValue id _ | .setImportant id _ | .setSelector id _ | .setName id _
  | .setParams id _ | .setText id _ => some id
  | _ => none

end Edit

namespace Tree

variable {t u v : Tree} {E : NodeId → Prop}

/-- Only nodes of `E` say something else, of the same kind. -/
structure Reworded (E : NodeId → Prop) (t u : Tree) : Prop where
  links : u.links = t.links
  raws : ∀ x, (u.get? x).map Node.raws = (t.get? x).map Node.raws
  content : ∀ x, ¬ E x → u.content? x = t.content? x

theorem Reworded.refl (E : NodeId → Prop) (t : Tree) : t.Reworded E t :=
  ⟨rfl, fun _ => rfl, fun _ _ => rfl⟩

theorem Reworded.trans (h : t.Reworded E u) (h' : u.Reworded E v) : t.Reworded E v where
  links := h'.links.trans h.links
  raws x := (h'.raws x).trans (h.raws x)
  content x hx := (h'.content x hx).trans (h.content x hx)

theorem reworded_markDirty (t : Tree) (id : NodeId) : t.Reworded E (t.markDirty id) where
  links := links_markDirty t id
  raws x := by
    rw [get?_markDirty]
    split_ifs
    · rw [Option.map_map]
      rfl
    · rfl
  content x _ := (tame_markDirty t id).content?_eq x

/-- Setting what a node says rewords this node only. -/
theorem reworded_setContent {id : NodeId} {n : Node} {new : Content} (hget : t.get? id = some n)
    (hkind : new.kind = n.kind) (hid : E id) : t.Reworded E (t.setContent id n.content new) := by
  have hlinks := links_setContent hget hkind
  rw [setContent] at hlinks ⊢
  -- A field that is set to what it was leaves the tree alone.
  split_ifs at hlinks ⊢
  · exact .refl E t
  · have hmodify :
        t.Reworded E (t.modify id (·.withDetail fun d => { d with content := new })) := by
      refine ⟨?_, fun x => ?_, fun x hx => ?_⟩
      · rw [← hlinks, links_markDirty]
      · rw [get?_modify]
        split_ifs
        · rw [Option.map_map]
          rfl
        · rfl
      · have hne : id ≠ x := by
          rintro rfl
          exact hx hid
        rw [content?, content?, get?_modify, if_neg hne]
    exact hmodify.trans (reworded_markDirty _ id)

/-- Nodes that say something else are printed in the same style. -/
theorem Reworded.mirror (h : t.Reworded E u) (ht : t.Consistent)
    (hroot : t.kind? rootId = some .root) : t.Mirror id u where
  consistent := ht
  rooted := hroot
  root := rfl
  distinct _ _ _ _ := id
  node := by
    intro x hx
    obtain ⟨n, hn⟩ := hx.exists_get? hroot
    have hlinks : (u.get? x).map Node.links = some n.links := by
      rw [← Tree.links, h.links, Tree.links, hn]
      rfl
    obtain ⟨n', hn', hlinks⟩ := Option.map_eq_some_iff.mp hlinks
    have hraws := h.raws x
    rw [hn, hn'] at hraws
    refine ⟨n, n', hn, hn', ?_, ?_, ?_, ?_, Option.some.inj hraws⟩
    · rw [Option.map_id]
      exact congrArg Node.Links.parent hlinks
    · rw [List.map_id]
      exact congrArg Node.Links.children hlinks
    · exact congrArg Node.Links.kind hlinks
    · exact congrArg Node.Links.block hlinks

end Tree

namespace Editing

open Stylesheet.Tree

/-- All setters: only the node says something else, whether the setter fails or not. -/
theorem reworded_update (id : NodeId) (expected : NodeKind) {f : Content → Content}
    (hf : ∀ c, (f c).kind = c.kind) {E : NodeId → Prop} (hid : E id) (d : Desk) :
    d.tree.Reworded E ((Edit.silently (update id expected f)).runOn d).2.tree := by
  have hrun : d.tree.Reworded E ((update id expected f).runOn d).2.tree := by
    rw [update, runOn_bind, runOn_node]
    cases hn : d.tree.get? id with
    | none => exact .refl E d.tree
    | some n =>
      dsimp only
      split_ifs
      · exact .refl E d.tree
      · exact reworded_setContent hn (hf n.content) hid
  rw [Edit.silently, runOn_bind]
  rcases h : (update id expected f).runOn d with ⟨result, d'⟩
  rw [h] at hrun
  cases result <;> exact hrun

end Editing

namespace Edit

/-- All setters do that. -/
theorem reworded_run {e : Edit} {id : NodeId} (he : e.setsFieldOf? = some id)
    {E : NodeId → Prop} (hid : E id) (d : Desk) : d.tree.Reworded E (e.run d).2.tree := by
  cases e <;> cases he
  all_goals exact Editing.reworded_update id _ (fun c => by simp) hid d

/-- Any number of setters, on nodes of `E`. -/
theorem reworded_runAll {edits : List Edit} {E : NodeId → Prop}
    (hedits : ∀ e ∈ edits, ∃ id, e.setsFieldOf? = some id ∧ E id) (d : Desk) :
    d.tree.Reworded E (runAll edits d).tree := by
  induction edits generalizing d with
  | nil => exact .refl E d.tree
  | cons e edits ih =>
    rw [List.forall_mem_cons] at hedits
    obtain ⟨⟨id, he, hid⟩, hedits⟩ := hedits
    exact (reworded_run he hid d).trans (ih hedits (e.run d).2)

end Edit

/-- The text of a node, as opposed to formatting and to what closes a node. -/
def Chunk.IsTextOf (c : Chunk) (id : NodeId) : Prop :=
  c.part = some (id, .whole) ∨ c.part = some (id, .start)

/-- A chunk is the same when the node whose text it is says the same. -/
theorem Chunk.Mirror.eq_of_content {t u : Tree} {c c' : Chunk} (h : Chunk.Mirror id t u c c')
    (hsame : ∀ x, c.IsTextOf x → u.content? x = t.content? x) : c' = c := by
  have hpart : c'.part = c.part := h.part.trans Option.map_id'
  have htext : c'.text = c.text := by
    refine h.text fun x phase hx hphase _ => hsame x ?_
    cases phase with
    | whole => exact Or.inl hx
    | start => exact Or.inr hx
    | stop => exact absurd rfl hphase
  cases c
  cases c'
  cases hpart
  cases htext
  rfl

/-- The chunks belong to the same nodes. -/
theorem Tree.MirrorAll.map_part {t u : Tree} {cs cs' : List Chunk} (h : MirrorAll id t u cs cs') :
    cs'.map Chunk.part = cs.map Chunk.part := by
  induction h with
  | nil => rfl
  | cons hc _ ih =>
    rw [List.map_cons, List.map_cons, ih, hc.part]
    exact congrArg (· :: _) Option.map_id'

theorem Tree.MirrorAll.getElem? {ρ : NodeId → NodeId} {t u : Tree} {cs cs' : List Chunk}
    (h : MirrorAll ρ t u cs cs') {i : Nat} {c c' : Chunk} (hc : cs[i]? = some c)
    (hc' : cs'[i]? = some c') : Chunk.Mirror ρ t u c c' := by
  induction h generalizing i with
  | nil => cases hc
  | cons hhead _ ih =>
    cases i with
    | zero =>
      cases hc
      cases hc'
      exact hhead
    | succ i => exact ih hc hc'

/-- After fields of a stylesheet were set, any number of times and whether this failed or not, the
same parts of the same nodes are printed, and all chunks are the same but the texts of those of
these nodes that say something else now. If all of them say again what they said when they were
read, the text is the one that was read. -/
theorem chunks_of_fields_set {w w' : Workspace} {css : String} {options : ParseOptions} {t : Tree}
    (h : (parse w css options).1 = .ok t) {edits : List Edit}
    (hedits : ∀ e ∈ edits, e.setsFieldOf?.isSome = true) :
    let u := (Edit.runAll edits ⟨t, w'⟩).tree
    (u.chunks Tree.rootId).map Chunk.part = (t.chunks Tree.rootId).map Chunk.part ∧
      (∀ (i : Nat) (c c' : Chunk), (t.chunks Tree.rootId)[i]? = some c →
        (u.chunks Tree.rootId)[i]? = some c' →
        (∀ e ∈ edits, ∀ id ∈ e.setsFieldOf?, c.IsTextOf id → u.content? id = t.content? id) →
        c' = c) ∧
      ((∀ e ∈ edits, ∀ id ∈ e.setsFieldOf?, u.content? id = t.content? id) →
        u.print = (Input.stripBom css).1) := by
  intro u
  have horderly := Tree.orderly_of_parse h
  have hreworded : t.Reworded (fun id => ∃ e ∈ edits, e.setsFieldOf? = some id) u := by
    refine Edit.reworded_runAll (fun e he => ?_) ⟨t, w'⟩
    obtain ⟨id, hid⟩ := Option.isSome_iff_exists.mp (hedits e he)
    exact ⟨id, hid, e, he, hid⟩
  have hmirror := hreworded.mirror horderly.consistent horderly.rooted
  -- A node whose fields nobody set has its content; of the others the hypothesis says it.
  have hsame : ∀ x, (∀ e ∈ edits, ∀ id ∈ e.setsFieldOf?, id = x → u.content? id = t.content? id) →
      u.content? x = t.content? x := by
    intro x hx
    by_cases hset : ∃ e ∈ edits, e.setsFieldOf? = some x
    · obtain ⟨e, he, hid⟩ := hset
      exact hx e he x hid rfl
    · exact hreworded.content x hset
  refine ⟨hmirror.chunks_alike.map_part, fun i c c' hc hc' htext => ?_, fun hcontent => ?_⟩
  · refine (hmirror.chunks_alike.getElem? hc hc').eq_of_content fun x hx => ?_
    refine hsame x fun e he id hid heq => htext e he id hid ?_
    rw [heq]
    exact hx
  · obtain ⟨input, b, hcss, hb, rfl⟩ := parse_eq_ok h
    obtain ⟨hcaptured, -, hread⟩ := outlineText_eq_ok hb
    rw [hmirror.print_eq fun x _ => hsame x fun e he id hid _ => hcontent e he id hid,
      Tree.print_ofDraft input hcaptured, hread, hcss]

namespace Tree

/-- A tree with captured formatting is printed as its draft. -/
theorem print_eq_text {t : Tree} (ht : t.Consistent) (hroot : t.kind? rootId = some .root)
    (hsize : (t.draft rootId).size ≤ t.nodes.size)
    (hcap : (t.draft rootId).Every Detail.Captured) : t.print = Draft.text false (t.draft rootId) :=
  have hholds := ht.holds_of_draft _ (contains_of_kind? hroot) rfl
  (chunks_of_holds (parent?_rootId ht hroot ▸ hholds) hsize hcap).1

/-- When one node of a text says something else, the text around its own text stays. -/
theorem print_setContent (input : Input) {b : Draft} (hcap : b.Every Detail.Captured)
    (hlabel : b.label.kind = .root) {id : NodeId} {n : Node}
    (hn : (ofDraft input b).get? id = some n) {new : Content} (hkind : new.kind = n.kind) :
    ∃ closed lead back, ⟨lead, n.detail, n.detail.own closed⟩ ∈ Draft.places "" false b ∧
      (ofDraft input b).print = lead ++ n.detail.own closed ++ back ∧
      ((ofDraft input b).setContent id n.content new).print =
        lead ++ ({ n.detail with content := new } : Detail).own closed ++ back := by
  have ht := consistent_ofDraft input (hcap.mono fun d kids hd => hd.toSound)
  have hroot : (ofDraft input b).kind? rootId = some .root := by rw [kind?_ofDraft, hlabel]
  have hdraft : ((ofDraft input b).shape rootId).map (ofDraft input b).detail = b :=
    ht.draft_of_holds b (holds_ofDraft input b)
  have hmem := mem_shape_ofDraft hn
  have hbound : b.size ≤ (ofDraft input b).nodes.size := Nat.le_of_eq (size_ofDraft input b).symm
  rw [print_ofDraft input hcap]
  generalize ofDraft input b = t at *
  -- Below the root the same nodes stand as before.
  have hlinks := links_setContent hn hkind
  have hnodes := size_setContent t id n.content new
  have hu := ht.of_links_eq hlinks
  have hdetail := map_detail_setContent hn new
  generalize t.setContent id n.content new = u at *
  have hshape : u.shape rootId = t.shape rootId := by
    refine shape_congr (funext fun y => ?_) hnodes rootId
    rw [children_eq_links, children_eq_links, hlinks]
  have hid : u.detail id = { n.detail with content := new } := by
    rw [detail, hdetail, if_pos rfl]
    rfl
  have hoff : ∀ y, y ≠ id → u.detail y = t.detail y := by
    intro y hy
    rw [detail, hdetail, if_neg (Ne.symm hy), detail]
  have hrestates : (t.detail id).Restates (u.detail id) := by
    rw [hid, detail_of_get? hn]
    exact ⟨hkind, rfl, rfl⟩
  rw [← hdraft] at hcap
  obtain ⟨closed, lead, back, hplace, htext, htext'⟩ := Draft.exists_place_of_restates hoff
    hrestates "" false (t.shape rootId) (ht.nodup_shape rootId) hmem hcap
  have hudraft : u.draft rootId = (t.shape rootId).map u.detail := by rw [draft, hshape]
  have hprint : u.print = Draft.text false (u.draft rootId) := by
    refine print_eq_text hu ?_ ?_ ?_
    · rw [kind?_eq_links, hlinks, ← kind?_eq_links, hroot]
    · rw [hudraft, Branch.size_map, hnodes, ← Branch.size_map t.detail, hdraft]
      exact hbound
    · rw [hudraft]
      exact Draft.captured_of_restates (Draft.restates_of_eq hoff hrestates) hcap
  rw [hdraft, String.empty_append, detail_of_get? hn] at hplace
  rw [hdraft, detail_of_get? hn] at htext
  refine ⟨closed, lead, back, hplace, htext, ?_⟩
  rw [hprint, hudraft, htext', hid]

end Tree

/-- A selector and a value with comments in them are set, to something else and back. -/
def fieldsThereAndBack : List Edit :=
  [.setSelector ⟨1⟩ "x", .setValue ⟨2⟩ "y", .setValue ⟨2⟩ "d ", .setSelector ⟨1⟩ "a  b"]

/-- Fields are set and set back, and the text is the old one again. -/
theorem print_fieldsThereAndBack :
    ∃ t, (parse {} "a /*x*/ b\x7bc:d /*y*/;e:f\x7d" {}).1 = .ok t ∧
      (Edit.runAll (fieldsThereAndBack.take 2) ⟨t, {}⟩).tree.print = "x\x7bc:y;e:f\x7d" ∧
      (Edit.runAll fieldsThereAndBack ⟨t, {}⟩).tree.print = "a /*x*/ b\x7bc:d /*y*/;e:f\x7d" := by
  have hread : (parse {} "a /*x*/ b\x7bc:d /*y*/;e:f\x7d" {}).1.toOption.any (fun t =>
      (Edit.runAll (fieldsThereAndBack.take 2) ⟨t, {}⟩).tree.print == "x\x7bc:y;e:f\x7d" &&
      ([⟨1⟩, ⟨2⟩] : List NodeId).all fun id =>
        (Edit.runAll fieldsThereAndBack ⟨t, {}⟩).tree.content? id == t.content? id) = true := by
    decide +kernel
  cases ht : (parse {} "a /*x*/ b\x7bc:d /*y*/;e:f\x7d" {}).1 with
  | error e => rw [ht] at hread; cases hread
  | ok t =>
    rw [ht] at hread
    simp only [Except.toOption, Option.any_some, Bool.and_eq_true, beq_iff_eq, List.all_cons,
      List.all_nil, and_true] at hread
    obtain ⟨hset, hrule, hvalue⟩ := hread
    refine ⟨t, rfl, hset, (chunks_of_fields_set ht (by decide)).2.2 ?_⟩
    -- All four edits are about two nodes, and both got their content back.
    simp only [fieldsThereAndBack, List.forall_mem_cons, Edit.setsFieldOf?, Option.mem_some_iff,
      forall_eq']
    exact ⟨hrule, hvalue, hvalue, hrule, fun e he => absurd he List.not_mem_nil⟩

end Stylesheet
