import Stylesheet.Proofs.Edit.Command
import Stylesheet.Proofs.Edit.Ends
import Stylesheet.Proofs.Text.Link
import Stylesheet.Proofs.Usual.Print
import Stylesheet.Proofs.Usual.Read

/-!
# Trees that are built

A tree that is built by appending plain bags is bare, whatever is appended where and whether it
fails or not: nothing is captured in a bag, and a node that takes over the blanks of its neighbour
finds none. So the tree prints in the usual style, and what it prints is read as the same tree.

* `parse_print_built`: the text of a tree that is built is read as that tree.
-/

namespace Stylesheet

open Text Form

/-! ### Plain bags -/

/-- A bag of a plain node without captured formatting, with a list of plain bags if it has one. An
at-rule has a list. -/
inductive Bag.Plain : Bag → Prop
  | node {fields : BagFields} {nodes : Option (List Bag)} {content : Content}
    (raws : fields.raws = none) (made : fields.content? = .ok content) (plain : content.Plain)
    (block : content.kind = .atRule → nodes.isSome = true)
    (kids : ∀ bags, nodes = some bags → ∀ b ∈ bags, Plain b) : Plain (.node fields nodes)

theorem Bag.plain_leaf {fields : BagFields} {content : Content} (hraws : fields.raws = none)
    (hmade : fields.content? = .ok content) (hplain : content.Plain)
    (hkind : content.kind ≠ .atRule) : Bag.Plain (.node fields none) :=
  .node hraws hmade hplain (fun h => absurd h hkind) fun _ h => by cases h

theorem Bag.plain_withNodes {fields : BagFields} {content : Content} {bags : List Bag}
    (hraws : fields.raws = none) (hmade : fields.content? = .ok content) (hplain : content.Plain)
    (hbags : ∀ b ∈ bags, Bag.Plain b) : Bag.Plain (.node fields (some bags)) :=
  .node hraws hmade hplain (fun _ => rfl) fun _ h => by cases h; exact hbags

/-- The edit puts one plain bag or more at the end of a list. -/
def Edit.AppendsPlain : Edit → Prop
  | .append _ (.bag bag) => Bag.Plain bag
  | .append _ (.bags bags) => ∀ b ∈ bags, Bag.Plain b
  | _ => False

theorem BagFields.bare_of_detail? {fields : BagFields} {content : Content} {hasList : Bool}
    {d : Detail} (hraws : fields.raws = none) (hmade : fields.content? = .ok content)
    (hplain : content.Plain) (hblock : content.kind = .atRule → hasList = true)
    (h : fields.detail? hasList = .ok d) : d.Bare := by
  rw [detail?, hmade, hraws] at h
  cases h
  refine ⟨rfl, ?_, fun _ => hplain⟩
  cases content with
  | root => exact absurd hplain id
  | atRule name params => exact hblock rfl
  | _ => rfl

theorem Bag.Plain.describes {bag : Bag} (h : Bag.Plain bag) : bag.Describes Detail.Bare := by
  induction h with
  | node raws made plain block _ ih =>
    exact .node (fun _ hd => BagFields.bare_of_detail? raws made plain block hd) ih

namespace Tree

variable {t : Tree}

/-! ### Bare trees stay bare -/

theorem bare_empty : Tree.empty.Bare := by
  intro id n hn
  have hmem : n ∈ Tree.empty.nodes := Array.mem_of_getElem? hn
  rw [Tree.empty, Array.mem_singleton] at hmem
  rw [hmem]
  exact ⟨rfl, rfl, fun hroot => absurd rfl hroot⟩

namespace Bare

theorem before? (h : t.Bare) (id : NodeId) : t.before? id = none := by
  rw [Tree.before?]
  cases hn : t.get? id with
  | none => rfl
  | some n => rw [Option.bind_some, h.raws hn]

/-- One node is changed. -/
theorem modify (h : t.Bare) (id : NodeId) {f : Node → Node}
    (hf : ∀ n, t.get? id = some n → n.detail.Bare → (f n).detail.Bare) : (t.modify id f).Bare := by
  intro x n hn
  rw [get?_modify] at hn
  split_ifs at hn with hx
  · obtain ⟨m, hm, rfl⟩ := Option.map_eq_some_iff.mp hn
    exact hf m (hx ▸ hm) (h x m hm)
  · exact h x n hn

theorem foldl {step : Tree → NodeId → Tree} (hstep : ∀ t x, t.Bare → (step t x).Bare)
    (ids : List NodeId) (h : t.Bare) : (ids.foldl step t).Bare := by
  induction ids generalizing t with
  | nil => exact h
  | cons x ids ih => exact ih (hstep t x h)

theorem modifyAll (h : t.Bare) (ids : List NodeId) {f : Node → Node}
    (hf : ∀ n, (f n).detail = n.detail) : (t.modifyAll ids f).Bare := by
  refine foldl (fun t x h => h.modify x fun n _ hn => ?_) ids h
  rw [hf]
  exact hn

/-- Nothing is put in front of a node. -/
theorem setBefore (h : t.Bare) (id : NodeId) : (t.setBefore none id).Bare := by
  refine h.modify id fun n _ hn => ⟨?_, hn.block, hn.plain⟩
  show { n.detail.raws with before := none } = ({} : Raws)
  rw [hn.raws]

theorem settleOne (h : t.Bare) (parent : NodeId) (parentIsRoot : Bool) (id : NodeId) :
    (Tree.settleOne parent parentIsRoot none t id).Bare := by
  have hdirty : (t.markTreeDirty id).Bare := h.modifyAll _ fun _ => rfl
  refine hdirty.modify id fun n _ hn => ⟨?_, hn.block, hn.plain⟩
  show { n.detail.raws with
    before := if parentIsRoot || n.detail.raws.before.isSome then n.detail.raws.before else none } =
      ({} : Raws)
  rw [hn.raws]
  exact congrArg (fun before => ({ before } : Raws)) (ite_self _)

/-- New nodes at the end of a list find nothing in front of the last one. -/
theorem settle (h : t.Bare) (parent : NodeId) (ids : List NodeId) :
    (t.settle parent (t.last? parent) false ids).Bare := by
  have hnone : (t.last? parent).bind t.before? = none := by
    cases t.last? parent with
    | none => rfl
    | some s => exact h.before? s
  have hsettled := foldl (fun _ x h => h.settleOne parent (t.isRoot parent) x) ids h
  unfold Tree.settle
  rw [hnone]
  dsimp only
  split
  · rw [settleAtTop, if_neg Bool.false_ne_true]
    split_ifs
    · exact hsettled
    · exact foldl (fun _ x h => h.setBefore x) ids hsettled
    · exact hsettled
  · exact hsettled

theorem relist (h : t.Bare) (parent : NodeId) (f : List NodeId → List NodeId)
    (move : Int → Int) : (t.relist parent f move).Bare := by
  have hlist : (t.modify parent fun n => (n.withChildren f).moveCursors move).Bare :=
    h.modify parent fun _ _ hn => hn
  rw [Tree.relist, markDirty]
  split_ifs
  · exact hlist.modifyAll _ fun _ => rfl
  · exact hlist

theorem insertLast (h : t.Bare) (parent : NodeId) (ids : List NodeId) :
    (t.insertLast parent ids).Bare :=
  (h.settle parent ids).relist parent _ _

theorem push (h : t.Bare) {d : Detail} (hd : d.Bare) : (t.push { detail := d }).2.Bare := by
  intro x n hn
  have hget : (t.nodes.push { detail := d })[x.index]? = some n := hn
  rw [Array.getElem?_push] at hget
  split_ifs at hget
  · cases hget
    exact hd
  · exact h x n hget

theorem openBlock (h : t.Bare) {parent : NodeId} {n : Node} (hn : t.get? parent = some n)
    (hown : n.kind.canOwn = true) :
    (t.modify parent (·.withDetail fun d => { d with block := true })).Bare := by
  refine h.modify parent fun m hm hbare => ⟨hbare.raws, ?_, hbare.plain⟩
  rw [hn] at hm
  cases hm
  exact hown.symm

end Bare

end Tree

namespace Editing

open Stylesheet.Tree

theorem building_bare : Building Detail.Bare Bare (fun _ => True) fun _ => True where
  push h hd := ⟨h.push hd, trivial⟩
  own _ := trivial
  insertLast h _ _ := h.insertLast _ _

theorem keepsBare_build {bag : Bag} (hplain : Bag.Plain bag) : Keeps Bare (build bag) :=
  fun _ h => (building_bare.build hplain.describes h).mono (fun _ h => h) fun _ _ h => h.1

theorem keepsBare_openBlock (parent : NodeId) : Keeps Bare (openBlock parent) := by
  intro t h
  rw [openBlock]
  refine .bind (R := fun n u => u = t ∧ t.get? parent = some n)
    (.node parent h fun n hn => ⟨rfl, hn⟩) ?_
  rintro n u ⟨rfl, hn⟩
  cases hkind : n.kind with
  | declaration => exact .throw _ h
  | comment => exact .throw _ h
  | _ => exact .change (h.openBlock hn (by rw [hkind]; rfl))

theorem keepsBare_append (parent : NodeId) {m : Material}
    (hm : Keeps Bare (materialize (some parent) m)) : Keeps Bare (append parent m) :=
  (keepsBare_openBlock parent).bind fun _ => hm.bind fun ids =>
    .bind (.change fun _ h => h.insertLast parent ids) fun _ => .pure ids

end Editing

open Editing

/-- Appending plain bags keeps a tree bare. -/
theorem Edit.AppendsPlain.keepsBare {e : Edit} (he : e.AppendsPlain) :
    Keeps Tree.Bare e.perform := by
  cases e with
  | append parent m =>
    refine keepsBare_append parent ?_
    cases m with
    | bag bag => exact (keepsBare_build he).bind fun id => .pure [id]
    | bags bags => exact .mapM bags fun bag hbag => keepsBare_build (he bag hbag)
    | _ => exact absurd he id
  | _ => exact absurd he id

/-- All that plain bags are appended to is bare. -/
theorem Tree.Bare.runAll {edits : List Edit} (hedits : ∀ e ∈ edits, e.AppendsPlain) {d : Desk}
    (hd : d.tree.Bare) : (Edit.runAll edits d).tree.Bare := by
  induction edits generalizing d with
  | nil => exact hd
  | cons e edits ih =>
    rw [List.forall_mem_cons] at hedits
    exact ih hedits.2 ((hedits.1.keepsBare d.tree hd).atEnd d.workspace)

theorem Edit.AppendsPlain.reached {edits : List Edit} (hedits : ∀ e ∈ edits, e.AppendsPlain)
    (w : Workspace) : (Edit.runAll edits ⟨Tree.empty, w⟩).tree.Reached := by
  refine .runAll .empty (fun e he => ?_) fun e he other shared hother => ?_
  all_goals
    have hplain := hedits e he
    cases e with
    | append parent m =>
      cases m with
      | bag bag => first | rfl | cases hother
      | bags bags => first | rfl | cases hother
      | _ => exact absurd hplain id
    | _ => exact absurd hplain id

/-! ### Reading what was printed -/

/-- A text without a number sign names no map. -/
theorem findLink?_eq_none {css : String} (h : '#' ∉ css.toList) : findLink? css = none :=
  findLink?_eq_none_of_not_isInfix fun hpart => h (hpart.subset (by decide +kernel))

theorem stripBom_of_not_mem {css : String} (h : '\uFEFF' ∉ css.toList) :
    Input.stripBom css = (css, false) :=
  Input.stripBom_of_false (Input.stripBom_eq_self_iff.mpr fun hhead =>
    h (List.mem_of_mem_head? hhead))

/-- Without options, a text that names no map is read on its own. -/
theorem exists_create (w : Workspace) {css : String} (hbom : '\uFEFF' ∉ css.toList)
    (hlink : findLink? css = none) :
    ∃ input w', Input.create w css {} = (.ok input, w') ∧ input.css = css := by
  have hload : PreviousMap.load w.toEnvironment css {} = .ok none := by
    rw [PreviousMap.load, hlink]
    rfl
  rw [Input.create, stripBom_of_not_mem hbom]
  dsimp only
  rw [hload]
  exact ⟨_, _, rfl, rfl⟩

/-- A text of the usual characters is read with the nodes that its outline has: it names no map and
has no byte order mark. -/
theorem parse_of_usual (w : Workspace) {css : String} (husual : ∀ c ∈ css.toList, isUsual c = true)
    {g : Branch (Content × Bool)} (houtline : ∀ locate : Nat → Position,
      ∃ b, outlineText locate css = .ok b ∧ b.map Detail.gist = g) :
    ∃ t, (parse w css {}).1 = .ok t ∧ (t.draft Tree.rootId).map Detail.gist = g := by
  obtain ⟨input, w', hcreate, hcss⟩ := exists_create w
    (fun hmem => absurd (husual _ hmem) (by decide))
    (findLink?_eq_none fun hmem => absurd (husual _ hmem) (by decide))
  obtain ⟨b, hb, hgist⟩ := houtline input.position
  rw [← hcss] at hb
  have hparse : (parse w css {}).1 = .ok (Tree.ofDraft input b) := by
    rw [parse, hcreate]
    dsimp only
    rw [Input.tree, hb]
  refine ⟨_, hparse, ?_⟩
  rw [(consistent_of_parse hparse).draft_of_holds b (Tree.holds_ofDraft input b), hgist]

namespace Tree

theorem Bare.gist_detail {t : Tree} (h : t.Bare) {x : NodeId} (hx : t.contains x = true) :
    (t.detail x).gist = (t.detail x).content.gist := by
  obtain ⟨n, hn⟩ := Option.isSome_iff_exists.mp hx
  rw [detail_of_get? hn, Detail.gist, (h x n hn).block]
  rfl

/-- What the nodes of a bare tree say is all there is to them. -/
theorem Bare.gist_draft {t : Tree} (h : t.Bare) (ht : t.Consistent) (x : NodeId)
    (hx : t.contains x = true) :
    (t.draft x).map Detail.gist = (t.saying x).map Content.gist := by
  induction x using ht.induction with
  | step x ih =>
    rw [ht.saying_eq, draft, ht.shape_eq_node, Branch.map, Branch.map, Branch.map,
      Branch.mapAll_eq, Branch.mapAll_eq, Branch.mapAll_eq, List.map_map, List.map_map,
      List.map_map, h.gist_detail hx]
    refine congrArg _ (List.map_congr_left fun c hc => ?_)
    exact ih c hc (ht.contains x c hc)

end Tree

/-- The text of a tree that is built by appending plain bags is read as a tree with the same nodes
in the same places, which say the same. -/
theorem parse_print_built {edits : List Edit} (hedits : ∀ e ∈ edits, e.AppendsPlain)
    (w w' : Workspace) :
    ∃ t, (parse w' (Edit.runAll edits ⟨Tree.empty, w⟩).tree.print {}).1 = .ok t ∧
      (t.draft Tree.rootId).map Detail.gist =
        ((Edit.runAll edits ⟨Tree.empty, w⟩).tree.draft Tree.rootId).map Detail.gist := by
  have hbare : (Edit.runAll edits ⟨Tree.empty, w⟩).tree.Bare := .runAll hedits Tree.bare_empty
  have horderly := (Edit.AppendsPlain.reached hedits w).orderly
  generalize (Edit.runAll edits ⟨Tree.empty, w⟩).tree = built at hbare horderly ⊢
  have hbuilt := horderly.consistent
  have hroot := horderly.rooted
  have hplain : ∀ b ∈ (built.children Tree.rootId).map built.saying, b.Plain := by
    intro b hb
    obtain ⟨c, hc, rfl⟩ := List.mem_map.mp hb
    exact hbare.plain_saying hbuilt c (hbuilt.contains _ c hc) (hbuilt.nested _ c hc)
  -- Printed without any raws the tree is spelled, and spelled text is read back.
  have hprint := hbare.print_eq hbuilt hroot
  have husual : ∀ c ∈ built.print.toList, isUsual c = true := by
    rw [hprint]
    exact isUsual_of_mem_join fun f hf =>
      usual_spellAll 0 _ hplain f (List.mem_of_mem_tail hf)
  have hsaying : built.saying Tree.rootId =
      .node .root ((built.children Tree.rootId).map built.saying) := by
    rw [hbuilt.saying_eq, Tree.content_of_root hroot]
  refine parse_of_usual w' husual fun locate => ?_
  obtain ⟨b, hb, hgist⟩ := outlineText_spell locate hplain
  refine ⟨b, by rw [hprint, hb], ?_⟩
  rw [hgist, hbare.gist_draft hbuilt Tree.rootId (Tree.contains_of_kind? hroot), hsaying]

/-- A rule with an important declaration and an empty comment, an at-rule in it with an empty rule,
and more that is appended to the rule and behind it. -/
def nestedEdits : List Edit :=
  [.append Tree.rootId (.bag ((Bag.rule "a b").withNodes
      [(Bag.declaration "color" "dark red").withImportant true, Bag.comment "",
        (Bag.atRule "media" "").withNodes [Bag.rule "c"]])),
    .append ⟨1⟩ (.bags [Bag.declaration "top" "1", Bag.comment "the end"]),
    .append Tree.rootId (.bag (Bag.comment "x"))]

theorem parse_print_nestedEdits :
    (Edit.runAll nestedEdits ⟨Tree.empty, {}⟩).tree.print =
        "a b \x7b\n    color: dark red !important;\n    /*  */\n    @media \x7b\n" ++
          "        c \x7b\x7d\n    \x7d\n    top: 1\n    /* the end */\n\x7d\n/* x */" ∧
      ∃ t, (parse {} (Edit.runAll nestedEdits ⟨Tree.empty, {}⟩).tree.print {}).1 = .ok t ∧
        (t.draft Tree.rootId).map Detail.gist =
          ((Edit.runAll nestedEdits ⟨Tree.empty, {}⟩).tree.draft Tree.rootId).map Detail.gist := by
  have hphrase : ∀ ws : List String, (ws ≠ [] ∧ ∀ w ∈ ws, IsWord w) →
      IsPhrase (" ".intercalate ws) := fun ws hws => ⟨ws, hws.1, hws.2, rfl⟩
  have hrule : Bag.Plain (Bag.rule "c") :=
    Bag.plain_leaf rfl rfl (hphrase ["c"] (by decide +kernel)) (by decide)
  have hcolor : Bag.Plain ((Bag.declaration "color" "dark red").withImportant true) :=
    Bag.plain_leaf rfl rfl ⟨by decide +kernel, hphrase ["dark", "red"] (by decide +kernel)⟩
      (by decide)
  have htop : Bag.Plain (Bag.declaration "top" "1") :=
    Bag.plain_leaf rfl rfl ⟨by decide +kernel, hphrase ["1"] (by decide +kernel)⟩ (by decide)
  have hempty : Bag.Plain (Bag.comment "") := Bag.plain_leaf rfl rfl (Or.inl rfl) (by decide)
  have hend : Bag.Plain (Bag.comment "the end") :=
    Bag.plain_leaf rfl rfl (Or.inr (hphrase ["the", "end"] (by decide +kernel))) (by decide)
  have hx : Bag.Plain (Bag.comment "x") :=
    Bag.plain_leaf rfl rfl (Or.inr (hphrase ["x"] (by decide +kernel))) (by decide)
  have hmedia : Bag.Plain ((Bag.atRule "media" "").withNodes [Bag.rule "c"]) :=
    Bag.plain_withNodes rfl rfl ⟨by decide +kernel, Or.inl rfl⟩ (by simpa using hrule)
  have hplain : ∀ e ∈ nestedEdits, e.AppendsPlain := by
    rw [nestedEdits, List.forall_mem_cons, List.forall_mem_cons, List.forall_mem_singleton]
    refine ⟨?_, ?_, hx⟩
    · refine Bag.plain_withNodes rfl rfl (hphrase ["a", "b"] (by decide +kernel)) ?_
      simpa using ⟨hcolor, hempty, hmedia⟩
    · simpa [Edit.AppendsPlain] using ⟨htop, hend⟩
  exact ⟨by decide +kernel, parse_print_built hplain {} {}⟩

end Stylesheet
