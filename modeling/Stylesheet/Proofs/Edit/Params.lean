import Stylesheet.Proofs.Chain.Starts
import Stylesheet.Proofs.Edit.Ends
import Stylesheet.Proofs.Outline.Heads
import Stylesheet.Proofs.Outline.Read
import Stylesheet.Proofs.Outline.Starts
import Stylesheet.Proofs.Print.Reworded
import Stylesheet.Proofs.Token.Tiles
import Stylesheet.Proofs.Tree.Reload
import Stylesheet.Proofs.Usual.Build

/-!
# The parameters of an at-rule

Setting the parameters of an at-rule to a word changes the text of the stylesheet at the head of the
at-rule and nowhere else: the word stands where the parameters stood (`AtRuleAt.own_setParams`). The
text is read again then, and all other nodes are the same (`Edit.params_of_setParams`).

The at-rule has its name and the word when its parameters were captured with something between them
and the name. An at-rule without parameters, or with parameters that start with a parenthesis or a
quote right behind the name, has nothing there, and the word becomes part of the name.
-/

namespace Stylesheet

open Text Stylesheet.Tree

/-- Two lists with one place at which they differ are the same elsewhere. -/
theorem getElem?_off_middle {α : Type} (front back : List α) {i : Nat} (hi : i ≠ front.length)
    (a b : α) : (front ++ a :: back)[i]? = (front ++ b :: back)[i]? := by
  rcases Nat.lt_or_gt_of_ne hi with hlt | hgt
  · rw [List.getElem?_append_left hlt, List.getElem?_append_left hlt]
  · obtain ⟨k, rfl⟩ := Nat.exists_eq_add_of_lt hgt
    rw [List.append_cons, List.append_cons front b, List.getElem?_append_right (by simp),
      List.getElem?_append_right (by simp), List.length_append, List.length_append]
    rfl

/-! ### The head of an at-rule -/

/-- The field that a captured text belongs to is the field that was read. -/
theorem value_of_cleanField {custom : Bool} {ts : List Token} {raw : RawValue}
    (h : (cleanField custom ts).2 = some raw) : raw.value = (cleanField custom ts).1 := by
  rw [cleanField] at h ⊢
  dsimp only at h ⊢
  split_ifs at h
  cases h
  rfl

/-- A captured text is not used for another field. -/
theorem apply_cleanField_of_ne {custom : Bool} {ts : List Token} {field : String}
    (h : field ≠ (cleanField custom ts).1) :
    RawValue.apply (cleanField custom ts).2 field = field := by
  unfold RawValue.apply
  split
  · rename_i raw hraw
    rw [if_neg fun heq => h (heq.symm.trans (value_of_cleanField hraw))]
  · rfl

/-- What is captured of an at-rule is known by its name and its parameters. -/
theorem Statement.raws_of_made {name : Token} {params : List Token} {ending : AtRuleEnd}
    {d : Detail} (h : (Statement.atRule name params ending).made? = some d) :
    d.raws = (atRuleCore name params ending).raws := by
  cases ending <;> cases h <;> rfl

/-- A node that is no declaration is printed where the statement starts that makes it. -/
theorem size_front_of_place {locate : Nat → Position} {css : String} {b : Draft}
    {tokens : List Token} {before after : List Statement} {s : Statement} {start : Nat}
    {front own : String} {d : Detail} (hzero : locate 0 = ⟨0, 1, 1⟩)
    (hoffset : ∀ offset, (locate offset).offset = offset) (hlex : lex false css = (tokens, none))
    (hss : statementsFrom none tokens = (before ++ s :: after, none))
    (hb : outlineText locate css = .ok b) (hstart : s.start? = some start)
    (hd : b.toList[(before.filterMap Statement.made?).length + 1]? = some d)
    (hkind : d.kind ≠ .declaration) (hplace : ⟨front, d, own⟩ ∈ Draft.places "" false b) :
    front.utf8ByteSize = start := by
  obtain ⟨f, hack, rfl, ⟨stop, hsource⟩, hnone, -⟩ := (outlineText_read hzero hb _ hplace).starts
  rw [hnone hkind, String.append_empty]
  -- The node starts where it was read, and where its statement starts.
  have hread : d.position? = some (locate f.utf8ByteSize) := by
    rw [Detail.position?, hsource]
    rfl
  have hstarts := congrArg (·[(before.filterMap Statement.made?).length + 1]?)
    (start_of_outlineText hlex hss hb)
  rw [List.getElem?_map, hd, Option.map_some, hread, List.getElem?_cons_succ, List.filterMap_append,
    List.filterMap_cons_some hstart, List.map_append, ← Statement.length_filterMap_start?,
    List.getElem?_append_right (by rw [List.length_map]), List.length_map, Nat.sub_self] at hstarts
  have hsame : locate f.utf8ByteSize = locate start := by simpa using hstarts
  rw [← hoffset f.utf8ByteSize, hsame, hoffset]

/-- What stands between the name of an at-rule and its parameters. -/
def paramsGap (params : List Token) : String :=
  Token.join ((cutGaps params).1.takeWhile Token.isGap)

namespace AtRuleAt

variable {css : String} {before after : List Statement} {name : Token} {params rest : List Token}
  {ending : AtRuleEnd} {d : Detail} {nodeName nodeParams : String}

/-- What is kept between name and parameters is what stands there in the statement. -/
theorem afterName_eq (hd : (Statement.atRule name params ending).made? = some d.core) :
    d.raws.afterName = some (paramsGap params) := by
  have hraws := Statement.raws_of_made hd
  exact congrArg Raws.afterName hraws

/-- What the node of the at-rule starts with, as it was read and with a word for its parameters.
What stands behind the parameters is the same. -/
theorem own_setParams (h : AtRuleAt css before name params ending rest after)
    (hd : (Statement.atRule name params ending).made? = some d.core)
    (hcontent : d.content = .atRule nodeName nodeParams) {p : String} (hp : p ≠ nodeParams)
    (hne : p ≠ "") (closed : Bool) :
    ∃ behind, d.own closed = name.text ++ Token.join (cutGaps params).1 ++ behind ∧
      ({ d with content := .atRule nodeName p } : Detail).own closed =
        name.text ++ (paramsGap params ++ p) ++ behind := by
  have hafter := afterName_eq hd
  have hraw : d.raws.params = (cleanField false ((cutGaps params).1.dropWhile Token.isGap)).2 :=
    congrArg Raws.params (Statement.raws_of_made hd)
  obtain ⟨rfl, rfl⟩ : nodeName = String.ofList (name.text.toList.drop 1) ∧
      nodeParams = (cleanField false ((cutGaps params).1.dropWhile Token.isGap)).1 := by
    have hsame := Statement.content_of_made hd
    exact Content.atRule.inj (hcontent.symm.trans hsame)
  -- Both heads are compared with the tokens that the source had there.
  have hkept : ∀ t ∈ (cutGaps params).1, t.Spelled := by
    intro t ht
    refine lex_spelled css t ?_
    rw [h.lex_eq_behindHead]
    simp [ht]
  have hname : name.Spelled := lex_spelled css name (by rw [h.lex_eq]; simp)
  have hat : "@" ++ String.ofList (name.text.toList.drop 1) = name.text := by
    obtain ⟨chars, hchars, -⟩ := h.text_name
    rw [← String.toList_inj, hchars]
    simp
  -- With other params the remembered text no longer applies, and the gap alone is left of it.
  have hhead : atRuleHead d.raws (String.ofList (name.text.toList.drop 1)) p =
      name.text ++ (paramsGap params ++ p) := by
    have hempty : (p == "") = false := beq_eq_false_iff_ne.mpr hne
    rw [atRuleHead, hafter, hraw, apply_cleanField_of_ne hp, hempty]
    dsimp only
    rw [hat, String.append_assoc]
    rfl
  refine ⟨d.raws.between.getD "" ++ if d.block then "\x7b" else if closed then ";" else "", ?_, ?_⟩
  · rw [Detail.own_of_atRule hcontent, atRuleHead_text hname h.fits.2.1 hkept hafter hraw]
  · rw [Detail.own_of_atRule rfl, hhead]

end AtRuleAt

/-! ### Setting the parameters -/

/-- A node of a stylesheet is an at-rule, and what is known of it by the statements of the text. -/
structure Tree.ReadsAtRule (t : Tree) (id : NodeId) (n : Node) (before : List Statement)
    (name : Token) (params : List Token) (ending : AtRuleEnd) (rest : List Token)
    (after : List Statement) : Prop where
  place : AtRuleAt t.print before name params ending rest after
  balanced : (before ++ .atRule name params ending :: after).foldlM Statement.level? 0 = some 0
  index : id.index = (before.filterMap Statement.made?).length + 1
  made : (Statement.atRule name params ending).made? = some n.detail.core
  cores : ∀ x : NodeId, (t.get? x).map (·.detail.core) = ({ content := .root } ::
    (before.filterMap Statement.made? ++ n.detail.core :: after.filterMap Statement.made?))[
      x.index]?

namespace Tree

variable {w : Workspace} {css : String} {options : ParseOptions} {t : Tree} {id : NodeId}
  {n : Node} {nodeName nodeParams : String} {before after : List Statement} {name : Token}
  {params rest : List Token} {ending : AtRuleEnd}

/-- Every at-rule of a tree that was read was made of a statement. -/
theorem exists_readsAtRule (h : (parse w css options).1 = .ok t) (hn : t.get? id = some n)
    (hkind : n.kind = .atRule) :
    ∃ before name params ending rest after,
      t.ReadsAtRule id n before name params ending rest after := by
  obtain ⟨tokens, ss, hlex, hss, hcore⟩ := core_of_parse h
  rw [← print_of_parse h] at hlex
  have hbalanced : ss.foldlM Statement.level? 0 = some 0 := by
    obtain ⟨input, b, hcss, hb, -⟩ := parse_eq_ok h
    rw [print_of_parse h, ← hcss] at hlex
    exact (isOk_outlineText_iff hlex hss).mp ⟨b, hb⟩
  have hnode : ({ content := .root } :: ss.filterMap Statement.made?)[id.index]? =
      some n.detail.core := by
    rw [← hcore, hn]
    rfl
  -- Node zero is the root; every other node comes from a statement, in order.
  cases hindex : id.index with
  | zero =>
    rw [hindex] at hnode
    have hroot : NodeKind.root = n.kind := congrArg Detail.kind (Option.some.inj hnode)
    rw [hkind] at hroot
    cases hroot
  | succ i =>
    rw [hindex, List.getElem?_cons_succ] at hnode
    obtain ⟨before, name, params, ending, rest, after, hplace, rfl, hmade, hlength⟩ :=
      AtRuleAt.of_made hlex hss hnode hkind
    refine ⟨before, name, params, ending, rest, after, hplace, hbalanced, by rw [hindex, hlength],
      hmade, fun x => ?_⟩
    rw [hcore, List.filterMap_append, List.filterMap_cons_some hmade]

/-- The at-rule is printed where its name stands. -/
theorem ReadsAtRule.size_front {input : Input} {b : Draft}
    (hread : (ofDraft input b).ReadsAtRule id n before name params ending rest after)
    (hlines : input.lines = LineIndex.ofText input.css.toList)
    (hb : outlineText input.position input.css = .ok b)
    (hcss : (ofDraft input b).print = input.css) (hn : (ofDraft input b).get? id = some n)
    (hkind : n.kind = .atRule) {front own : String}
    (hplace : ⟨front, n.detail, own⟩ ∈ Draft.places "" false b) :
    front.utf8ByteSize = (Token.join (before.flatMap Statement.tokens)).utf8ByteSize := by
  have hlex := hread.place.lex_eq
  -- The tokens in front reach up to the name, and the printed text in front is as long.
  have hstart : name.start = (Token.join (before.flatMap Statement.tokens)).utf8ByteSize := by
    have hfollow := lex_follow false (ofDraft input b).print
    rw [hlex] at hfollow
    exact Token.follow_start hfollow
  have hdetail : b.toList[(before.filterMap Statement.made?).length + 1]? = some n.detail := by
    rw [← hread.index, ← map_detail_ofDraft input, hn]
    rfl
  have hss := hread.place.statementsFrom_eq
  rw [hlex] at hss
  rw [hcss] at hlex
  rw [← hstart]
  refine size_front_of_place (Input.position_zero hlines) (fun _ => rfl) hlex hss hb rfl hdetail ?_
    hplace
  rw [show n.detail.kind = NodeKind.atRule from hkind]
  decide

/-- The text with a word for the parameters. -/
theorem ReadsAtRule.print_setContent
    (hread : t.ReadsAtRule id n before name params ending rest after)
    (h : (parse w css options).1 = .ok t) (hn : t.get? id = some n)
    (hcontent : n.content = .atRule nodeName nodeParams) {p : String} (hne : p ≠ "")
    (hp : p ≠ nodeParams) :
    (t.setContent id n.content (.atRule nodeName p)).print =
      Token.join (before.flatMap Statement.tokens) ++
        (name.text ++ (paramsGap params ++ p) ++ Token.join (behindHead params ending rest)) := by
  obtain ⟨input, w', b, hcreate, hb, rfl⟩ := parse_eq_ofDraft h
  obtain ⟨_, _, _, -, hinput⟩ := create_eq_ok hcreate
  have hcss : (ofDraft input b).print = input.css := by rw [print_of_parse h, hinput]; rfl
  obtain ⟨hcap, hroot, -⟩ := outlineText_eq_ok hb
  have hkind : n.kind = .atRule := by rw [Node.kind, hcontent]; rfl
  have hkept : (Content.atRule nodeName p).kind = n.kind := hkind.symm
  obtain ⟨closed, front, back, hplace, hprint, hprint'⟩ :=
    Tree.print_setContent input hcap hroot hn hkept
  obtain ⟨behind, hown, hown'⟩ := hread.place.own_setParams hread.made hcontent hp hne closed
  have hsize := hread.size_front (by rw [hinput]; rfl) hb hcss hn hkind hplace
  -- What is printed behind the head is what stands there.
  have hjoin := join_lex hread.place.complete
  rw [hread.place.lex_eq_behindHead, hprint, hown, Token.join_append, Token.join_append,
    Token.join_cons] at hjoin
  have hsame : Token.join (before.flatMap Statement.tokens) ++ (name.text ++
      Token.join (cutGaps params).1 ++ Token.join (behindHead params ending rest)) =
        front ++ (name.text ++ Token.join (cutGaps params).1 ++ (behind ++ back)) := by
    simpa only [String.append_assoc] using hjoin
  obtain ⟨hfront, hback⟩ := append_inj_of_size hsame hsize.symm
  rw [hprint', hown', hfront, (String.append_right_inj _).mp hback]
  simp only [String.append_assoc]

/-! ### Reading the text again -/

/-- A text that was not changed is read with the same nodes. -/
theorem ReadsAtRule.parse_print (hread : t.ReadsAtRule id n before name params ending rest after)
    (hn : t.get? id = some n) {w₁ w₂ : Workspace} {options₁ : ParseOptions} {input : Input}
    (hinput : Input.create w₁ t.print options₁ = (.ok input, w₂)) (hcss : input.css = t.print) :
    ∃ v m, (parse w₁ t.print options₁).1 = .ok v ∧ v.get? id = some m ∧ m.content = n.content ∧
      ∀ x, (v.get? x).map (·.detail.core) = (t.get? x).map (·.detail.core) := by
  obtain ⟨v, hv, hcores⟩ := exists_parse_of_statements hinput (hcss ▸ hread.place.lex_eq)
    (by rw [← hread.place.statementsFrom_eq, hread.place.lex_eq]) hread.balanced
  -- Same statements, same nodes: only where they are noted to stand may differ.
  have hsame : ∀ x, (v.get? x).map (·.detail.core) = (t.get? x).map (·.detail.core) := by
    intro x
    rw [hcores, hread.cores, List.filterMap_append, List.filterMap_cons_some hread.made]
  have hcore : (v.get? id).map (·.detail.core) = some n.detail.core := by
    rw [hsame, hn]
    rfl
  obtain ⟨m, hm, hdetail⟩ := Option.map_eq_some_iff.mp hcore
  have hsaid := congrArg Detail.content hdetail
  exact ⟨v, m, hv, hm, hsaid, hsame⟩

/-- With a word for the parameters, only the at-rule says something else. -/
theorem ReadsAtRule.parse_setContent
    (hread : t.ReadsAtRule id n before name params ending rest after)
    (h : (parse w css options).1 = .ok t) (hn : t.get? id = some n)
    (hcontent : n.content = .atRule nodeName nodeParams) {p : String} (hp : IsWord p)
    (hne : p ≠ nodeParams) {w₁ w₂ : Workspace} {options₁ : ParseOptions} {input : Input}
    (hinput : Input.create w₁ (t.setContent id n.content (.atRule nodeName p)).print options₁ =
      (.ok input, w₂))
    (hcss : input.css = (t.setContent id n.content (.atRule nodeName p)).print)
    (hurls : UrlsLocal t.print) (hurls' : UrlsLocal input.css) :
    ∃ v m, (parse w₁ (t.setContent id n.content (.atRule nodeName p)).print options₁).1 = .ok v ∧
      v.get? id = some m ∧
      m.content = (if paramsGap params = "" then .atRule (nodeName ++ p) ""
        else .atRule nodeName p) ∧
      ∀ x ≠ id, (v.get? x).map (·.detail.core) = (t.get? x).map (·.detail.core) := by
  have hname : nodeName = String.ofList (name.text.toList.drop 1) := by
    have hmade := Statement.content_of_made hread.made
    exact (Content.atRule.inj (hcontent.symm.trans hmade)).1
  have htext := hread.print_setContent h hn hcontent hp.1 hne
  rw [← hcss] at htext
  have hgap : GapText (paramsGap params).toList := by
    refine hread.place.gapText (fun u hu => ?_) fun u hu => List.mem_takeWhile_imp hu
    rw [← cutGaps_append params]
    exact List.mem_append_left _ (List.takeWhile_subset _ hu)
  obtain ⟨v, d, hv, hd, hcores⟩ := hread.place.parse_head hread.balanced hurls hgap hp hinput
    (by rw [htext]; simp only [String.toList_append]) hurls'
  -- The new head makes one node, at the index where the old one made one.
  have hat : (before.filterMap Statement.made? ++ d :: after.filterMap Statement.made?)[
      (before.filterMap Statement.made?).length]? = some d := by
    rw [List.getElem?_append_right (Nat.le_refl _), Nat.sub_self, List.getElem?_cons_zero]
  obtain ⟨m, hm, hdetail⟩ : ∃ m, v.get? id = some m ∧ m.detail.core = d := by
    refine Option.map_eq_some_iff.mp ?_
    rw [hcores, hread.index, List.getElem?_cons_succ, hat]
  refine ⟨v, m, hv, hm, ?_, fun x hx => ?_⟩
  · have hsaid := congrArg Detail.content hdetail
    rw [show m.content = d.content from hsaid, hd, hname]
    simp only [String.toList_eq_nil_iff]
  -- All other nodes come from statements that were not edited.
  · have hindex : x.index ≠ (before.filterMap Statement.made?).length + 1 := by
      rw [← hread.index]
      exact fun heq => hx (congrArg NodeId.mk heq)
    rw [hcores, hread.cores, ← List.cons_append, ← List.cons_append]
    exact getElem?_off_middle _ _ hindex _ _

end Tree

namespace Edit

open Editing

variable {t : Tree} {id : NodeId} {n : Node} {nodeName nodeParams : String}

/-- The parameters are set, and the formatting around them stays. -/
theorem run_setParams (hn : t.get? id = some n) (hcontent : n.content = .atRule nodeName nodeParams)
    (p : String) (w : Workspace) :
    (Edit.setParams id p).run ⟨t, w⟩ =
      (.ok [], ⟨t.setContent id n.content (.atRule nodeName p), w⟩) := by
  have hkind : n.kind = .atRule := by rw [Node.kind, hcontent]; rfl
  have hset : (Editing.setParams id p).runOn ⟨t, w⟩ =
      (.ok (), ⟨t.setContent id n.content (.atRule nodeName p), w⟩) := by
    rw [Editing.setParams, runOn_update hn hkind, hcontent]
    rfl
  rw [run, perform, silently, runOn_bind, hset]
  rfl

/-- **Parameters that are set are read back.** In every stylesheet, setting the parameters of an
at-rule to a word succeeds, and what is printed then is read with the same nodes in the same places,
where the word `url` counts right in front of a parenthesis only. The at-rule has its name and the
word for its parameters exactly when something was captured between its name and its parameters, or
the parameters are the word already. Otherwise the word becomes part of the name. -/
theorem params_of_setParams {w w' : Workspace} {css : String} {options : ParseOptions}
    (h : (parse w css options).1 = .ok t) (hn : t.get? id = some n)
    (hcontent : n.content = .atRule nodeName nodeParams) {p : String} (hp : IsWord p) :
    ∃ u gap, (Edit.setParams id p).run ⟨t, w'⟩ = (.ok [], ⟨u, w'⟩) ∧
      n.raws.afterName = some gap ∧
      ∀ (w₁ w₂ : Workspace) (options₁ : ParseOptions) (input : Input),
        Input.create w₁ u.print options₁ = (.ok input, w₂) → input.css = u.print →
        UrlsLocal t.print → UrlsLocal u.print →
        ∃ v m, (parse w₁ u.print options₁).1 = .ok v ∧ v.get? id = some m ∧
          m.content = (if gap ≠ "" ∨ nodeParams = p then .atRule nodeName p
            else .atRule (nodeName ++ p) "") ∧
          ∀ x ≠ id, (v.get? x).map (·.detail.core) = (t.get? x).map (·.detail.core) := by
  have hkind : n.kind = .atRule := by rw [Node.kind, hcontent]; rfl
  obtain ⟨before, name, params, ending, rest, after, hread⟩ := exists_readsAtRule h hn hkind
  refine ⟨_, _, run_setParams hn hcontent p w', AtRuleAt.afterName_eq hread.made, ?_⟩
  intro w₁ w₂ options₁ input hinput hcss hurls hurls'
  by_cases hsame : nodeParams = p
  · -- Nothing is set.
    subst hsame
    have hnothing : t.setContent id n.content (.atRule nodeName nodeParams) = t := by
      rw [setContent, if_pos hcontent]
    rw [hnothing] at hinput hcss ⊢
    obtain ⟨v, m, hv, hm, hsaid, hcores⟩ := hread.parse_print hn hinput hcss
    refine ⟨v, m, hv, hm, ?_, fun x _ => hcores x⟩
    rw [if_pos (.inr rfl), hsaid, hcontent]
  · obtain ⟨v, m, hv, hm, hsaid, hcores⟩ := hread.parse_setContent h hn hcontent hp
      (Ne.symm hsame) hinput hcss hurls (hcss ▸ hurls')
    refine ⟨v, m, hv, hm, ?_, hcores⟩
    rw [hsaid]
    simp only [hsame, or_false, ite_not]

/-- The comment between the name and the parameters stays, and divides them. -/
theorem params_of_setParams_nested :
    let t := sheet "a\x7b@media /*x*/ (b) and c\x7bd:e\x7d\x7d@f g(h)"
    ∃ u, (Edit.setParams ⟨2⟩ "print").run ⟨t, {}⟩ = (.ok [], ⟨u, {}⟩) ∧
      u.print = "a\x7b@media /*x*/ print\x7bd:e\x7d\x7d@f g(h)" ∧
      ∃ v m, (Stylesheet.parse {} u.print {}).1 = .ok v ∧ v.get? ⟨2⟩ = some m ∧
        m.content = .atRule "media" "print" := by
  intro t
  obtain ⟨n, hn⟩ : ∃ n, t.get? ⟨2⟩ = some n := Option.isSome_iff_exists.mp (by decide +kernel)
  have hread : ∀ n ∈ t.get? ⟨2⟩, n.content = .atRule "media" "(b) and c" ∧
      n.raws.afterName = some " /*x*/ " := by
    decide +kernel
  obtain ⟨hcontent, hafter⟩ := hread n hn
  obtain ⟨u, gap, hrun, hgap, hback⟩ := @params_of_setParams _ _ _ _ _ {} {} _ {}
    (parse_sheet (by decide +kernel)) hn hcontent "print" (by decide)
  obtain rfl : " /*x*/ " = gap := Option.some.inj (hafter.symm.trans hgap)
  have hprint : u.print = "a\x7b@media /*x*/ print\x7bd:e\x7d\x7d@f g(h)" := by
    have hdone : ((Edit.setParams ⟨2⟩ "print").run ⟨t, {}⟩).2.tree.print =
        "a\x7b@media /*x*/ print\x7bd:e\x7d\x7d@f g(h)" := by
      decide +kernel
    rwa [hrun] at hdone
  have hurls : ∀ t ∈ (lex false u.print).1, t.kind = .word → t.text ≠ "url" := by
    rw [hprint]
    decide +kernel
  obtain ⟨input, w₂, hinput, hcss⟩ := @exists_create {} u.print
    (by rw [hprint]; decide +kernel) (by rw [hprint]; decide +kernel)
  obtain ⟨v, m, hv, hm, hsaid, -⟩ := hback {} w₂ {} input hinput hcss
    (urlsLocal_of_ne (by decide +kernel)) (urlsLocal_of_ne hurls)
  exact ⟨u, hrun, hprint, v, m, hv, hm, hsaid.trans (if_pos (.inl (by decide)))⟩

/-- Right behind the name, the word becomes part of it. -/
theorem params_behind_name :
    ¬ ∀ (w w' w₁ : Workspace) (css : String) (options options₁ : ParseOptions) (t : Tree)
      (id : NodeId) (n : Node) (name params p : String),
      (Stylesheet.parse w css options).1 = .ok t → t.get? id = some n →
      n.content = .atRule name params → IsWord p →
      let u := ((Edit.setParams id p).run ⟨t, w'⟩).2.tree
      ∃ v m, (Stylesheet.parse w₁ u.print options₁).1 = .ok v ∧ v.get? id = some m ∧
        m.content = .atRule name p := by
  intro h
  obtain ⟨n, hn⟩ : ∃ n, (sheet "@media\x7b\x7d").get? ⟨1⟩ = some n :=
    Option.isSome_iff_exists.mp (by decide +kernel)
  have hcontent : ∀ n ∈ (sheet "@media\x7b\x7d").get? ⟨1⟩, n.content = .atRule "media" "" := by
    decide +kernel
  -- Nothing stands between the name and the block, so name and params run together.
  obtain ⟨v, m, hv, hm, hsaid⟩ := h {} {} {} "@media\x7b\x7d" {} {} _ ⟨1⟩ n "media" "" "p"
    (parse_sheet (by decide +kernel)) hn (hcontent n hn) (by decide)
  have hread : ∀ v ∈ (Stylesheet.parse {} ((Edit.setParams ⟨1⟩ "p").run
      ⟨sheet "@media\x7b\x7d", {}⟩).2.tree.print {}).1.toOption, ∀ m ∈ v.get? ⟨1⟩,
      m.content ≠ .atRule "media" "p" := by
    decide +kernel
  exact hread v (by rw [hv]; rfl) m hm hsaid

end Edit

end Stylesheet
