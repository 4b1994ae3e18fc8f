import Stylesheet.Proofs.Outline.Firm
import Stylesheet.Proofs.Output.Identity

/-!
# The order of mappings

The chunks of a tree whose nodes have firm ends are firm (`Tree.chunks_firm`): a chunk of a node has
text, and where its end is mapped, the end is known and no line break. So every mapping stands in
front of the end of its chunk, and the mappings are in the order of their places. The one where a
node starts is the first at its place (`MapPlan.find?_settled`).
-/

namespace Stylesheet

open Text

/-! ### Firm chunks -/

namespace Chunk

/-- A chunk of a node has text. Where the end of the node is mapped, it is known, and the chunk does
not end with a line break. -/
structure Firm (t : Tree) (c : Chunk) : Prop where
  text : c.part ≠ none → c.text ≠ ""
  stop : ∀ id phase n, c.part = some (id, phase) → phase ≠ .start → t.get? id = some n →
    MapPlan.endsOpen t id n = false → n.detail.Ended ∧ EndsInLine c.text

theorem firm_of_part_eq_none {t : Tree} {c : Chunk} (h : c.part = none) : c.Firm t := by
  refine ⟨fun hne => absurd h hne, fun id phase n hpart => ?_⟩
  rw [h] at hpart
  cases hpart

theorem firm_start {t : Tree} {id : NodeId} {text : String} (h : text ≠ "") :
    (of id .start text).Firm t := by
  refine ⟨fun _ => h, fun x phase n hpart hphase => ?_⟩
  cases hpart
  exact absurd rfl hphase

theorem firm_of {t : Tree} {id : NodeId} {n : Node} {phase : Phase} {text : String}
    (hn : t.get? id = some n) (hne : text ≠ "")
    (h : MapPlan.endsOpen t id n = false → n.detail.Ended ∧ EndsInLine text) :
    (of id phase text).Firm t := by
  refine ⟨fun _ => hne, fun x phase' m hpart _ hm hopen => ?_⟩
  cases hpart
  rw [hn] at hm
  cases hm
  exact h hopen

end Chunk

/-! ### Texts of nodes -/

namespace Detail

theorem heading_ne_empty {d : Detail} (hleaf : d.isLeaf = false) (hkind : d.kind ≠ .root) :
    d.heading ≠ "" := by
  have hbrace : ∀ s : String, s ++ "\x7b" ≠ "" := by
    intro s hempty
    exact absurd (String.append_eq_empty_iff.mp hempty).2 (by decide)
  unfold heading
  unfold isLeaf at hleaf
  cases hc : d.content with
  | root => exact absurd (by rw [kind, hc]; rfl) hkind
  | rule selector => exact hbrace _
  | atRule name params => exact hbrace _
  | declaration prop value important => rw [hc] at hleaf; cases hleaf
  | comment text => rw [hc] at hleaf; cases hleaf

theorem leafText_ne_empty {d : Detail} (hleaf : d.isLeaf = true)
    (htext : d.kind = .declaration → d.leafText false ≠ "") (closed : Bool) :
    d.leafText closed ≠ "" := by
  unfold isLeaf at hleaf
  -- A leaf at-rule prints its at-sign, and a comment its marks.
  cases hc : d.content with
  | root => rw [hc] at hleaf; cases hleaf
  | rule selector => rw [hc] at hleaf; cases hleaf
  | atRule name params =>
    intro hempty
    simp [leafText, hc, Tree.atRuleHead] at hempty
  | declaration prop value important =>
    intro hempty
    refine htext (by rw [kind, hc]; rfl) ?_
    rw [leafText, hc] at hempty ⊢
    simp only [String.append_eq_empty_iff] at hempty
    simp [hempty.1]
  | comment text =>
    intro hempty
    simp [leafText, hc] at hempty

end Detail

/-- The first child has a firm end, or is the last one and not closed. -/
theorem Draft.firm_cons {closesLast : Bool} {b : Draft} {bs : List Draft}
    (h : FirmAll closesLast (b :: bs) ∨ OpenLast closesLast (b :: bs)) :
    (FirmEnd (bs.any (fun b => !isComment b) || closesLast) b ∨
      bs = [] ∧ closesLast = false ∧ b.label.isLeaf = true ∧ isComment b = false) ∧
    (FirmAll closesLast bs ∨ OpenLast closesLast bs) := by
  rcases h with h | ⟨hopen, front, last, hsplit, hleaf, hcomment, hfront⟩
  · exact ⟨Or.inl h.1, Or.inl h.2⟩
  · cases front with
    | nil =>
      cases hsplit
      exact ⟨Or.inr ⟨rfl, hopen, hleaf, hcomment⟩, Or.inl trivial⟩
    | cons a front =>
      cases hsplit
      refine ⟨Or.inl ?_, Or.inr ⟨hopen, front, last, rfl, hleaf, hcomment, hfront.2⟩⟩
      have hany : (front ++ [last]).any (fun b => !isComment b) = true := by simp [hcomment]
      show FirmEnd ((front ++ [last]).any (fun b => !isComment b) || _) b
      rw [hany]
      exact hfront.1.closed

theorem Draft.FirmEnd.congr {closed closed' : Bool} {b : Draft} (h : FirmEnd closed b)
    (htext : text closed b = text closed' b) : FirmEnd closed' b := by
  refine ⟨h.1, fun hleaf => ?_⟩
  obtain ⟨d, kids⟩ := b
  have hleaf' : d.isLeaf = true := hleaf
  rw [text, text, if_pos hleaf', if_pos hleaf'] at htext
  have hline : EndsInLine (d.leafText closed) := h.2 hleaf
  rwa [htext] at hline

namespace Tree

variable {m : Type → Type} [Monad m] (t : Tree) (memory : Memory m)

theorem endsOpen_of_isLeaf_false {id : NodeId} {n : Node} (hleaf : n.detail.isLeaf = false) :
    MapPlan.endsOpen t id n = false := by
  unfold Detail.isLeaf at hleaf
  rw [MapPlan.endsOpen, Node.kind, Node.content, Node.isContainer]
  cases hc : n.detail.content with
  | root => rfl
  | rule selector => rfl
  | atRule name params =>
    rw [hc] at hleaf
    dsimp only at hleaf
    rw [hleaf]
    rfl
  | declaration prop value important => rw [hc] at hleaf; cases hleaf
  | comment text => rw [hc] at hleaf; cases hleaf

/-- Whether a leaf ends without a character of its own is up to its parent. -/
theorem endsOpen_of_isLeaf {id : NodeId} {n : Node} (hleaf : n.detail.isLeaf = true)
    (hcomment : n.detail.kind ≠ .comment) :
    MapPlan.endsOpen t id n = (n.parent.bind t.get?).any fun parent =>
      parent.children.getLast? == some id && parent.raws.semicolon != some true := by
  have hkind : (n.kind == .declaration || (n.kind == .atRule && !n.isContainer)) = true := by
    unfold Detail.isLeaf at hleaf
    rw [Node.kind, Node.content, Node.isContainer]
    cases hc : n.detail.content with
    | root => rw [hc] at hleaf; cases hleaf
    | rule selector => rw [hc] at hleaf; cases hleaf
    | atRule name params =>
      rw [hc] at hleaf
      dsimp only at hleaf
      rw [hleaf]
      rfl
    | declaration prop value important => rfl
    | comment text => exact absurd (by rw [Detail.kind, hc]; rfl) hcomment
  rw [MapPlan.endsOpen, hkind, Bool.true_and]
  cases n.parent.bind t.get? <;> rfl

/-- A last child that is not closed ends without a character of its own. -/
theorem endsOpen_of_last {parent id : NodeId} {p n : Node} {before : List NodeId}
    (hp : t.get? parent = some p) (hchildren : p.children = before ++ [id])
    (hsemicolon : p.raws.semicolon.getD false = false) (hparent : n.parent = some parent)
    (hleaf : n.detail.isLeaf = true) (hcomment : n.detail.kind ≠ .comment) :
    MapPlan.endsOpen t id n = true := by
  have hlast : p.raws.semicolon ≠ some true := by
    intro hsome
    rw [hsome] at hsemicolon
    cases hsemicolon
  rw [t.endsOpen_of_isLeaf hleaf hcomment, hparent, Option.bind_some, hp, Option.any_some,
    hchildren, List.getLast?_append, List.getLast?_singleton]
  simp [hlast]

variable [LawfulMonad m]

mutual

/-- The chunks of a node with firm ends are firm. -/
theorem printNode_firm {parent : Option NodeId} {id : NodeId} :
    ∀ (b : Draft) (fuel : Nat) (closed : Bool), b.size ≤ fuel → t.Holds parent id b →
      (b.label.kind = .root → parent = none) → b.Every Detail.Captured → b.Every Detail.Firm →
      (b.label.kind ≠ .root → ∀ n, t.get? id = some n → MapPlan.endsOpen t id n = false →
        Draft.FirmEnd closed b) →
      ∃ chunks, t.printNode memory closed (t.shapeWithin fuel id) = pure chunks ∧
        ∀ c ∈ chunks, c.Firm t
  | .node d kids, 0, closed, hsize, hold, hroot, hcap, hfirm, hend => by
    rw [Branch.size] at hsize
    omega
  | .node d kids, fuel + 1, closed, hsize, hold, hroot, hcap, hfirm, hend => by
    obtain ⟨n, hn, rfl, hparent, hkids⟩ := hold
    have hchildren : t.children id = n.children := by rw [children, hn]; rfl
    rw [Branch.size] at hsize
    rw [shapeWithin, hchildren]
    obtain ⟨body, hbody, hbodyFirm⟩ := printKids_firm [] kids fuel (by omega) hn rfl
      hkids hcap.top.before hcap.top.nested hcap.rest hfirm.rest hfirm.top.kids
    cases hleaf : n.detail.isLeaf with
    | true =>
      have hkind : n.detail.kind ≠ .root := by
        rcases Outline.kind_of_isLeaf hleaf with h | h | h <;> rw [h] <;> decide
      rw [printNode_leaf t memory closed hn hleaf hcap.top]
      refine ⟨_, rfl, fun c hc => ?_⟩
      rw [List.mem_singleton.mp hc]
      refine Chunk.firm_of hn (Detail.leafText_ne_empty hleaf hfirm.top.text closed) fun hopen => ?_
      exact (hend hkind n hn hopen).imp_right fun hline => hline hleaf
    | false =>
      have hnil : n.children.isEmpty = kids.isEmpty := by
        have := hkids.length_eq
        cases hc : n.children <;> cases hk : kids <;> simp_all
      obtain ⟨head, tail, hchunks, -, -, hstart, hnone, htail⟩ := printNode_block t memory closed hn
        hleaf (fun h => hparent.trans (hroot h)) hcap.top hnil hbody
      have hended : n.detail.kind ≠ .root → n.detail.Ended := fun hkind =>
        (hend hkind n hn (t.endsOpen_of_isLeaf_false hleaf)).1
      refine ⟨_, hchunks, fun c hc => ?_⟩
      rw [List.mem_append, List.mem_append] at hc
      -- What opens the block, its body, and what closes it.
      rcases hc with (hc | hc) | hc
      · by_cases hkind : n.detail.kind = .root
        · rw [hnone hkind] at hc
          cases hc
        · rw [hstart hkind] at hc
          rw [List.mem_singleton.mp hc]
          exact Chunk.firm_start (Detail.heading_ne_empty hleaf hkind)
      · exact hbodyFirm c hc
      · rcases htail c hc with hpart | ⟨hkind, rfl⟩ | ⟨hkind, hne, rfl⟩
        · exact Chunk.firm_of_part_eq_none hpart
        · exact Chunk.firm_of hn (by decide) fun _ => ⟨hended hkind, by decide⟩
        · exact Chunk.firm_of hn hne fun _ =>
            ⟨hended (by rw [hkind]; decide), hfirm.top.own hkind⟩

/-- The chunks of children with firm ends are firm, `before` being those that are printed
already. -/
theorem printKids_firm {id : NodeId} {p : Node} {ids : List NodeId} (before : List NodeId) :
    ∀ (bs : List Draft) (fuel : Nat), Branch.sizeAll bs ≤ fuel → t.get? id = some p →
      p.children = before ++ ids → t.HoldsAll id ids bs →
      (∀ b ∈ bs, b.label.raws.before.isSome = true) → (∀ b ∈ bs, b.label.kind ≠ .root) →
      (∀ b ∈ bs, b.Every Detail.Captured) → (∀ b ∈ bs, b.Every Detail.Firm) →
      (Draft.FirmAll (p.raws.semicolon.getD false) bs ∨
        Draft.OpenLast (p.raws.semicolon.getD false) bs) →
      ∃ chunks, t.printKids memory (p.raws.semicolon.getD false) (t.lastClosed (before ++ ids))
          before.length (ids.map (t.shapeWithin fuel)) = pure chunks ∧ ∀ c ∈ chunks, c.Firm t
  | [], fuel, hsize, hp, hlist, hold, hbefores, hkinds, hcap, hfirm, hends => by
    rw [HoldsAll] at hold
    rw [hold, List.map_nil, printKids]
    exact ⟨[], rfl, fun c hc => absurd hc List.not_mem_nil⟩
  | b :: bs, fuel, hsize, hp, hlist, hold, hbefores, hkinds, hcap, hfirm, hends => by
    rw [HoldsAll] at hold
    obtain ⟨c, cs, rfl, hb, hbs⟩ := hold
    rw [Branch.sizeAll] at hsize
    obtain ⟨n, hn, hd, hparent, -⟩ := hb.get?_eq
    have hbefore := hbefores b List.mem_cons_self
    have hlabel : (t.shapeWithin fuel c).label = c := by cases fuel <;> rfl
    obtain ⟨hfirst, hrestEnds⟩ := Draft.firm_cons hends
    have hclosed := t.text_lastClosed (p.raws.semicolon.getD false) before hb hbs
    obtain ⟨head, hhead, hheadFirm⟩ := printNode_firm b fuel
      (t.lastClosed (before ++ c :: cs) != before.length || p.raws.semicolon.getD false) (by omega)
      hb (fun h => absurd h (hkinds b List.mem_cons_self)) (hcap b List.mem_cons_self)
      (hfirm b List.mem_cons_self) fun _ n' hn' hopen => by
        rcases hfirst with hfirst | ⟨rfl, hsemicolon, hleaf, hcomment⟩
        · exact hfirst.congr hclosed.symm
        · -- The last child, which is not closed: its end is not mapped.
          rw [show cs = [] from hbs] at hlist
          rw [hn] at hn'
          cases hn'
          rw [← hd] at hleaf
          rw [Draft.isComment, ← hd] at hcomment
          rw [t.endsOpen_of_last hp hlist hsemicolon hparent hleaf
            (by simpa using hcomment)] at hopen
          cases hopen
    obtain ⟨rest, hrest, hrestFirm⟩ := printKids_firm (before ++ [c]) bs fuel (by omega)
      hp (by rw [hlist, List.append_assoc, List.singleton_append]) hbs
      (fun b hb => hbefores b (List.mem_cons_of_mem _ hb))
      (fun b hb => hkinds b (List.mem_cons_of_mem _ hb))
      (fun b hb => hcap b (List.mem_cons_of_mem _ hb))
      (fun b hb => hfirm b (List.mem_cons_of_mem _ hb)) hrestEnds
    rw [List.append_assoc, List.singleton_append, List.length_append,
      List.length_singleton] at hrest
    rw [List.map_cons, printKids, hlabel, hn]
    dsimp only
    rw [beforeText_of_isSome t memory (by rw [Node.raws, hd]; exact hbefore), pure_bind, hhead,
      pure_bind, hrest, pure_bind]
    refine ⟨_, rfl, fun c hc => ?_⟩
    rw [List.mem_append, List.mem_append] at hc
    rcases hc with (hc | hc) | hc
    · exact Chunk.firm_of_part_eq_none (Chunk.part_of_mem_formatting hc)
    · exact hheadFirm c hc
    · exact hrestFirm c hc

end

/-- The chunks of a tree that holds a draft with firm ends are firm. -/
theorem chunks_firm {t : Tree} {b : Draft} (hold : t.Holds none rootId b)
    (hsize : b.size ≤ t.nodes.size) (hroot : b.label.kind = .root)
    (hcap : b.Every Detail.Captured) (hfirm : b.Every Detail.Firm) :
    ∀ c ∈ t.chunks rootId, c.Firm t := by
  obtain ⟨chunks, hchunks, hall⟩ := printNode_firm t Memory.notes b t.nodes.size false hsize hold
    (fun _ => rfl) hcap hfirm (fun hne => absurd hroot hne)
  rw [Tree.chunks, chunksWith, shape, hchunks]
  exact hall

end Tree

/-! ### Places in order -/

namespace Spot

/-- One place stands in front of another one. -/
def Before (a b : Spot) : Prop :=
  a.line < b.line ∨ a.line = b.line ∧ a.column < b.column

theorem units_pos {text : String} (h : text ≠ "") : 0 < units text.toList := by
  cases hcs : text.toList with
  | nil => exact absurd (String.toList_inj.mp hcs) h
  | cons c cs =>
    have := charUnits_pos c
    rw [units_cons]
    omega

/-- The place behind a text that goes on: lines are added, or columns. -/
theorem behind_append (front text : String) :
    (∃ n, behind (front ++ text) =
        ⟨(behind front).line + (n + 1), units (lastPart text.toList)⟩) ∨
      '\n' ∉ text.toList ∧ behind (front ++ text) =
        ⟨(behind front).line, (behind front).column + units text.toList⟩ := by
  rw [behind, behind, String.toList_append, List.count_append]
  by_cases h : '\n' ∈ text.toList
  · obtain ⟨n, hn⟩ := Nat.exists_eq_add_of_lt (List.count_pos_iff.mpr h)
    refine Or.inl ⟨n, ?_⟩
    rw [lastPart_append_of_mem _ h, hn, Nat.zero_add]
  · refine Or.inr ⟨h, ?_⟩
    rw [lastPart_append_of_not_mem _ h, units_append, List.count_eq_zero.mpr h, Nat.add_zero]

theorem before_behind (front : String) {text : String} (h : text ≠ "") :
    (behind front).Before (behind (front ++ text)) := by
  have hpos := units_pos h
  rcases behind_append front text with ⟨n, heq⟩ | ⟨-, heq⟩
  · rw [heq]
    exact Or.inl (Nat.lt_add_of_pos_right (Nat.succ_pos n))
  · rw [heq]
    exact Or.inr ⟨rfl, Nat.lt_add_of_pos_right hpos⟩

theorem not_behind_before (front text : String) :
    ¬ (behind (front ++ text)).Before (behind front) := by
  rcases behind_append front text with ⟨n, heq⟩ | ⟨-, heq⟩ <;> rw [heq, Before] <;>
    dsimp only <;> omega

theorem units_lastPart_pos {text : String} (h : text ≠ "") (hline : EndsInLine text) :
    0 < units (lastPart text.toList) := by
  obtain ⟨cs, c, hcs⟩ := (List.eq_nil_or_concat' text.toList).resolve_left
    fun hnil => h (String.toList_inj.mp hnil)
  rw [EndsInLine, hcs, List.getLast?_append, List.getLast?_singleton, Option.some_or] at hline
  have hc : '\n' ∉ [c] := fun hmem => hline (congrArg some (List.mem_singleton.mp hmem).symm)
  have hpos := charUnits_pos c
  rw [hcs, lastPart_append_of_not_mem _ hc, units_append, units_cons]
  omega

/-- The last character of a text stands in front of its end, and not in front of its start. -/
theorem back_behind (front : String) {text : String} (h : text ≠ "") (hline : EndsInLine text) :
    ¬ (behind (front ++ text)).back.Before (behind front) ∧
      (behind (front ++ text)).back.Before (behind (front ++ text)) := by
  have hpos := units_pos h
  rcases behind_append front text with ⟨n, heq⟩ | ⟨-, heq⟩
  · have hlast : 0 < units (lastPart text.toList) := units_lastPart_pos h hline
    rw [heq, Before, Before, back]
    dsimp only
    omega
  · rw [heq, Before, Before, back]
    dsimp only
    omega

end Spot

/-- The first mapping does not stand behind the second one. -/
def Mapping.InOrder (a b : Mapping) : Prop :=
  ¬ b.spot.Before a.spot

instance : DecidableRel Mapping.InOrder := fun a b =>
  inferInstanceAs (Decidable (¬ (b.spot.line < a.spot.line ∨
    b.spot.line = a.spot.line ∧ b.spot.column < a.spot.column)))

/-- What was read was read from inputs that are known. -/
def Tree.KnowsInputs (t : Tree) : Prop :=
  ∀ id n s, t.get? id = some n → n.source = some s → t.inputs[s.input]?.isSome = true

namespace MapPlan

open Mapping

variable (p : MapPlan) {t : Tree}

/-- The mappings of a firm chunk stand between its two ends, in order. -/
theorem chunkMappings_between (hinputs : t.KnowsInputs) {c : Chunk} (hc : c.Firm t)
    (front : String) :
    (p.chunkMappings t (Spot.behind front) (Spot.behind (front ++ c.text)) c).Pairwise InOrder ∧
      ∀ m ∈ p.chunkMappings t (Spot.behind front) (Spot.behind (front ++ c.text)) c,
        ¬ m.spot.Before (Spot.behind front) ∧ m.spot.Before (Spot.behind (front ++ c.text)) := by
  rw [chunkMappings]
  rcases hpart : c.part with _ | ⟨id, phase⟩
  · exact ⟨List.Pairwise.nil, fun m hm => absurd hm List.not_mem_nil⟩
  · dsimp only
    cases hn : t.get? id with
    | none => exact ⟨List.Pairwise.nil, fun m hm => absurd hm List.not_mem_nil⟩
    | some n =>
      dsimp only
      have hne := hc.text (by rw [hpart]; exact Option.some_ne_none _)
      have hstart := Spot.before_behind front hne
      have hself : ¬ (Spot.behind front).Before (Spot.behind front) := by
        rw [Spot.Before]
        omega
      by_cases hstop : (decide (phase = .start) || endsOpen t id n) = true
      · -- Only the start of the chunk is mapped.
        rw [if_pos hstop, List.append_nil]
        split_ifs
        · exact ⟨List.Pairwise.nil, fun m hm => absurd hm List.not_mem_nil⟩
        · refine ⟨List.pairwise_singleton _ _, fun m hm => ?_⟩
          rw [List.mem_singleton.mp hm]
          exact ⟨hself, hstart⟩
      · rw [if_neg hstop]
        rw [Bool.or_eq_true, decide_eq_true_iff, not_or, Bool.not_eq_true] at hstop
        obtain ⟨⟨input, start, stop, hsource⟩, hline⟩ := hc.stop id phase n hpart hstop.1 hn hstop.2
        obtain ⟨i, hi⟩ := Option.isSome_iff_exists.mp (hinputs id n _ hn hsource)
        have horigins : (p.origins t n).2 = some (p.origin i stop) := by
          rw [origins_of_source hsource hi]
          rfl
        -- The end is mapped one column back, which is on the same line.
        obtain ⟨hback, hfront⟩ := Spot.back_behind front hne hline
        rw [horigins]
        dsimp only
        split_ifs
        · refine ⟨List.pairwise_singleton _ _, fun m hm => ?_⟩
          rw [List.nil_append] at hm
          rw [List.mem_singleton.mp hm]
          exact ⟨hback, hfront⟩
        · refine ⟨List.pairwise_pair.mpr hback, fun m hm => ?_⟩
          rcases List.mem_cons.mp hm with rfl | hm
          · exact ⟨hself, hstart⟩
          · rw [List.mem_singleton.mp hm]
            exact ⟨hback, hfront⟩

/-- The mappings of firm chunks stand between the two ends of what is printed, in order. -/
theorem mappingsFrom_between (hinputs : t.KnowsInputs) {chunks : List Chunk}
    (hchunks : ∀ c ∈ chunks, c.Firm t) (front : String) :
    (p.mappingsFrom t (Spot.behind front) chunks).Pairwise InOrder ∧
      ∀ m ∈ p.mappingsFrom t (Spot.behind front) chunks, ¬ m.spot.Before (Spot.behind front) ∧
        m.spot.Before (Spot.behind (front ++ Chunk.textOf chunks)) := by
  -- Chunk by chunk: the mappings of one lie in front of its end, and those of the rest behind it.
  induction chunks generalizing front with
  | nil => exact ⟨List.Pairwise.nil, fun m hm => absurd hm List.not_mem_nil⟩
  | cons c cs ih =>
    obtain ⟨hc, hcs⟩ := List.forall_mem_cons.mp hchunks
    obtain ⟨hfirst, hfirsts⟩ := p.chunkMappings_between hinputs hc front
    obtain ⟨hrest, hrests⟩ := ih hcs (front ++ c.text)
    have hstart := Spot.not_behind_before front c.text
    have hstop := Spot.not_behind_before (front ++ c.text) (Chunk.textOf cs)
    rw [mappingsFrom, Spot.advance_behind, Chunk.textOf_cons, ← String.append_assoc]
    unfold InOrder Spot.Before at *
    refine ⟨List.pairwise_append.mpr ⟨hfirst, hrest, fun a ha b hb => ?_⟩, fun m hm => ?_⟩
    · have := hfirsts a ha
      have := hrests b hb
      omega
    · rcases List.mem_append.mp hm with hm | hm
      · have := hfirsts m hm
        omega
      · have := hrests m hm
        omega

theorem mappingsFrom_append (front : String) (as bs : List Chunk) :
    p.mappingsFrom t (Spot.behind front) (as ++ bs) = p.mappingsFrom t (Spot.behind front) as ++
      p.mappingsFrom t (Spot.behind (front ++ Chunk.textOf as)) bs := by
  induction as generalizing front with
  | nil => rw [Chunk.textOf_nil, String.append_empty]; rfl
  | cons a as ih =>
    rw [List.cons_append, mappingsFrom, mappingsFrom, Spot.advance_behind, ih, Chunk.textOf_cons,
      String.append_assoc, List.append_assoc]

end MapPlan

namespace Mapping

/-- Of mappings at one place, the first one stays. -/
theorem find?_firstsAfter {place : Nat × Nat} {kept : Mapping} (h : kept.place ≠ place)
    (ms : List Mapping) :
    (firsts.firstsAfter kept ms).find? (·.place == place) = ms.find? (·.place == place) := by
  induction ms generalizing kept with
  | nil => rfl
  | cons m ms ih =>
    rw [firsts.firstsAfter, List.find?_cons]
    split_ifs with hsame
    · rw [ih h, hsame, beq_false_of_ne h]
    · rw [List.find?_cons]
      cases hm : m.place == place with
      | true => rfl
      | false => exact ih (by simpa using hm)

theorem find?_firsts (place : Nat × Nat) (ms : List Mapping) :
    (firsts ms).find? (·.place == place) = ms.find? (·.place == place) := by
  cases ms with
  | nil => rfl
  | cons m ms =>
    rw [firsts, List.find?_cons, List.find?_cons]
    cases hm : m.place == place with
    | true => rfl
    | false => exact find?_firstsAfter (by simpa using hm) ms

theorem placeLe_iff (a b : Nat × Nat) :
    placeLe a b = true ↔ a.1 < b.1 ∨ a.1 = b.1 ∧ a.2 ≤ b.2 := by
  simp [placeLe]

/-- Mappings in order are only thinned out. -/
theorem settled_of_inOrder {ms : List Mapping} (h : ms.Pairwise InOrder) :
    settled ms = firsts ms := by
  rw [settled, List.mergeSort_of_pairwise]
  refine h.imp fun {a b} hab => ?_
  unfold InOrder Spot.Before at hab
  rw [placeLe_iff]
  dsimp only [place]
  omega

end Mapping

/-- The mapping where a node starts is the first one at its place. -/
theorem MapPlan.find?_settled (p : MapPlan) {t : Tree} (hinputs : t.KnowsInputs)
    (hfirm : ∀ c ∈ t.chunks Tree.rootId, c.Firm t) {x : NodeId} {n : Node} (hn : t.get? x = some n)
    {place : Draft.Place} (hstarts : Chunk.StartsAt "" (t.chunks Tree.rootId) x place) :
    (Mapping.settled (p.generateString t).2).find?
        (·.place == ((Spot.behind place.front).line, (Spot.behind place.front).column)) =
      some ⟨Spot.behind place.front, (p.origins t n).1.getD MapOrigin.missing⟩ := by
  obtain ⟨before, after, phase, hchunks, hphase, hfront⟩ := hstarts
  rw [String.empty_append] at hfront
  have hsorted := p.mappingsFrom_between hinputs hfirm ""
  rw [generateString, mappings, show ({} : Spot) = Spot.behind "" from rfl,
    Mapping.settled_of_inOrder hsorted.1, Mapping.find?_firsts, hchunks, mappingsFrom_append,
    List.find?_append, String.empty_append, ← hfront]
  rw [hchunks] at hfirm
  have hbefore := (p.mappingsFrom_between hinputs
    (fun c hc => hfirm c (List.mem_append_left _ hc)) "").2
  rw [String.empty_append, ← hfront] at hbefore
  -- Everything that was printed before lies strictly in front of this place.
  have hnone : (p.mappingsFrom t (Spot.behind "") before).find? (·.place ==
      ((Spot.behind place.front).line, (Spot.behind place.front).column)) = none := by
    refine List.find?_eq_none.mpr fun m hm => ?_
    have := (hbefore m hm).2
    unfold Spot.Before at this
    rw [beq_iff_eq, Mapping.place, Prod.mk.injEq]
    omega
  rw [hnone, Option.none_or, mappingsFrom, chunkMappings]
  dsimp only [Chunk.of]
  rw [hn]
  dsimp only
  rw [if_neg hphase, List.cons_append, List.cons_append, List.find?_cons_of_pos]
  exact beq_self_eq_true _

end Stylesheet
