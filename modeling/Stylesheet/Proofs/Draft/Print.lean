import Stylesheet.Proofs.Draft.Places
import Stylesheet.Proofs.Tree.Layout

/-!
# Printing a tree with captured formatting

A tree that holds a draft whose formatting is captured prints as the text of the draft, whatever
the printer remembers: no slot has to be inferred. Every node but the root starts a chunk at its
place in the draft (`Tree.Prints`).

The printer counts the places of children and compares them with the place of the last one that is
no comment (`Tree.lastClosed`); the text of a draft asks whether such a child is still to come. That
the two agree is `Tree.lastClosed_ne_iff`.
-/

namespace Stylesheet

namespace Chunk

@[simp] theorem textOf_nil : textOf [] = "" := rfl

@[simp] theorem textOf_cons (c : Chunk) (cs : List Chunk) :
    textOf (c :: cs) = c.text ++ textOf cs := by
  simp [textOf]

@[simp] theorem textOf_append (as bs : List Chunk) :
    textOf (as ++ bs) = textOf as ++ textOf bs := by
  simp [textOf]

@[simp] theorem text_of (id : NodeId) (phase : Phase) (text : String) :
    (of id phase text).text = text := rfl

@[simp] theorem textOf_formatting (text : String) : textOf (formatting text) = text := by
  unfold formatting
  split_ifs with h
  · rw [beq_iff_eq] at h
    rw [h, textOf_nil]
  · simp

/-- Chunks that are printed behind a text have one that a node starts with, at a place. -/
def StartsAt (front : String) (chunks : List Chunk) (id : NodeId) (p : Draft.Place) : Prop :=
  ∃ before after phase, chunks = before ++ of id phase p.own :: after ∧ phase ≠ .stop ∧
    p.front = front ++ textOf before

/-- A chunk behind the children of a node: formatting, its closing brace, or semicolons that belong
to a rule. -/
def Closes (id : NodeId) (d : Detail) (c : Chunk) : Prop :=
  c.part = none ∨ d.kind ≠ .root ∧ c = of id .stop "\x7d" ∨
    d.kind = .rule ∧ d.raws.ownSemicolon.getD "" ≠ "" ∧
      c = of id .stop (d.raws.ownSemicolon.getD "")

theorem part_of_mem_formatting {text : String} {c : Chunk} (h : c ∈ formatting text) :
    c.part = none := by
  unfold formatting at h
  split_ifs at h
  · cases h
  · rw [List.mem_singleton.mp h]

variable {front : String} {as bs : List Chunk} {id : NodeId} {p : Draft.Place}

theorem StartsAt.append_right (h : StartsAt front as id p) (bs : List Chunk) :
    StartsAt front (as ++ bs) id p := by
  obtain ⟨before, after, phase, rfl, hphase, hfront⟩ := h
  exact ⟨before, after ++ bs, phase, by simp, hphase, hfront⟩

theorem StartsAt.append_left (h : StartsAt (front ++ textOf as) bs id p) :
    StartsAt front (as ++ bs) id p := by
  obtain ⟨before, after, phase, rfl, hphase, hfront⟩ := h
  refine ⟨as ++ before, after, phase, by simp, hphase, ?_⟩
  rw [hfront, textOf_append, String.append_assoc]

end Chunk

namespace Tree

/-- Every node of `ids` but the root starts a chunk at one of the places. -/
def Prints (t : Tree) (front : String) (chunks : List Chunk) (ids : List NodeId)
    (ps : List Draft.Place) : Prop :=
  ∀ x ∈ ids, t.kind? x ≠ some .root → ∃ p ∈ ps, (t.get? x).map Node.detail = some p.detail ∧
    Chunk.StartsAt front chunks x p

variable {m : Type → Type} [Monad m] (t : Tree) (memory : Memory m)

/-! ### Captured slots -/

theorem slot_of_isSome {captured : Option String} (h : captured.isSome = true) (id : NodeId)
    (trait : Trait) : t.slot memory id captured trait = pure (captured.getD "") := by
  obtain ⟨text, rfl⟩ := Option.isSome_iff_exists.mp h
  rfl

theorem beforeText_of_isSome {n : Node} (h : n.raws.before.isSome = true) (id : NodeId) :
    t.beforeText memory id n = pure n.detail.before := by
  obtain ⟨text, htext⟩ := Option.isSome_iff_exists.mp h
  rw [beforeText, htext]
  show pure text = pure (n.raws.before.getD "")
  rw [htext]
  rfl

theorem afterText_of_isSome {n : Node} (h : n.raws.after.isSome = true) (id : NodeId) :
    t.afterText memory id n = pure (n.raws.after.getD "") := by
  obtain ⟨text, htext⟩ := Option.isSome_iff_exists.mp h
  rw [afterText, htext]
  split_ifs <;> rfl

theorem closesLast_of_isSome {n : Node} (h : n.raws.semicolon.isSome = true) (id : NodeId) :
    t.closesLast memory id n = pure (n.raws.semicolon.getD false) := by
  obtain ⟨closed, hclosed⟩ := Option.isSome_iff_exists.mp h
  rw [closesLast, hclosed]
  rfl

/-! ### The last child that is no comment -/

/-- A child that is no comment is the last such child when only comments follow it. -/
theorem lastClosed_ne_iff (before after : List NodeId) {c : NodeId}
    (hc : (t.kind? c == some .comment) = false) :
    (t.lastClosed (before ++ c :: after) != before.length) =
      after.any (fun id => !(t.kind? id == some .comment)) := by
  have hrev : (before ++ c :: after).reverse = after.reverse ++ c :: before.reverse := by simp
  have hlen : (before ++ c :: after).length - 1 = before.length + after.length := by
    rw [List.length_append, List.length_cons]
    omega
  unfold lastClosed
  rw [hrev, hlen]
  by_cases hall : ∀ id ∈ after, (t.kind? id == some .comment) = true
  · -- Only comments follow, so that `c` is what stops them.
    rw [List.takeWhile_append_of_pos (fun id hid => hall id (List.mem_reverse.mp hid)),
      List.takeWhile_cons_of_neg (by rw [hc]; exact Bool.false_ne_true), List.append_nil,
      List.length_reverse]
    simpa using hall
  · -- Some child behind `c` is no comment, so fewer comments than these children are at the end.
    have hlt : ((after.reverse ++ c :: before.reverse).takeWhile
        fun id => t.kind? id == some .comment).length < after.length := by
      obtain ⟨id, hid, hne⟩ : ∃ id ∈ after, ¬(t.kind? id == some .comment) = true := by
        simpa using hall
      obtain ⟨front, rear, rfl⟩ := List.append_of_mem hid
      -- The comments at the end are all behind `id`.
      have hsplit : (front ++ id :: rear).reverse ++ c :: before.reverse =
          rear.reverse ++ id :: (front.reverse ++ c :: before.reverse) := by simp
      rw [hsplit]
      have hle : (List.takeWhile (fun id => t.kind? id == some .comment)
          (rear.reverse ++ id :: (front.reverse ++ c :: before.reverse))).length ≤ rear.length := by
        rw [List.takeWhile_append]
        split_ifs with hr
        · refine Nat.le_of_eq ?_
          rw [List.takeWhile_cons, if_neg hne, List.append_nil, List.length_reverse]
        · have := (List.takeWhile_sublist (fun id => t.kind? id == some .comment)
            (l := rear.reverse)).length_le
          rwa [List.length_reverse] at this
      rw [List.length_append, List.length_cons]
      omega
    have hany : after.any (fun id => !(t.kind? id == some .comment)) = true := by
      simpa using hall
    rw [hany, bne_iff_ne]
    omega

theorem any_not_comment {id : NodeId} {ids : List NodeId} :
    ∀ {bs : List Draft}, t.HoldsAll id ids bs →
      ids.any (fun c => !(t.kind? c == some .comment)) = bs.any (fun b => !Draft.isComment b)
  | [], h => by
    rw [HoldsAll] at h
    rw [h]
    rfl
  | b :: bs, h => by
    rw [HoldsAll] at h
    obtain ⟨c, cs, rfl, hb, hbs⟩ := h
    obtain ⟨n, hn, hd, -, -⟩ := hb.get?_eq
    rw [List.any_cons, List.any_cons, any_not_comment hbs, Draft.isComment, kind?, hn, ← hd]
    rfl

/-- The two ways to say that a child which is no comment is still to come give a child the same
text. -/
theorem text_lastClosed (closesLast : Bool) (before : List NodeId) {parent : Option NodeId}
    {id c : NodeId} {cs : List NodeId} {b : Draft} {bs : List Draft} (hb : t.Holds parent c b)
    (hbs : t.HoldsAll id cs bs) :
    Draft.text (t.lastClosed (before ++ c :: cs) != before.length || closesLast) b =
      Draft.text (bs.any (fun b => !Draft.isComment b) || closesLast) b := by
  cases hcomment : Draft.isComment b with
  | true => exact Draft.text_eq_of_isComment hcomment _ _
  | false =>
    obtain ⟨n, hn, hd, -, -⟩ := hb.get?_eq
    have hc : (t.kind? c == some .comment) = false := by
      rw [kind?, hn]
      rw [Draft.isComment, ← hd] at hcomment
      exact hcomment
    rw [t.lastClosed_ne_iff before cs hc, t.any_not_comment hbs]

theorem closesLast_of_root {id : NodeId} {n : Node} (hparent : n.parent = none) :
    t.closesLast memory id n = pure (n.raws.semicolon.getD false) := by
  rw [closesLast]
  cases hs : n.raws.semicolon with
  | some closed => rfl
  | none => rw [hparent]; rfl

/-! ### The printer -/

/-- Whether the last child in a block is closed. -/
def closesKids (id : NodeId) (n : Node) : m Bool :=
  if n.children.isEmpty then pure false else t.closesLast memory id n

/-- What rules and at-rules with a block print. -/
def printBlock (id : NodeId) (n : Node) (kids : List (Branch NodeId)) (head : String) :
    m (List Chunk) := do
  let between ← t.slot memory id n.raws.between .beforeOpen
  let closesLast ← t.closesKids memory id n
  let body ← t.printKids memory closesLast (t.lastClosed n.children) 0 kids
  let after ← t.afterText memory id n
  return Chunk.of id .start (head ++ between ++ "\x7b") :: body ++ Chunk.formatting after ++
    [Chunk.of id .stop "\x7d"]

/-- What is printed for a node that the tree has. -/
theorem printNode_eq {id : NodeId} {n : Node} (hn : t.get? id = some n) (closed : Bool)
    (kids : List (Branch NodeId)) :
    t.printNode memory closed (.node id kids) =
      let mark := if closed then ";" else ""
      match n.content with
      | .root => do
        let closesLast ← t.closesLast memory id n
        let body ← t.printKids memory closesLast (t.lastClosed n.children) 0 kids
        return body ++ Chunk.formatting (n.raws.after.getD "")
      | .rule selector => do
        let chunks ← t.printBlock memory id n kids (RawValue.apply n.raws.selector selector)
        let own := n.raws.ownSemicolon.getD ""
        return chunks ++ if own == "" then [] else [Chunk.of id .stop own]
      | .atRule name params =>
        let head := atRuleHead n.raws name params
        if n.isContainer then t.printBlock memory id n kids head
        else pure [Chunk.of id .whole (head ++ n.raws.between.getD "" ++ mark)]
      | .declaration prop value important => do
        let between ← t.slot memory id n.raws.between .colon
        return [Chunk.of id .whole (declarationText n.raws between prop value important ++ mark)]
      | .comment text => do
        let left ← t.slot memory id n.raws.left .commentLeft
        let right ← t.slot memory id n.raws.right .commentRight
        return [Chunk.of id .whole ("/*" ++ left ++ text ++ right ++ "*/")] := by
  rw [printNode, hn]
  dsimp only
  unfold printBlock closesKids
  cases n.children.isEmpty <;> rfl

/-- A block with children says whether the last one is closed. -/
theorem closesKids_of_captured {id : NodeId} {n : Node}
    (h : n.raws.semicolon.isSome = !n.children.isEmpty) :
    t.closesKids memory id n = pure (n.raws.semicolon.getD false) := by
  rw [closesKids]
  cases hempty : n.children.isEmpty with
  | true =>
    rw [hempty] at h
    rw [Option.isNone_iff_eq_none.mp (Option.isSome_eq_false_iff.mp h)]
    rfl
  | false =>
    rw [hempty] at h
    exact closesLast_of_isSome t memory h id

variable [LawfulMonad m]

/-- A leaf is one chunk. -/
theorem printNode_leaf {id : NodeId} {n : Node} {shapes : List (Branch NodeId)}
    {kids : List Draft} (closed : Bool) (hn : t.get? id = some n) (hleaf : n.detail.isLeaf = true)
    (hcap : n.detail.Captured kids) :
    t.printNode memory closed (.node id shapes) =
      pure [Chunk.of id .whole (n.detail.leafText closed)] := by
  have hkind : n.detail.kind = n.detail.content.kind := rfl
  unfold Detail.isLeaf at hleaf
  rw [printNode, hn]
  unfold Detail.leafText
  dsimp only [Node.content]
  cases hc : n.detail.content with
  | root => rw [hc] at hleaf; cases hleaf
  | rule selector => rw [hc] at hleaf; cases hleaf
  | atRule name params =>
    rw [hc] at hleaf
    have hblock : n.isContainer = false := by
      rw [Node.isContainer]
      simpa using hleaf
    dsimp only
    rw [hblock]
    rfl
  -- Captured raws are given, so printing asks for no sample.
  | declaration prop value important =>
    have hbetween := hcap.between (by rw [hkind, hc]; exact Or.inr (Or.inl rfl))
    dsimp only [Node.raws]
    rw [slot_of_isSome t memory hbetween, pure_bind]
  | comment text =>
    obtain ⟨hleft, hright⟩ := hcap.marks (by rw [hkind, hc]; rfl)
    dsimp only [Node.raws]
    rw [slot_of_isSome t memory hleft, slot_of_isSome t memory hright, pure_bind, pure_bind]

/-- A node that is no leaf is its heading, its children and its ending. -/
theorem printNode_block {id : NodeId} {n : Node} {shapes : List (Branch NodeId)}
    {kids : List Draft} {body : List Chunk} (closed : Bool) (hn : t.get? id = some n)
    (hleaf : n.detail.isLeaf = false) (hroot : n.detail.kind = .root → n.parent = none)
    (hcap : n.detail.Captured kids) (hnil : n.children.isEmpty = kids.isEmpty)
    (hbody : t.printKids memory (n.raws.semicolon.getD false) (t.lastClosed n.children) 0 shapes =
      pure body) :
    ∃ head tail, t.printNode memory closed (.node id shapes) = pure (head ++ body ++ tail) ∧
      Chunk.textOf head = n.detail.heading ∧ Chunk.textOf tail = n.detail.ending ∧
      (n.detail.kind ≠ .root → head = [Chunk.of id .start n.detail.heading]) ∧
      (n.detail.kind = .root → head = []) ∧ ∀ c ∈ tail, Chunk.Closes id n.detail c := by
  have hkind : n.detail.kind = n.detail.content.kind := rfl
  have hsemicolon : n.raws.semicolon.isSome = !n.children.isEmpty := by
    rw [hnil]
    exact hcap.semicolon hleaf
  -- Rules and at-rules print their block alike; this is computed once.
  have hblock : ∀ head : String, n.raws.between.isSome = true → n.raws.after.isSome = true →
      t.printBlock memory id n shapes head =
        pure ([Chunk.of id .start (head ++ n.raws.between.getD "" ++ "\x7b")] ++ body ++
          (Chunk.formatting (n.raws.after.getD "") ++ [Chunk.of id .stop "\x7d"])) := by
    intro head hbetween hafter
    rw [printBlock, closesKids_of_captured t memory hsemicolon, slot_of_isSome t memory hbetween,
      afterText_of_isSome t memory hafter]
    simp only [pure_bind, hbody]
    simp
  have hclosing : ∀ c ∈ Chunk.formatting (n.raws.after.getD "") ++ [Chunk.of id .stop "\x7d"],
      c.part = none ∨ c = Chunk.of id .stop "\x7d" := by
    intro c hmem
    rcases List.mem_append.mp hmem with hmem | hmem
    · exact Or.inl (Chunk.part_of_mem_formatting hmem)
    · exact Or.inr (List.mem_singleton.mp hmem)
  rw [printNode_eq t memory hn]
  unfold Detail.heading Detail.ending
  unfold Detail.isLeaf at hleaf
  dsimp only [Node.content]
  cases hc : n.detail.content with
  | root =>
    have hparent := hroot (by rw [hkind, hc]; rfl)
    simp only [closesLast_of_root t memory hparent, hbody, pure_bind]
    exact ⟨[], _, rfl, rfl, by simp [Node.raws], fun h => absurd (by rw [hkind, hc]; rfl) h,
      fun _ => rfl, fun c hmem => Or.inl (Chunk.part_of_mem_formatting hmem)⟩
  | rule selector =>
    have hk : n.detail.kind = .rule := by rw [hkind, hc]; rfl
    dsimp only
    rw [hblock _ (hcap.between (Or.inl hk)) (hcap.after (Or.inl hk)), pure_bind]
    -- Only a rule can be followed by a semicolon of its own.
    have hown : Chunk.textOf (if n.raws.ownSemicolon.getD "" == "" then []
        else [Chunk.of id .stop (n.raws.ownSemicolon.getD "")]) = n.raws.ownSemicolon.getD "" := by
      split_ifs with h
      · rw [beq_iff_eq] at h
        rw [h, Chunk.textOf_nil]
      · simp
    refine ⟨_, _, by rw [List.append_assoc]; rfl, by simp, ?_, fun _ => rfl,
      fun h => absurd (hk.symm.trans h) (by decide), fun c hmem => ?_⟩
    · rw [Chunk.textOf_append, hown]
      simp [Node.raws, String.append_assoc]
    · rcases List.mem_append.mp hmem with hmem | hmem
      · exact (hclosing c hmem).imp_right fun h => Or.inl ⟨by rw [hk]; decide, h⟩
      · split_ifs at hmem with h
        · cases hmem
        · rw [beq_iff_eq] at h
          exact Or.inr (Or.inr ⟨hk, h, List.mem_singleton.mp hmem⟩)
  | atRule name params =>
    have hk : n.detail.kind = .atRule := by rw [hkind, hc]; rfl
    rw [hc] at hleaf
    have hcontainer : n.detail.block = true := by simpa using hleaf
    have hk' := And.intro hk hcontainer
    dsimp only
    rw [show n.isContainer = true from hcontainer, if_pos rfl,
      hblock _ (hcap.between (Or.inr (Or.inr hk'))) (hcap.after (Or.inr hk'))]
    exact ⟨_, _, rfl, by simp [Node.raws], by simp [Node.raws], fun _ => rfl,
      fun h => absurd (hk.symm.trans h) (by decide), fun c hmem =>
        (hclosing c hmem).imp_right fun h => Or.inl ⟨by rw [hk]; decide, h⟩⟩
  | declaration prop value important => rw [hc] at hleaf; cases hleaf
  | comment text => rw [hc] at hleaf; cases hleaf

mutual

/-- A node that holds a draft prints as its text, with every node at its place. -/
theorem printNode_text {parent : Option NodeId} {id : NodeId} :
    ∀ (b : Draft) (fuel : Nat) (closed : Bool), b.size ≤ fuel → t.Holds parent id b →
      (b.label.kind = .root → parent = none) → b.Every Detail.Captured →
      ∃ chunks, t.printNode memory closed (t.shapeWithin fuel id) = pure chunks ∧
        Chunk.textOf chunks = Draft.text closed b ∧
        ∀ front, t.Prints front chunks (t.shapeWithin fuel id).toList (Draft.places front closed b)
  | .node d kids, 0, closed, hsize, hold, hroot, hcap => by
    rw [Branch.size] at hsize
    omega
  | .node d kids, fuel + 1, closed, hsize, hold, hroot, hcap => by
    obtain ⟨n, hn, rfl, hparent, hkids⟩ := hold
    have hchildren : t.children id = n.children := by rw [children, hn]; rfl
    have hdetail : (t.get? id).map Node.detail = some n.detail := by rw [hn]; rfl
    rw [Branch.size] at hsize
    rw [shapeWithin, Draft.text, hchildren]
    -- The children first, for a block is printed around what they give.
    obtain ⟨body, hbody, htext, hplaces⟩ := printKids_text (n.raws.semicolon.getD false) [] kids
      fuel (by omega) hkids (fun b hb => ⟨hcap.top.before b hb, hcap.top.nested b hb⟩) hcap.rest
    cases hleaf : n.detail.isLeaf with
    | true =>
      rw [printNode_leaf t memory closed hn hleaf hcap.top]
      refine ⟨_, rfl, by simp, fun front x hx hne => ?_⟩
      obtain rfl := hcap.top.eq_nil_of_isLeaf hleaf
      rw [show n.children = [] from hkids] at hx
      obtain rfl : x = id := List.mem_singleton.mp hx
      refine ⟨_, List.mem_cons_self, hdetail, [], [], .whole, ?_, nofun, String.append_empty.symm⟩
      rw [Detail.own, hleaf]
      rfl
    | false =>
      have hnil : n.children.isEmpty = kids.isEmpty := by
        have := hkids.length_eq
        cases hc : n.children <;> cases hk : kids <;> simp_all
      obtain ⟨head, tail, hchunks, hheading, hending, hstart, -⟩ :=
        printNode_block t memory closed hn hleaf (fun h => hparent.trans (hroot h)) hcap.top hnil
          hbody
      refine ⟨_, hchunks, ?_, fun front x hx hne => ?_⟩
      · rw [Chunk.textOf_append, Chunk.textOf_append, hheading, hending, htext]
        rfl
      · rw [Draft.places, Detail.own, hleaf]
        rcases List.mem_cons.mp hx with rfl | hx
        · have hkind : n.detail.kind ≠ .root := by
            rintro h
            rw [kind?, hn] at hne
            exact hne (congrArg some h)
          refine ⟨_, List.mem_cons_self, hdetail, [], body ++ tail, .start, ?_, nofun, ?_⟩
          · rw [hstart hkind]
            simp
          · exact String.append_empty.symm
        · obtain ⟨p, hp, hpx, hat⟩ := hplaces (front ++ n.detail.heading) x hx hne
          rw [← hheading] at hat
          exact ⟨p, List.mem_cons_of_mem _ hp, hpx, hat.append_left.append_right tail⟩

/-- The children of a node that holds a draft, `before` being those that are printed already. -/
theorem printKids_text {id : NodeId} {ids : List NodeId} (closesLast : Bool)
    (before : List NodeId) :
    ∀ (bs : List Draft) (fuel : Nat), Branch.sizeAll bs ≤ fuel → t.HoldsAll id ids bs →
      (∀ b ∈ bs, b.label.raws.before.isSome = true ∧ b.label.kind ≠ .root) →
      (∀ b ∈ bs, b.Every Detail.Captured) →
      ∃ chunks, t.printKids memory closesLast (t.lastClosed (before ++ ids)) before.length
          (ids.map (t.shapeWithin fuel)) = pure chunks ∧
        Chunk.textOf chunks = Draft.textAll closesLast bs ∧
        ∀ front, t.Prints front chunks (Branch.listAll (ids.map (t.shapeWithin fuel)))
          (Draft.placesAll front closesLast bs)
  | [], fuel, hsize, hold, hlabels, hcap => by
    rw [HoldsAll] at hold
    rw [hold, List.map_nil, printKids, Draft.textAll]
    exact ⟨[], rfl, rfl, fun front x hx => absurd hx List.not_mem_nil⟩
  | b :: bs, fuel, hsize, hold, hlabels, hcap => by
    rw [HoldsAll] at hold
    obtain ⟨c, cs, rfl, hb, hbs⟩ := hold
    rw [Branch.sizeAll] at hsize
    obtain ⟨n, hn, hd, -, -⟩ := hb.get?_eq
    obtain ⟨hbefore, hkind⟩ := hlabels b List.mem_cons_self
    have hlabel : (t.shapeWithin fuel c).label = c := by cases fuel <;> rfl
    -- The first child is printed by the lemma for one node, which this one takes turns with.
    obtain ⟨head, hhead, hheadText, hheadPlaces⟩ := printNode_text b fuel
      (t.lastClosed (before ++ c :: cs) != before.length || closesLast) (by omega) hb
      (fun h => absurd h hkind) (hcap b List.mem_cons_self)
    obtain ⟨rest, hrest, hrestText, hrestPlaces⟩ := printKids_text closesLast (before ++ [c]) bs
      fuel (by omega) hbs (fun b hb => hlabels b (List.mem_cons_of_mem _ hb))
      (fun b hb => hcap b (List.mem_cons_of_mem _ hb))
    rw [List.append_assoc, List.singleton_append, List.length_append,
      List.length_singleton] at hrest
    have hclosed := t.text_lastClosed closesLast before hb hbs
    rw [List.map_cons, printKids, hlabel, hn]
    dsimp only
    rw [beforeText_of_isSome t memory (by rw [Node.raws, hd]; exact hbefore), pure_bind, hhead,
      pure_bind, hrest, pure_bind]
    refine ⟨_, rfl, ?_, fun front x hx hne => ?_⟩
    · rw [Chunk.textOf_append, Chunk.textOf_append, Chunk.textOf_formatting, hheadText, hrestText,
        hclosed, Draft.textAll, hd]
    -- A place in the first child lies behind its own space, one of the others behind its whole
    -- text.
    · rw [Draft.placesAll, ← Draft.places_eq_of_text_eq hclosed, ← hclosed, ← hheadText, ← hd]
      rw [Branch.listAll, List.mem_append] at hx
      rcases hx with hx | hx
      · obtain ⟨p, hp, hpx, hat⟩ := hheadPlaces (front ++ n.detail.before) x hx hne
        refine ⟨p, List.mem_append_left _ hp, hpx, Chunk.StartsAt.append_right ?_ rest⟩
        exact Chunk.StartsAt.append_left (by rwa [Chunk.textOf_formatting])
      · obtain ⟨p, hp, hpx, hat⟩ := hrestPlaces (front ++ n.detail.before ++ Chunk.textOf head) x hx
          hne
        refine ⟨p, List.mem_append_right _ hp, hpx, Chunk.StartsAt.append_left ?_⟩
        rwa [Chunk.textOf_append, Chunk.textOf_formatting, ← String.append_assoc]

end

/-- A tree that holds a draft with captured formatting prints as the text of the draft, with every
node at its place. -/
theorem chunks_of_holds {t : Tree} {b : Draft} (hold : t.Holds none rootId b)
    (hsize : b.size ≤ t.nodes.size) (hcap : b.Every Detail.Captured) :
    Chunk.textOf (t.chunks rootId) = Draft.text false b ∧
      t.Prints "" (t.chunks rootId) (t.shape rootId).toList (Draft.places "" false b) := by
  obtain ⟨chunks, hchunks, htext, hplaces⟩ := printNode_text t Memory.notes b t.nodes.size false
    hsize hold (fun _ => rfl) hcap
  rw [Tree.chunks, chunksWith, shape, hchunks]
  exact ⟨htext, hplaces ""⟩

/-- A tree prints as its children and what stands at its end, when those are captured. -/
theorem textOf_chunks_root {t : Tree} {d : Detail} {kids : List Draft}
    (hold : t.Holds none rootId (.node d kids)) (hroot : d.kind = .root)
    (hsize : Branch.sizeAll kids < t.nodes.size)
    (hlabels : ∀ b ∈ kids, b.label.raws.before.isSome = true ∧ b.label.kind ≠ .root)
    (hcap : ∀ b ∈ kids, b.Every Detail.Captured) :
    Chunk.textOf (t.chunks rootId) =
      Draft.textAll (d.raws.semicolon.getD false) kids ++ d.raws.after.getD "" := by
  obtain ⟨n, hn, rfl, hparent, hkids⟩ := hold
  obtain ⟨fuel, hfuel⟩ := Nat.exists_eq_add_of_lt (Nat.zero_lt_of_lt hsize)
  rw [Nat.zero_add] at hfuel
  have hchildren : t.children rootId = n.children := by rw [children, hn]; rfl
  obtain ⟨body, hbody, htext, -⟩ := printKids_text t Memory.notes
    (n.detail.raws.semicolon.getD false) [] kids fuel (by omega) hkids hlabels hcap
  -- The root prints nothing of its own except for the text behind its children.
  have hprint : t.printNode Memory.notes false (t.shapeWithin (fuel + 1) rootId) =
      pure (body ++ Chunk.formatting (n.raws.after.getD "")) := by
    rw [shapeWithin, hchildren, printNode, hn]
    dsimp only [Node.content]
    rw [Detail.content_of_root hroot]
    dsimp only
    rw [closesLast_of_root t Memory.notes hparent, pure_bind,
      show t.printKids Memory.notes (n.raws.semicolon.getD false) (t.lastClosed n.children) 0
        (n.children.map (t.shapeWithin fuel)) = pure body from hbody, pure_bind]
  rw [Tree.chunks, chunksWith, shape, hfuel, hprint]
  show Chunk.textOf (body ++ Chunk.formatting (n.raws.after.getD "")) = _
  rw [Chunk.textOf_append, htext, Chunk.textOf_formatting]
  rfl

/-- A tree that was made of a draft with captured formatting prints as the text of the draft, with
every node at its place. -/
theorem chunks_ofDraft (input : Input) {b : Draft} (hcap : b.Every Detail.Captured) :
    Chunk.textOf ((ofDraft input b).chunks rootId) = Draft.text false b ∧
      (ofDraft input b).Prints "" ((ofDraft input b).chunks rootId)
        ((ofDraft input b).shape rootId).toList (Draft.places "" false b) :=
  chunks_of_holds (holds_ofDraft input b) (Nat.le_of_eq (size_ofDraft input b).symm) hcap

/-- A tree that was made of a draft with captured formatting prints as the text of the draft. -/
theorem print_ofDraft (input : Input) {b : Draft} (hcap : b.Every Detail.Captured) :
    (ofDraft input b).print = Draft.text false b :=
  (chunks_ofDraft input hcap).1

end Tree

end Stylesheet
