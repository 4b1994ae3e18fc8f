import Stylesheet.Proofs.Outline.Read
import Stylesheet.Proofs.Tree.Order
import Stylesheet.Tree.Json

/-!
# Trees that are read from JSON

Whatever JSON a tree is read from, its lists and links say the same, its nodes all stand in the
document, and the root stands in no list (`admitted_of_ofJson`). What is not looked at is whether
the kind of a node goes with a list of children: a declaration or a comment that is written with
`nodes` is read with them. The tree is consistent exactly when nothing of the sort was written.

The nodes of a form are stored as those of a branch, whose nodes need not be sound. With every node
that may not have a list made into a rule, they are (`Draft.sound_housed`), and the two trees have
the same lists and links.
-/

namespace Stylesheet

/-! ### Lists where they belong -/

namespace NodeForm

mutual

/-- Only nodes of kinds that can have a block are written with a list of children. -/
def fits : NodeForm → Bool
  | .node r children => (children.isNone || r.kind.canOwn) && fitsBelow children

/-- The children of a node fit, if there is a list of them. -/
def fitsBelow : Option (List NodeForm) → Bool
  | none => true
  | some forms => fitsAll forms

/-- Several nodes fit. -/
def fitsAll : List NodeForm → Bool
  | [] => true
  | form :: forms => fits form && fitsAll forms

end

end NodeForm

namespace Detail

/-- Only a node with a block has children, and none of them is a root. -/
structure Listed (d : Detail) (kids : List Draft) : Prop where
  block : kids ≠ [] → d.block = true
  nested : ∀ b ∈ kids, b.label.kind ≠ .root

/-- The node has no block, or its kind can have one. -/
def Owns (d : Detail) : Prop :=
  d.block = true → d.kind.canOwn = true

/-- The node, made into a rule if its kind cannot have a block. -/
def housed (d : Detail) : Detail :=
  { d with content := if d.kind.canOwn then d.content else .rule "" }

/-- A node that is housed may have a block. -/
theorem canOwn_housed (d : Detail) : d.housed.kind.canOwn = true := by
  rw [kind, housed]
  cases hown : d.kind.canOwn with
  | true => exact hown
  | false => rfl

/-- Housing makes no root of a node that is none. -/
theorem kind_housed_eq_root_iff (d : Detail) : d.housed.kind = .root ↔ d.kind = .root := by
  rw [kind, housed]
  cases hown : d.kind.canOwn with
  | true => rfl
  | false =>
    constructor
    · intro hroot
      cases hroot
    · intro hroot
      rw [hroot] at hown
      cases hown

end Detail

/-- With every node of a kind that can have a block, the branch is sound. -/
theorem Draft.sound_housed {b : Draft} (h : b.Every Detail.Listed) :
    (b.map Detail.housed).Every Detail.Sound := by
  refine h.map fun d kids hd => ⟨fun hne => ?_, fun _ => d.canOwn_housed, fun b hb => ?_⟩
  · exact hd.block fun hnil => hne (by rw [hnil]; rfl)
  · obtain ⟨c, hc, rfl⟩ := List.mem_map.mp hb
    rw [Branch.label_map, Ne, Detail.kind_housed_eq_root_iff]
    exact hd.nested c hc

/-- What is written of a node opens a block if there is a list of children or if the kind does. -/
theorem NodeRecord.owns_iff {r : NodeRecord} {content : Content} {raws : Raws}
    {source : Option Source} {listed : Bool} (h : r.content? = .ok content) :
    Detail.Owns ⟨content, raws, source, content.opensBlock || listed⟩ ↔
      (!listed || r.kind.canOwn) = true := by
  -- A record says its kind twice, by its type and by its fields; they agree once the fields were
  -- read.
  have hkind : content.kind = r.kind ∧ (content.opensBlock = true → r.kind.canOwn = true) := by
    rw [content?] at h
    cases hk : r.kind with
    | declaration =>
      rw [hk] at h
      cases hvalue : r.value with
      | none => rw [hvalue] at h; cases h
      | some value => rw [hvalue] at h; cases h; exact ⟨rfl, fun h => by cases h⟩
    | root => rw [hk] at h; cases h
    | rule | atRule => rw [hk] at h; cases h; exact ⟨rfl, fun _ => rfl⟩
    | comment => rw [hk] at h; cases h; exact ⟨rfl, fun h => by cases h⟩
  rw [Detail.Owns, Detail.kind, hkind.1, Bool.or_eq_true, Bool.or_eq_true]
  cases listed with
  | true =>
    exact ⟨fun h => Or.inr (h (Or.inr rfl)), fun h _ => h.resolve_left Bool.false_ne_true⟩
  | false =>
    exact ⟨fun _ => Or.inl rfl, fun _ h => hkind.2 (h.resolve_right Bool.false_ne_true)⟩

/-- No record below the top is taken for a root. -/
theorem NodeRecord.kind_ne_root {r : NodeRecord} {content : Content}
    (h : r.content? = .ok content) : content.kind ≠ .root := by
  rw [content?] at h
  cases hk : r.kind with
  | declaration =>
    rw [hk] at h
    cases hvalue : r.value with
    | none => rw [hvalue] at h; cases h
    | some value => rw [hvalue] at h; cases h; nofun
  | root => rw [hk] at h; cases h
  | rule | atRule | comment => rw [hk] at h; cases h; nofun

namespace NodeForm

mutual

/-- A branch that is read: lists are in place apart from the kinds, and these fit if they do in the
form. -/
theorem listed_draft? {count : Nat} : ∀ {form : NodeForm} {b : Draft},
    form.draft? count = .ok b →
      b.label.kind ≠ .root ∧ b.Every Detail.Listed ∧
        ((∀ d ∈ b.toList, d.Owns) ↔ form.fits = true)
  | .node r children, b, h => by
    rw [draft?] at h
    obtain ⟨content, hcontent, h⟩ := Except.bind_eq_ok h
    obtain ⟨source, -, h⟩ := Except.bind_eq_ok h
    obtain ⟨kids, hkids, h⟩ := Except.bind_eq_ok h
    cases h
    obtain ⟨hsome, hlisted, howns⟩ := listed_kids? hkids
    refine ⟨NodeRecord.kind_ne_root hcontent, .node ⟨fun hne => ?_, ?_⟩ ?_, ?_⟩
    · dsimp only
      rw [hsome hne, Bool.or_true]
    · exact fun b hb => (hlisted b hb).1
    · exact fun b hb => (hlisted b hb).2
    · rw [Branch.toList, List.forall_mem_cons, fits, Bool.and_eq_true, howns,
        NodeRecord.owns_iff hcontent, Option.not_isSome]

/-- The branches of the children. -/
theorem listed_kids? {count : Nat} : ∀ {children : Option (List NodeForm)} {kids : List Draft},
    kids? count children = .ok kids →
      (kids ≠ [] → children.isSome = true) ∧
        (∀ b ∈ kids, b.label.kind ≠ .root ∧ b.Every Detail.Listed) ∧
          ((∀ d ∈ Branch.listAll kids, d.Owns) ↔ fitsBelow children = true)
  | none, kids, h => by
    cases h
    exact ⟨fun hne => absurd rfl hne, nofun, fun _ => rfl, fun _ _ hd => nomatch hd⟩
  | some forms, kids, h => by
    obtain ⟨hlisted, howns⟩ := listed_drafts? (show drafts? count forms = .ok kids from h)
    exact ⟨fun _ => rfl, hlisted, howns⟩

/-- The branches of several nodes. -/
theorem listed_drafts? {count : Nat} : ∀ {forms : List NodeForm} {bs : List Draft},
    drafts? count forms = .ok bs →
      (∀ b ∈ bs, b.label.kind ≠ .root ∧ b.Every Detail.Listed) ∧
        ((∀ d ∈ Branch.listAll bs, d.Owns) ↔ fitsAll forms = true)
  | [], bs, h => by
    cases h
    exact ⟨nofun, fun _ => rfl, fun _ _ hd => nomatch hd⟩
  | form :: forms, bs, h => by
    rw [drafts?] at h
    obtain ⟨b, hb, h⟩ := Except.bind_eq_ok h
    obtain ⟨bs, hbs, h⟩ := Except.bind_eq_ok h
    cases h
    obtain ⟨hkind, hlisted, howns⟩ := listed_draft? hb
    obtain ⟨hrest, hallOwn⟩ := listed_drafts? hbs
    refine ⟨List.forall_mem_cons.mpr ⟨⟨hkind, hlisted⟩, hrest⟩, ?_⟩
    rw [Branch.listAll, List.forall_mem_append, howns, hallOwn, fitsAll, Bool.and_eq_true]

end

/-- A tree that is read is the branch of a form whose top is a root. -/
theorem tree?_listed {e : Environment} {form : NodeForm} {t : Tree}
    (h : form.tree? e = .ok t) :
    ∃ top : Draft, t.nodes = (Tree.layout 0 none top).toArray ∧ top.label.kind = .root ∧
      top.Every Detail.Listed ∧ ((∀ d ∈ top.toList, d.Owns) ↔ form.fits = true) := by
  obtain ⟨r, children⟩ := form
  rw [tree?] at h
  -- The outermost record has to be a root; beneath it the lemma about lists of records applies.
  by_cases hkind : r.kind = .root
  · rw [if_neg (not_not.mpr hkind)] at h
    obtain ⟨inputs, -, h⟩ := Except.bind_eq_ok h
    obtain ⟨source, -, h⟩ := Except.bind_eq_ok h
    obtain ⟨kids, hkids, h⟩ := Except.bind_eq_ok h
    cases h
    obtain ⟨-, hlisted, howns⟩ := listed_kids? hkids
    refine ⟨.node ⟨.root, r.raws, source, true⟩ kids, rfl, rfl, .node ⟨fun _ => rfl, ?_⟩ ?_, ?_⟩
    · exact fun b hb => (hlisted b hb).1
    · exact fun b hb => (hlisted b hb).2
    · have htop : Detail.Owns ⟨.root, r.raws, source, true⟩ := fun _ => rfl
      have hown : r.kind.canOwn = true := by rw [hkind]; rfl
      rw [Branch.toList, List.forall_mem_cons, fits, Bool.and_eq_true, howns, hown, Bool.or_true]
      exact and_congr_left' ⟨fun _ => rfl, fun _ => htop⟩
  · rw [if_pos hkind] at h
    cases h

end NodeForm

/-! ### The same tree with other nodes -/

namespace Tree

/-- Numbers depend on the shape only. -/
theorem numbers_map (f : Detail → Detail) :
    ∀ (bs : List Draft) (base : Nat), numbers base (Branch.mapAll f bs) = numbers base bs
  | [], _ => rfl
  | b :: bs, base => by
    rw [Branch.mapAll, numbers, numbers, Branch.size_map, numbers_map f bs]

mutual

/-- Changing all details after the layout or before makes no difference. -/
theorem layout_withDetail (f : Detail → Detail) :
    ∀ (b : Draft) (base : Nat) (parent : Option NodeId),
      layout base parent (b.map f) = (layout base parent b).map (Node.withDetail f)
  | .node d kids, base, parent => by
    rw [Branch.map, layout, layout, List.map_cons, numbers_map, layoutAll_withDetail f kids]
    rfl

theorem layoutAll_withDetail (f : Detail → Detail) :
    ∀ (bs : List Draft) (base : Nat) (parent : Option NodeId),
      layoutAll base parent (Branch.mapAll f bs) =
        (layoutAll base parent bs).map (Node.withDetail f)
  | [], _, _ => rfl
  | b :: bs, base, parent => by
    rw [Branch.mapAll, layoutAll, layoutAll, List.map_append, Branch.size_map,
      layout_withDetail f b, layoutAll_withDetail f bs]

end

/-- The lists and the links to parents say the same, a root stands in no list, and only a node with
a block has a list: all of a consistent tree but which kinds of nodes have a block. -/
structure Joined (t : Tree) : Prop where
  contains : ∀ p, ∀ c ∈ t.children p, t.contains c = true
  listed : ∀ p, ∀ c ∈ t.children p, t.parent? c = some p
  once : ∀ c p, t.parent? c = some p → (t.children p).count c = 1
  acyclic : ∀ id, ¬ Relation.TransGen t.Under id id
  nested : ∀ p, ∀ c ∈ t.children p, t.kind? c ≠ some .root
  block : ∀ p, t.children p ≠ [] → t.hasBlock p = true

/-- A tree whose lists and links agree is consistent when only nodes that may have one have a block.
-/
theorem consistent_iff_joined {t : Tree} :
    t.Consistent ↔ t.Joined ∧
      ∀ p, t.hasBlock p = true → ∃ kind, t.kind? p = some kind ∧ kind.canOwn = true := by
  constructor
  · intro h
    exact ⟨⟨h.contains, h.listed, h.once, h.acyclic, h.nested, h.block⟩, h.canOwn⟩
  · rintro ⟨h, hown⟩
    exact ⟨h.contains, h.listed, h.once, h.acyclic, h.nested, h.block, hown⟩

/-- The tree with the details of all nodes changed. -/
def withDetails (f : Detail → Detail) (t : Tree) : Tree :=
  { t with nodes := t.nodes.map (Node.withDetail f) }

section WithDetails

variable {t : Tree} {f : Detail → Detail}

/-- Each node has its details changed, and nothing else. -/
theorem get?_withDetails (x : NodeId) :
    (t.withDetails f).get? x = (t.get? x).map (Node.withDetail f) :=
  Array.getElem?_map

theorem parent?_withDetails (x : NodeId) : (t.withDetails f).parent? x = t.parent? x := by
  rw [parent?, parent?, get?_withDetails]
  cases t.get? x <;> rfl

theorem children_withDetails (x : NodeId) : (t.withDetails f).children x = t.children x := by
  rw [children, children, get?_withDetails]
  cases t.get? x <;> rfl

theorem contains_withDetails (x : NodeId) : (t.withDetails f).contains x = t.contains x := by
  rw [Tree.contains, Tree.contains, get?_withDetails, Option.isSome_map]

theorem hasBlock_withDetails (hblock : ∀ d, (f d).block = d.block) (x : NodeId) :
    (t.withDetails f).hasBlock x = t.hasBlock x := by
  rw [hasBlock, hasBlock, get?_withDetails]
  cases t.get? x with
  | none => rfl
  | some n => exact hblock n.detail

/-- Nodes stand where they stood. -/
theorem under_withDetails : (t.withDetails f).Under = t.Under := by
  funext c p
  rw [Under, Under, parent?_withDetails]

theorem kind?_withDetails (x : NodeId) :
    (t.withDetails f).kind? x = (t.get? x).map fun n => (f n.detail).kind := by
  rw [kind?, get?_withDetails]
  cases t.get? x <;> rfl

/-- Lists and links do not depend on what the nodes say, as long as the roots are the same. -/
theorem Joined.of_withDetails (h : (t.withDetails f).Joined)
    (hblock : ∀ d, (f d).block = d.block) (hroot : ∀ d, (f d).kind = .root ↔ d.kind = .root) :
    t.Joined where
  contains p c hc := by
    rw [← contains_withDetails (f := f)]
    exact h.contains p c (by rwa [children_withDetails])
  listed p c hc := by
    rw [← parent?_withDetails (f := f)]
    exact h.listed p c (by rwa [children_withDetails])
  once c p hparent := by
    rw [← children_withDetails (f := f)]
    exact h.once c p (by rwa [parent?_withDetails])
  acyclic id hcycle := h.acyclic id (by rwa [under_withDetails])
  nested p c hc hkind := by
    refine h.nested p c (by rwa [children_withDetails]) ?_
    rw [kind?_withDetails]
    rw [kind?] at hkind
    obtain ⟨n, hn, hkind⟩ := Option.map_eq_some_iff.mp hkind
    rw [hn]
    exact congrArg some ((hroot n.detail).mpr hkind)
  block p hne := by
    rw [← hasBlock_withDetails hblock]
    exact h.block p (by rwa [children_withDetails])

end WithDetails

/-- The nodes in the store of a branch are those of the branch. -/
theorem owns_iff_of_layout {t : Tree} {top : Draft}
    (hnodes : t.nodes = (layout 0 none top).toArray) :
    (∀ p, t.hasBlock p = true → ∃ kind, t.kind? p = some kind ∧ kind.canOwn = true) ↔
      ∀ d ∈ top.toList, d.Owns := by
  -- The nodes stand in the order of the draft, so both sides range over one list.
  have hget : ∀ p, t.get? p = (layout 0 none top)[p.index]? := by
    intro p
    rw [get?, hnodes, List.getElem?_toArray]
  rw [← map_detail_layout top 0 none, List.forall_mem_map]
  constructor
  · intro h n hn hblock
    obtain ⟨i, hi⟩ := List.mem_iff_getElem?.mp hn
    have hget' : t.get? ⟨i⟩ = some n := (hget ⟨i⟩).trans hi
    obtain ⟨kind, hkind, hown⟩ := h ⟨i⟩ (by rw [hasBlock, hget']; exact hblock)
    rw [kind?, hget'] at hkind
    rwa [← Option.some.inj hkind] at hown
  · intro h p hblock
    obtain ⟨n, hn⟩ := Option.isSome_iff_exists.mp (contains_of_hasBlock hblock)
    refine ⟨n.kind, by rw [kind?, hn]; rfl, ?_⟩
    rw [hasBlock, hn] at hblock
    exact h n (List.mem_of_getElem? ((hget p).symm.trans hn)) hblock

end Tree

/-- A tree that is read from JSON has its lists and links in order, and all its nodes stand in the
document. It is consistent if and only if no declaration and no comment was written with a list of
children: the reader takes such a list as it is. -/
theorem admitted_of_ofJson {e : Environment} {j : Json} {t : Tree} (h : Tree.ofJson e j = .ok t) :
    t.kind? Tree.rootId = some .root ∧ (∀ x, t.contains x = true → t.Attached x) ∧ t.Joined ∧
      (t.Consistent ↔ (NodeForm.ofJson? j).any NodeForm.fits = true) := by
  rw [Tree.ofJson] at h
  cases hform : NodeForm.ofJson? j with
  | none => rw [hform] at h; cases h
  | some form =>
    rw [hform] at h
    obtain ⟨top, hnodes, hkind, hlisted, howns⟩ := NodeForm.tree?_listed h
    -- The tree whose nodes may all have a list is the one of a sound branch.
    have hsound := Draft.sound_housed hlisted
    generalize hu : Tree.ofDraft (Input.assemble "" false none none none)
      (top.map Detail.housed) = u
    have hu' : u.Consistent := hu ▸ Tree.consistent_ofDraft _ hsound
    have hget : (t.withDetails Detail.housed).get? = u.get? := by
      funext x
      rw [Tree.get?, Tree.withDetails, hnodes, List.map_toArray, ← Tree.layout_withDetail, ← hu]
      rfl
    have hparent : t.parent? = u.parent? := by
      funext x
      rw [← Tree.parent?_withDetails (f := Detail.housed), Tree.parent?, hget, Tree.parent?]
    have hjoined : t.Joined := by
      have hhoused : (t.withDetails Detail.housed).Consistent := by
        refine hu'.of_links_eq ?_
        funext x
        rw [Tree.links, Tree.links, hget]
      exact (Tree.consistent_iff_joined.mp hhoused).1.of_withDetails (fun _ => rfl)
        Detail.kind_housed_eq_root_iff
    refine ⟨?_, fun x hx => ?_, hjoined, ?_⟩
    · obtain ⟨d, kids⟩ := top
      rw [Tree.kind?, Tree.get?, hnodes]
      exact congrArg some hkind
    · rw [← Tree.contains_withDetails (f := Detail.housed), Tree.contains, hget] at hx
      obtain ⟨n, hn⟩ := Option.isSome_iff_exists.mp hx
      have hattached : u.Attached x := by
        rw [← hu] at hn hu' ⊢
        exact hu'.mem_shape_iff.mp (Tree.mem_shape_ofDraft hn)
      have hunder : t.Under = u.Under := by
        funext c p
        rw [Tree.Under, Tree.Under, hparent]
      rwa [Tree.Attached, hunder]
    · rw [Tree.consistent_iff_joined, Tree.owns_iff_of_layout hnodes, howns, Option.any_some]
      exact and_iff_right hjoined

/-- A rule with a declaration, and an at-rule without a list of children, as JSON. -/
def plainRecord : Json :=
  .obj [("type", .str "root"), ("nodes", .arr
    [.obj [("type", .str "rule"), ("selector", .str "a"), ("nodes", .arr
      [.obj [("type", .str "decl"), ("prop", .str "b"), ("value", .str "c")]])],
    .obj [("type", .str "atrule"), ("name", .str "d")]])]

/-- A record that was written by hand is accepted, and prints. -/
theorem consistent_ofJson_plainRecord :
    ∃ t, Tree.ofJson {} plainRecord = .ok t ∧ t.Consistent ∧
      t.print = "a \x7b\n    b: c\n\x7d\n@d" := by
  have hread : (Tree.ofJson {} plainRecord).toOption.map Tree.print =
      some "a \x7b\n    b: c\n\x7d\n@d" := by
    decide +kernel
  cases ht : Tree.ofJson {} plainRecord with
  | error e => rw [ht] at hread; cases hread
  | ok t =>
    rw [ht] at hread
    exact ⟨t, rfl, (admitted_of_ofJson ht).2.2.2.mpr (by decide +kernel), Option.some.inj hread⟩

/-- A declaration that is written with a list of one comment, as JSON. -/
def strayRecord : Json :=
  .obj [("type", .str "root"), ("nodes", .arr
    [.obj [("type", .str "decl"), ("prop", .str "a"), ("value", .str "b"), ("nodes", .arr
      [.obj [("type", .str "comment"), ("text", .str "c")]])]])]

/-- The list of a declaration is read. The comment in it stands in the document, but is not printed.
-/
theorem declaration_with_children :
    ∃ t, Tree.ofJson {} strayRecord = .ok t ∧ ¬ t.Consistent ∧
      t.kind? ⟨1⟩ = some .declaration ∧ t.children ⟨1⟩ = [⟨2⟩] ∧ t.print = "a: b" := by
  have hread : (Tree.ofJson {} strayRecord).toOption.map (fun t =>
      (t.hasBlock ⟨1⟩, t.kind? ⟨1⟩, t.children ⟨1⟩, t.print)) =
        some (true, some .declaration, [⟨2⟩], "a: b") := by
    decide +kernel
  cases ht : Tree.ofJson {} strayRecord with
  | error e => rw [ht] at hread; cases hread
  | ok t =>
    rw [ht] at hread
    simp only [Except.toOption, Option.map_some, Option.some.injEq, Prod.mk.injEq] at hread
    obtain ⟨hblock, hkind, hchildren, hprint⟩ := hread
    refine ⟨t, rfl, fun h => ?_, hkind, hchildren, hprint⟩
    obtain ⟨kind, hkind', hown⟩ := h.canOwn ⟨1⟩ hblock
    rw [hkind, Option.some.injEq] at hkind'
    rw [← hkind'] at hown
    cases hown

end Stylesheet
