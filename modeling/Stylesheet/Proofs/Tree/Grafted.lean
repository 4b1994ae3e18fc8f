import Stylesheet.Proofs.Tree.Consistent
import Stylesheet.Proofs.Tree.Layout

/-!
# Branches in consistent trees

The nodes of a branch are stored so that children have greater numbers than their parents. Hence a
tree with a branch put into its store is consistent again (`Tree.Consistent.graft`), and so is the
tree of a branch that was read (`Tree.consistent_ofDraft`).

The other way round, every node of a consistent tree is taken out as a sound branch
(`Tree.Consistent.sound_draft`).
-/

namespace Stylesheet

namespace Tree

variable {t : Tree}

/-! ### New nodes -/

/-- The node fits into a consistent tree, and its children have greater numbers, below `stop`. -/
structure Planted (t : Tree) (stop : Nat) (j : NodeId) : Prop where
  block : t.children j ≠ [] → t.hasBlock j = true
  canOwn : t.hasBlock j = true → ∃ kind, t.kind? j = some kind ∧ kind.canOwn = true
  nodup : (t.children j).Nodup
  kids : ∀ c ∈ t.children j,
    j.index < c.index ∧ c.index < stop ∧ t.parent? c = some j ∧ t.kind? c ≠ some .root

/-- The nodes with numbers from `base` up to `stop` fit together; `tops` are those on top. -/
structure Patch (t : Tree) (base stop : Nat) (parent : Option NodeId) (tops : List NodeId) :
    Prop where
  planted : ∀ j, base ≤ j.index → j.index < stop → t.Planted stop j
  linked : ∀ j, base ≤ j.index → j.index < stop →
    j ∈ tops ∧ t.parent? j = parent ∨
      ∃ p, t.parent? j = some p ∧ base ≤ p.index ∧ p.index < j.index ∧ j ∈ t.children p

theorem Planted.mono {stop stop' : Nat} {j : NodeId} (h : t.Planted stop j)
    (hle : stop ≤ stop') : t.Planted stop' j :=
  { h with
    kids := fun c hc =>
      have ⟨hlt, hstop, hrest⟩ := h.kids c hc
      ⟨hlt, Nat.lt_of_lt_of_le hstop hle, hrest⟩ }

/-- Two patches, one behind the other. -/
theorem Patch.append {base mid stop : Nat} {parent : Option NodeId} {tops tops' : List NodeId}
    (h : t.Patch base mid parent tops) (h' : t.Patch mid stop parent tops') (hbase : base ≤ mid)
    (hstop : mid ≤ stop) : t.Patch base stop parent (tops ++ tops') where
  planted j hlo hhi := by
    rcases Nat.lt_or_ge j.index mid with hlt | hge
    · exact (h.planted j hlo hlt).mono hstop
    · exact h'.planted j hge hhi
  linked j hlo hhi := by
    rcases Nat.lt_or_ge j.index mid with hlt | hge
    · rcases h.linked j hlo hlt with ⟨htop, hparent⟩ | hinner
      · exact Or.inl ⟨List.mem_append_left _ htop, hparent⟩
      · exact Or.inr hinner
    · rcases h'.linked j hge hhi with ⟨htop, hparent⟩ | ⟨p, hparent, hp, hinner⟩
      · exact Or.inl ⟨List.mem_append_right _ htop, hparent⟩
      · exact Or.inr ⟨p, hparent, Nat.le_trans hbase hp, hinner⟩

/-- The numbers of new nodes lie between the first free one and the next. -/
theorem bounds_of_mem_numbers {base : Nat} {bs : List Draft} {c : NodeId}
    (h : c ∈ numbers base bs) : base ≤ c.index ∧ c.index < base + Branch.sizeAll bs := by
  induction bs generalizing base with
  | nil => rw [numbers] at h; exact absurd h List.not_mem_nil
  | cons b bs ih =>
    have hpos : 0 < b.size := by
      obtain ⟨d, kids⟩ := b
      rw [Branch.size]
      omega
    rw [numbers, List.mem_cons] at h
    rw [Branch.sizeAll]
    rcases h with rfl | h
    · dsimp only
      omega
    · have := ih h
      omega

/-- No number is given twice. -/
theorem nodup_numbers (base : Nat) (bs : List Draft) : (numbers base bs).Nodup := by
  induction bs generalizing base with
  | nil => rw [numbers]; exact List.nodup_nil
  | cons b bs ih =>
    rw [numbers]
    refine List.nodup_cons.mpr ⟨fun hmem => ?_, ih _⟩
    have hpos : 0 < b.size := by
      obtain ⟨d, kids⟩ := b
      rw [Branch.size]
      omega
    have hlow : base + b.size ≤ base := (bounds_of_mem_numbers hmem).1
    omega

/-- Each node of the list holds one of the drafts. -/
theorem HoldsAll.exists_of_mem {parent : NodeId} {ids : List NodeId} {c : NodeId} :
    ∀ {bs : List Draft}, t.HoldsAll parent ids bs → c ∈ ids →
      ∃ b ∈ bs, t.Holds (some parent) c b
  | [], h, hc => by
    rw [HoldsAll] at h
    rw [h] at hc
    exact absurd hc List.not_mem_nil
  | b :: bs, h, hc => by
    rw [HoldsAll] at h
    obtain ⟨d, ds, rfl, hb, hbs⟩ := h
    rcases List.mem_cons.mp hc with rfl | hc
    · exact ⟨b, List.mem_cons_self, hb⟩
    · obtain ⟨b', hmem, hb'⟩ := hbs.exists_of_mem hc
      exact ⟨b', List.mem_cons_of_mem _ hmem, hb'⟩

/-- The node on top of a branch that is stored. -/
theorem planted_top {base : Nat} {parent : Option NodeId} {d : Detail} {kids : List Draft}
    (hd : d.Sound kids) (h : t.Stores base (layout base parent (.node d kids))) :
    t.Planted (base + (1 + Branch.sizeAll kids)) ⟨base⟩ := by
  rw [layout] at h
  have hget := h.head
  have hchildren : t.children ⟨base⟩ = numbers (base + 1) kids := by rw [children, hget]; rfl
  have hblock : t.hasBlock ⟨base⟩ = d.block := by rw [hasBlock, hget]; rfl
  have hkind : t.kind? ⟨base⟩ = some d.kind := by rw [kind?, hget]; rfl
  -- The top comes first and its children after it, one layout behind the other.
  have hall := Stores.holdsAll kids h.tail
  refine ⟨fun hne => ?_, fun hb => ?_, ?_, fun c hc => ?_⟩
  · rw [hblock]
    refine hd.block fun hnil => hne ?_
    rw [hchildren, hnil, numbers]
  · rw [hblock] at hb
    exact ⟨d.kind, hkind, hd.canOwn hb⟩
  · rw [hchildren]
    exact nodup_numbers _ _
  · rw [hchildren] at hc
    obtain ⟨b, hb, hholds⟩ := hall.exists_of_mem hc
    obtain ⟨n, hn, hdetail, hparent, -⟩ := hholds.get?_eq
    have hbounds := bounds_of_mem_numbers hc
    refine ⟨by dsimp only; omega, by omega, ?_, ?_⟩
    · rw [parent?, hn]
      exact hparent
    · rw [kind?, hn]
      show some n.detail.kind ≠ _
      rw [hdetail]
      exact fun hroot => hd.nested b hb (Option.some.inj hroot)

mutual

/-- A sound branch that is stored. -/
theorem patch_layout (t : Tree) : ∀ (b : Draft) (base : Nat) (parent : Option NodeId),
    b.Every Detail.Sound → t.Stores base (layout base parent b) →
      t.Patch base (base + b.size) parent [⟨base⟩]
  | .node d kids, base, parent, hb, h => by
    have htop := planted_top hb.top h
    rw [layout] at h
    have hparent : t.parent? ⟨base⟩ = parent := by rw [parent?, h.head]; rfl
    have hchildren : t.children ⟨base⟩ = numbers (base + 1) kids := by rw [children, h.head]; rfl
    have hkids := patch_layoutAll t kids (base + 1) (some ⟨base⟩) hb.rest h.tail
    rw [Branch.size]
    refine ⟨fun j hlo hhi => ?_, fun j hlo hhi => ?_⟩
    -- An index of the patch is the top, or it belongs to the patch of the children.
    · rcases Nat.eq_or_lt_of_le hlo with heq | hlt
      · obtain rfl : (⟨base⟩ : NodeId) = j := by rw [heq]
        exact htop
      · rw [← Nat.add_assoc]
        exact hkids.planted j hlt (by omega)
    · rcases Nat.eq_or_lt_of_le hlo with heq | hlt
      · obtain rfl : (⟨base⟩ : NodeId) = j := by rw [heq]
        exact Or.inl ⟨List.mem_singleton.mpr rfl, hparent⟩
      · rcases hkids.linked j hlt (by omega) with ⟨hmem, hj⟩ | ⟨p, hj, hp, hinner⟩
        · refine Or.inr ⟨⟨base⟩, hj, Nat.le_refl _, hlt, ?_⟩
          rw [hchildren]
          exact hmem
        · exact Or.inr ⟨p, hj, Nat.le_of_succ_le hp, hinner⟩

/-- Sound branches that are stored one behind the other. -/
theorem patch_layoutAll (t : Tree) : ∀ (bs : List Draft) (base : Nat) (parent : Option NodeId),
    (∀ b ∈ bs, b.Every Detail.Sound) → t.Stores base (layoutAll base parent bs) →
      t.Patch base (base + Branch.sizeAll bs) parent (numbers base bs)
  | [], base, parent, _, _ => by
    rw [Branch.sizeAll, numbers]
    exact ⟨fun j hlo hhi => by omega, fun j hlo hhi => by omega⟩
  | b :: bs, base, parent, hbs, h => by
    rw [layoutAll] at h
    have hleft := patch_layout t b base parent (hbs b List.mem_cons_self) h.left
    have hrest := h.right
    rw [length_layout] at hrest
    have hright := patch_layoutAll t bs (base + b.size) parent
      (fun b hb => hbs b (List.mem_cons_of_mem _ hb)) hrest
    rw [Branch.sizeAll, numbers, ← Nat.add_assoc]
    exact hleft.append hright (Nat.le_add_right _ _) (Nat.le_add_right _ _)

end

/-- Nodes are numbered in the order in which they are made. -/
theorem contains_iff_index_lt {j : NodeId} : t.contains j = true ↔ j.index < t.nodes.size := by
  refine ⟨fun h => ?_, fun h => ?_⟩
  · obtain ⟨n, hn⟩ := Option.isSome_iff_exists.mp h
    exact index_lt_of_get? hn
  · rw [Tree.contains, get?, Array.getElem?_eq_getElem h]
    rfl

theorem size_graft (t : Tree) (b : Draft) :
    (t.graft b).2.nodes.size = t.nodes.size + b.size := by
  show (t.nodes ++ (layout t.nodes.size none b).toArray).size = _
  simp only [Array.size_append, List.size_toArray, length_layout]

/-- A node was there before, or is one of the new ones. -/
theorem mem_layout_of_get?_graft {b : Draft} {x : NodeId} {n : Node}
    (hn : (t.graft b).2.get? x = some n) :
    t.get? x = some n ∨ n ∈ layout t.nodes.size none b := by
  rcases Nat.lt_or_ge x.index t.nodes.size with hlt | hge
  · rw [get?_graft_of_lt b hlt] at hn
    exact Or.inl hn
  · have hget : (t.nodes ++ (layout t.nodes.size none b).toArray)[x.index]? = some n := hn
    rw [Array.getElem?_append_right hge, List.getElem?_toArray] at hget
    exact Or.inr (List.mem_of_getElem? hget)

/-- The node on top of a new branch may as well be changed before. -/
theorem modify_graft (t : Tree) (d : Detail) (kids : List Draft) (f : Detail → Detail) :
    (t.graft (.node d kids)).2.modify (t.graft (.node d kids)).1 (·.withDetail f) =
      (t.graft (.node (f d) kids)).2 := by
  have hnodes : ((t.nodes ++ (layout t.nodes.size none (.node d kids)).toArray).modify t.nodes.size
      (·.withDetail f)) = t.nodes ++ (layout t.nodes.size none (.node (f d) kids)).toArray := by
    -- Slot by slot: the top is the only one that the change reaches.
    refine Array.ext_getElem? fun i => ?_
    rw [Array.getElem?_modify]
    split_ifs with hi
    · subst hi
      rw [Array.getElem?_append_right (Nat.le_refl _), Array.getElem?_append_right (Nat.le_refl _),
        Nat.sub_self, List.getElem?_toArray, List.getElem?_toArray, layout, layout]
      rfl
    · rw [Array.getElem?_append, Array.getElem?_append]
      split_ifs with hlt
      · rfl
      · obtain ⟨k, hk⟩ := Nat.exists_eq_succ_of_ne_zero (n := i - t.nodes.size) (by omega)
        rw [hk, List.getElem?_toArray, List.getElem?_toArray, layout, layout]
        rfl
  exact congrArg (fun nodes => { t with nodes }) hnodes

/-- The tree has more nodes, and those that were there are as they were. -/
structure Extends (t u : Tree) : Prop where
  size : t.nodes.size ≤ u.nodes.size
  links : ∀ j, j.index < t.nodes.size → u.links j = t.links j

namespace Extends

variable {u : Tree} {j : NodeId}

theorem contains (h : t.Extends u) (hj : t.contains j = true) : u.contains j = true :=
  contains_iff_index_lt.mpr (Nat.lt_of_lt_of_le (contains_iff_index_lt.mp hj) h.size)

theorem parent? (h : t.Extends u) (hj : t.contains j = true) : u.parent? j = t.parent? j := by
  rw [parent?_eq_links, parent?_eq_links, h.links j (contains_iff_index_lt.mp hj)]

theorem children (h : t.Extends u) (hj : t.contains j = true) : u.children j = t.children j := by
  rw [children_eq_links, children_eq_links, h.links j (contains_iff_index_lt.mp hj)]

theorem kind? (h : t.Extends u) (hj : t.contains j = true) : u.kind? j = t.kind? j := by
  rw [kind?_eq_links, kind?_eq_links, h.links j (contains_iff_index_lt.mp hj)]

theorem hasBlock (h : t.Extends u) (hj : t.contains j = true) : u.hasBlock j = t.hasBlock j := by
  rw [hasBlock_eq_links, hasBlock_eq_links, h.links j (contains_iff_index_lt.mp hj)]

end Extends

section Patched

variable {u : Tree} {tops : List NodeId}

/-- A node was there before, or is new, or there is none. -/
theorem Patch.cases (hpatch : u.Patch t.nodes.size u.nodes.size none tops) (j : NodeId) :
    t.contains j = true ∨
      u.Planted u.nodes.size j ∧ t.nodes.size ≤ j.index ∧ j.index < u.nodes.size ∨
        u.get? j = none := by
  rcases Nat.lt_or_ge j.index t.nodes.size with hlt | hge
  · exact Or.inl (contains_iff_index_lt.mpr hlt)
  · rcases Nat.lt_or_ge j.index u.nodes.size with hlt | hge'
    · exact Or.inr (Or.inl ⟨hpatch.planted j hge hlt, hge, hlt⟩)
    · exact Or.inr (Or.inr (get?_of_size_le hge'))

/-- Old lists have old nodes only, and new ones new nodes. -/
theorem Extends.mem_children (h : t.Consistent) (hext : t.Extends u)
    (hpatch : u.Patch t.nodes.size u.nodes.size none tops) {p c : NodeId} (hc : c ∈ u.children p) :
    c ∈ t.children p ∧ t.contains c = true ∨
      u.contains c = true ∧ u.parent? c = some p ∧ u.kind? c ≠ some .root := by
  rcases hpatch.cases p with hold | ⟨hplanted, -⟩ | hnone
  · rw [hext.children hold] at hc
    exact Or.inl ⟨hc, h.contains p c hc⟩
  · obtain ⟨-, hlt, hparent, hroot⟩ := hplanted.kids c hc
    exact Or.inr ⟨contains_iff_index_lt.mpr hlt, hparent, hroot⟩
  · rw [Tree.children, hnone] at hc
    exact absurd hc List.not_mem_nil

/-- The parent of an old node is old. That of a new one is new, and its number is smaller. -/
theorem Extends.under_cases (h : t.Consistent) (hext : t.Extends u)
    (hpatch : u.Patch t.nodes.size u.nodes.size none tops) {c p : NodeId} (hcp : u.Under c p) :
    t.contains c = true ∧ t.Under c p ∧ t.contains p = true ∨
      t.nodes.size ≤ p.index ∧ p.index < c.index ∧ c ∈ u.children p := by
  rw [Under] at hcp
  rcases hpatch.cases c with hold | ⟨-, hge, hlt⟩ | hnone
  · rw [hext.parent? hold] at hcp
    exact Or.inl ⟨hold, hcp, h.contains_parent hcp⟩
  · rcases hpatch.linked c hge hlt with ⟨-, htop⟩ | ⟨q, hq, hge', hlt', hin⟩
    · rw [htop] at hcp
      cases hcp
    · rw [hq] at hcp
      cases hcp
      exact Or.inr ⟨hge', hlt', hin⟩
  · rw [Tree.parent?, hnone] at hcp
    cases hcp

/-- The way up from a node stays among the old ones, or among new ones with smaller numbers. -/
theorem Extends.above_cases (h : t.Consistent) (hext : t.Extends u)
    (hpatch : u.Patch t.nodes.size u.nodes.size none tops) {a b : NodeId}
    (hup : Relation.TransGen u.Under a b) :
    Relation.TransGen t.Under a b ∧ t.contains b = true ∨
      t.nodes.size ≤ b.index ∧ b.index < a.index := by
  induction hup with
  | single hstep =>
    rcases hext.under_cases h hpatch hstep with ⟨-, hold, hp⟩ | ⟨hge, hlt, -⟩
    · exact Or.inl ⟨.single hold, hp⟩
    · exact Or.inr ⟨hge, hlt⟩
  | tail _ hstep ih =>
    -- Nothing old has a new parent, and nothing new an old one.
    rcases hext.under_cases h hpatch hstep with ⟨hb, hold, hp⟩ | ⟨hge, hlt, -⟩
    · rcases ih with ⟨hway, -⟩ | ⟨hge, -⟩
      · exact Or.inl ⟨hway.tail hold, hp⟩
      · have hlt := contains_iff_index_lt.mp hb
        omega
    · rcases ih with ⟨-, hb⟩ | ⟨-, hb⟩
      · have hlt' := contains_iff_index_lt.mp hb
        omega
      · exact Or.inr ⟨hge, Nat.lt_trans hlt hb⟩

/-- A consistent tree with a patch of new nodes, which have no parent outside. -/
theorem Consistent.extend (h : t.Consistent) (hext : t.Extends u)
    (hpatch : u.Patch t.nodes.size u.nodes.size none tops) : u.Consistent where
  contains := by
    intro p c hc
    rcases hext.mem_children h hpatch hc with ⟨-, hold⟩ | ⟨hnew, -⟩
    · exact hext.contains hold
    · exact hnew
  listed := by
    intro p c hc
    rcases hext.mem_children h hpatch hc with ⟨hc, hold⟩ | ⟨-, hcp, -⟩
    · rw [hext.parent? hold]
      exact h.listed p c hc
    · exact hcp
  once := by
    intro c p hcp
    rcases hext.under_cases h hpatch hcp with ⟨-, hcp, hp⟩ | ⟨hge, -, hin⟩
    · rw [hext.children hp]
      exact h.once c p hcp
    · rcases hpatch.cases p with hold | ⟨hplanted, -⟩ | hnone
      · exact absurd (contains_iff_index_lt.mp hold) (Nat.not_lt.mpr hge)
      · exact List.count_eq_one_of_mem hplanted.nodup hin
      · rw [Tree.children, hnone] at hin
        exact absurd hin List.not_mem_nil
  acyclic := by
    intro id hcycle
    -- In the new part parents have smaller numbers than their children, so no path there returns.
    rcases hext.above_cases h hpatch hcycle with ⟨hold, -⟩ | ⟨-, hlt⟩
    · exact h.acyclic id hold
    · exact Nat.lt_irrefl _ hlt
  nested := by
    intro p c hc
    rcases hext.mem_children h hpatch hc with ⟨hc, hold⟩ | ⟨-, -, hroot⟩
    · rw [hext.kind? hold]
      exact h.nested p c hc
    · exact hroot
  block := by
    intro p hne
    rcases hpatch.cases p with hold | ⟨hplanted, -⟩ | hnone
    · rw [hext.children hold] at hne
      rw [hext.hasBlock hold]
      exact h.block p hne
    · exact hplanted.block hne
    · rw [Tree.children, hnone] at hne
      exact absurd rfl hne
  canOwn := by
    intro p hp
    rcases hpatch.cases p with hold | ⟨hplanted, -⟩ | hnone
    · rw [hext.hasBlock hold] at hp
      rw [hext.kind? hold]
      exact h.canOwn p hp
    · exact hplanted.canOwn hp
    · rw [Tree.hasBlock, hnone] at hp
      cases hp

end Patched

/-- Laying out a draft leaves the links of all nodes as they were. -/
theorem extends_graft (t : Tree) (b : Draft) : t.Extends (t.graft b).2 where
  size := by rw [size_graft]; exact Nat.le_add_right _ _
  links j hj := by rw [links, links, get?_graft_of_lt b hj]

/-- A sound branch may be put into the store. -/
theorem Consistent.graft (h : t.Consistent) {b : Draft} (hb : b.Every Detail.Sound) :
    (t.graft b).2.Consistent := by
  have hpatch := patch_layout _ b _ none hb (Stores.of_graft t b)
  rw [← size_graft] at hpatch
  exact h.extend (extends_graft t b) hpatch

/-- The tree of a sound branch. -/
theorem consistent_ofDraft (input : Input) {b : Draft} (hb : b.Every Detail.Sound) :
    (ofDraft input b).Consistent := by
  have hpatch := patch_layout _ b _ none hb (Stores.of_ofDraft input b)
  rw [Nat.zero_add, ← size_ofDraft input] at hpatch
  -- Before the nodes of the branch there is nothing.
  have hvoid : Consistent { nodes := #[], inputs := #[input] } := by
    refine ⟨nofun, nofun, nofun, fun id hcycle => ?_, nofun, fun p hne => absurd rfl hne, nofun⟩
    rcases (Relation.TransGen.head'_iff.mp hcycle) with ⟨p, hp, -⟩
    cases hp
  exact hvoid.extend ⟨Nat.zero_le _, nofun⟩ hpatch

/-! ### Branches of a tree -/

theorem detail_of_get? {id : NodeId} {n : Node} (h : t.get? id = some n) :
    t.detail id = n.detail := by
  rw [detail, h]
  rfl

theorem kind_detail {id : NodeId} (h : t.contains id = true) :
    t.kind? id = some (t.detail id).kind := by
  obtain ⟨n, hn⟩ := Option.isSome_iff_exists.mp h
  rw [kind?, detail_of_get? hn, hn]
  rfl

theorem block_detail {id : NodeId} (h : t.contains id = true) :
    (t.detail id).block = t.hasBlock id := by
  obtain ⟨n, hn⟩ := Option.isSome_iff_exists.mp h
  rw [hasBlock, detail_of_get? hn, hn]
  rfl

/-- A node with a block is there. -/
theorem contains_of_hasBlock {id : NodeId} (h : t.hasBlock id = true) : t.contains id = true := by
  rw [hasBlock] at h
  rw [Tree.contains]
  cases hget : t.get? id with
  | none => rw [hget] at h; cases h
  | some n => rfl

theorem label_shapeWithin (t : Tree) (fuel : Nat) (id : NodeId) :
    (t.shapeWithin fuel id).label = id := by
  cases fuel <;> rfl

/-- A node and its children as a branch. -/
theorem Consistent.sound_detail (h : t.Consistent) (id : NodeId) {kids : List Draft}
    (hkids : ∀ b ∈ kids, ∃ c ∈ t.children id, b.label = t.detail c) :
    (t.detail id).Sound kids := by
  refine ⟨fun hne => ?_, fun hblock => ?_, fun b hb hroot => ?_⟩
  · obtain ⟨b, hb⟩ := List.exists_mem_of_ne_nil _ hne
    obtain ⟨c, hc, -⟩ := hkids b hb
    have hblock := h.block id (List.ne_nil_of_mem hc)
    rw [block_detail (contains_of_hasBlock hblock)]
    exact hblock
  -- An unknown node reads as an empty detail, which opens no block.
  · cases hcontains : t.contains id with
    | true =>
      rw [block_detail hcontains] at hblock
      obtain ⟨kind, hkind, hown⟩ := h.canOwn id hblock
      rw [kind_detail hcontains] at hkind
      rw [Option.some.inj hkind]
      exact hown
    | false =>
      rw [Tree.contains, Option.isSome_eq_false_iff, Option.isNone_iff_eq_none] at hcontains
      rw [detail, hcontains]
      rfl
  · obtain ⟨c, hc, hlabel⟩ := hkids b hb
    have hkind := kind_detail (h.contains id c hc)
    rw [← hlabel, hroot] at hkind
    exact h.nested id c hc hkind

/-- Every node of a consistent tree is a sound branch. -/
theorem Consistent.sound_draft (h : t.Consistent) (id : NodeId) :
    (t.draft id).Every Detail.Sound := by
  -- By induction on the depth that the shape is cut at; its value does not matter.
  have hshape : ∀ fuel id, ((t.shapeWithin fuel id).map t.detail).Every Detail.Sound := by
    intro fuel
    induction fuel with
    | zero =>
      intro id
      exact .node (h.sound_detail id nofun) nofun
    | succ fuel ih =>
      intro id
      rw [shapeWithin, Branch.map, Branch.mapAll_eq, List.map_map]
      refine .node (h.sound_detail id fun b hb => ?_) fun b hb => ?_
      · obtain ⟨c, hc, rfl⟩ := List.mem_map.mp hb
        refine ⟨c, hc, ?_⟩
        rw [Function.comp, Branch.label_map, label_shapeWithin]
      · obtain ⟨c, -, rfl⟩ := List.mem_map.mp hb
        exact ih c
  exact hshape _ id

end Tree

end Stylesheet
