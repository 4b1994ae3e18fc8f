import Stylesheet.Proofs.Draft.Print
import Stylesheet.Proofs.Print.Mirror

/-!
# Trees that print alike

Two trees that agree in all but what their nodes say (`Tree.Mirror`) print chunk by chunk the same
parts of the same nodes, and a chunk has the same text unless it is the text of a node that says
something else (`Tree.Mirror.chunks_alike`). If all nodes say the same, so do the trees
(`Tree.Mirror.print_eq`).

The printer keeps notes, so two printers are compared step by step (`InStep`): from the same notes
they come to the same notes and to results that are related.
-/

namespace Stylesheet

/-! ### Printers that keep notes -/

/-- From the same notes both come to the same notes, and their results are related. -/
def InStep (R : α → β → Prop) (x : StateM σ α) (y : StateM σ β) : Prop :=
  ∀ s, R (x.run s).1 (y.run s).1 ∧ (y.run s).2 = (x.run s).2

namespace InStep

variable {R : α → β → Prop}

theorem pure {a : α} {b : β} (h : R a b) : InStep R (pure a : StateM σ α) (pure b) :=
  fun _ => ⟨h, rfl⟩

/-- Two prints in step stay in step. -/
theorem bind {Q : γ → δ → Prop} {x : StateM σ α} {y : StateM σ β} {f : α → StateM σ γ}
    {g : β → StateM σ δ} (hxy : InStep R x y) (hfg : ∀ a b, R a b → InStep Q (f a) (g b)) :
    InStep Q (x >>= f) (y >>= g) := by
  intro s
  obtain ⟨hR, hnotes⟩ := hxy s
  have hnext := hfg _ _ hR (x.run s).2
  refine ⟨?_, ?_⟩
  · show Q ((f (x.run s).1).run (x.run s).2).1 ((g (y.run s).1).run (y.run s).2).1
    rw [hnotes]
    exact hnext.1
  · show ((g (y.run s).1).run (y.run s).2).2 = ((f (x.run s).1).run (x.run s).2).2
    rw [hnotes]
    exact hnext.2

/-- Both start with the same. -/
theorem bindSame {Q : γ → δ → Prop} {x y : StateM σ α} {f : α → StateM σ γ} {g : α → StateM σ δ}
    (hxy : y = x) (hfg : ∀ a, InStep Q (f a) (g a)) : InStep Q (x >>= f) (y >>= g) := by
  subst hxy
  exact fun s => hfg (y.run s).1 (y.run s).2

end InStep

/-! ### Chunks -/

/-- The chunk of one tree and the chunk of another one in its place: the same part of a node, with
the same text if the node says the same. A closing brace says nothing. -/
structure Chunk.Mirror (ρ : NodeId → NodeId) (t u : Tree) (c c' : Chunk) : Prop where
  attached : ∀ x phase, c.part = some (x, phase) → t.Attached x
  part : c'.part = c.part.map fun (x, phase) => (ρ x, phase)
  text : (∀ x phase, c.part = some (x, phase) → phase ≠ .stop → t.Attached x →
    u.content? (ρ x) = t.content? x) → c'.text = c.text

namespace Tree

variable {ρ : NodeId → NodeId} {t u : Tree} {x : NodeId} {σ : Type}

/-- Chunks in the same order. -/
def MirrorAll (ρ : NodeId → NodeId) (t u : Tree) : List Chunk → List Chunk → Prop :=
  List.Forall₂ (Chunk.Mirror ρ t u)

theorem mirror_formatting (text : String) :
    MirrorAll ρ t u (Chunk.formatting text) (Chunk.formatting text) := by
  unfold Chunk.formatting
  split_ifs
  · exact .nil
  · exact .cons ⟨nofun, rfl, fun _ => rfl⟩ .nil

/-- The text of a node depends on what the node says. -/
theorem mirror_of {phase : Phase} (hphase : phase ≠ .stop) (hx : t.Attached x) {n n' : Node}
    (hn : t.get? x = some n) (hn' : u.get? (ρ x) = some n') {text text' : String}
    (htext : n'.content = n.content → text' = text) :
    Chunk.Mirror ρ t u (.of x phase text) (.of (ρ x) phase text') where
  attached _ _ heq := by
    cases heq
    exact hx
  part := rfl
  text := by
    intro hsame
    have hcontent := hsame x phase rfl hphase hx
    rw [content?, content?, hn, hn'] at hcontent
    exact htext (Option.some.inj hcontent)

theorem mirror_stop (hx : t.Attached x) (text : String) :
    Chunk.Mirror ρ t u (.of x .stop text) (.of (ρ x) .stop text) where
  attached _ _ heq := by
    cases heq
    exact hx
  part := rfl
  text _ := rfl

namespace Mirror

variable (memory : Memory (StateM σ)) (h : t.Mirror ρ u)
include h

/-- What rules and at-rules with a block have in common. -/
theorem block_alike {n n' : Node} (hx : t.Attached x) (hn : t.get? x = some n)
    (hn' : u.get? (ρ x) = some n') (hmirror : n.Mirror ρ n') {kids : List (Branch NodeId)}
    (hbody : ∀ closesLast, InStep (MirrorAll ρ t u)
      (t.printKids memory closesLast (t.lastClosed n.children) 0 kids)
      (u.printKids memory closesLast (u.lastClosed n'.children) 0 (Branch.mapAll ρ kids)))
    {head head' : String} (hhead : n'.content = n.content → head' = head) :
    InStep (MirrorAll ρ t u) (t.printBlock memory x n kids head)
      (u.printBlock memory (ρ x) n' (Branch.mapAll ρ kids) head') := by
  have hcloses : u.closesKids memory (ρ x) n' = t.closesKids memory x n := by
    rw [closesKids, closesKids, hmirror.children, List.isEmpty_map,
      h.closesLast_eq memory hx hmirror]
  refine .bindSame (by rw [hmirror.raws, h.slot_eq memory hx]) fun between => ?_
  refine .bindSame hcloses fun closesLast => ?_
  refine (hbody closesLast).bind fun body body' hbodies => ?_
  refine .bindSame (h.afterText_eq memory hx hmirror) fun after => .pure ?_
  refine List.rel_append (List.rel_append (.cons ?_ hbodies) (mirror_formatting after))
    (.cons (mirror_stop hx _) .nil)
  exact mirror_of (by decide) hx hn hn' fun hcontent => by rw [hhead hcontent]

mutual

/-- The induction is on the branch: a node, then its children, then its end. -/
theorem printNode_alike : ∀ (b : Branch NodeId) (closed : Bool), (∀ y ∈ b.toList, t.Attached y) →
    InStep (MirrorAll ρ t u) (t.printNode memory closed b) (u.printNode memory closed (b.map ρ))
  | .node x kids, closed, hb => by
    rw [Branch.toList, List.forall_mem_cons] at hb
    obtain ⟨hx, hkids⟩ := hb
    obtain ⟨n, n', hn, hn', hmirror⟩ := h.node x hx
    have hchildren : ∀ y ∈ n.children, t.Attached y := by
      intro y hy
      refine hx.child h.consistent ?_
      rw [children, hn]
      exact hy
    -- What stands around the children is compared kind by kind below; the children are printed
    -- alike.
    have hbody : ∀ closesLast, InStep (MirrorAll ρ t u)
        (t.printKids memory closesLast (t.lastClosed n.children) 0 kids)
        (u.printKids memory closesLast (u.lastClosed n'.children) 0 (Branch.mapAll ρ kids)) := by
      intro closesLast
      rw [hmirror.children, h.lastClosed_eq hchildren]
      exact printKids_alike kids closesLast _ 0 hkids
    have hkind : n'.content.kind = n.content.kind := hmirror.kind
    rw [Branch.map, printNode_eq t memory hn, printNode_eq u memory hn']
    cases hc : n.content <;> cases hc' : n'.content <;> rw [hc, hc'] at hkind <;> try cases hkind
    case root.root.refl =>
      refine .bindSame (h.closesLast_eq memory hx hmirror) fun closesLast => ?_
      refine (hbody closesLast).bind fun body body' hbodies => .pure ?_
      rw [hmirror.raws]
      exact List.rel_append hbodies (mirror_formatting _)
    case rule.rule.refl selector selector' =>
      have hhead : n'.content = n.content →
          RawValue.apply n'.raws.selector selector' = RawValue.apply n.raws.selector selector := by
        rw [hc, hc', hmirror.raws]
        rintro ⟨⟩
        rfl
      refine (h.block_alike memory hx hn hn' hmirror hbody hhead).bind
        fun chunks chunks' hchunks => .pure (List.rel_append hchunks ?_)
      rw [hmirror.raws]
      split_ifs
      · exact .nil
      · exact .cons (mirror_stop hx _) .nil
    case atRule.atRule.refl name params name' params' =>
      have hhead : n'.content = n.content →
          atRuleHead n'.raws name' params' = atRuleHead n.raws name params := by
        rw [hc, hc', hmirror.raws]
        rintro ⟨⟩
        rfl
      dsimp only
      rw [hmirror.container]
      cases n.isContainer with
      | true => exact h.block_alike memory hx hn hn' hmirror hbody hhead
      | false =>
        refine .pure (.cons (mirror_of (by decide) hx hn hn' fun hcontent => ?_) .nil)
        rw [hhead hcontent, hmirror.raws]
    case declaration.declaration.refl =>
      refine .bindSame (by rw [hmirror.raws, h.slot_eq memory hx]) fun between => ?_
      refine .pure (.cons (mirror_of (by decide) hx hn hn' fun hcontent => ?_) .nil)
      rw [hc, hc'] at hcontent
      cases hcontent
      rw [hmirror.raws]
    case comment.comment.refl =>
      refine .bindSame (by rw [hmirror.raws, h.slot_eq memory hx]) fun left => ?_
      refine .bindSame (by rw [hmirror.raws, h.slot_eq memory hx]) fun right => ?_
      refine .pure (.cons (mirror_of (by decide) hx hn hn' fun hcontent => ?_) .nil)
      rw [hc, hc'] at hcontent
      cases hcontent
      rfl

theorem printKids_alike : ∀ (bs : List (Branch NodeId)) (closesLast : Bool) (last i : Nat),
    (∀ y ∈ Branch.listAll bs, t.Attached y) →
    InStep (MirrorAll ρ t u) (t.printKids memory closesLast last i bs)
      (u.printKids memory closesLast last i (Branch.mapAll ρ bs))
  | [], closesLast, last, i, hbs => .pure .nil
  | b :: bs, closesLast, last, i, hbs => by
    rw [Branch.listAll, List.forall_mem_append] at hbs
    have hlabel : t.Attached b.label := hbs.1 _ (by cases b; exact List.mem_cons_self)
    obtain ⟨n, n', hn, hn', hmirror⟩ := h.node _ hlabel
    rw [Branch.mapAll, printKids, printKids, Branch.label_map, hn, hn']
    dsimp only
    refine .bindSame (h.beforeText_eq memory hlabel hmirror) fun before => ?_
    refine (printNode_alike b _ hbs.1).bind fun chunks chunks' hchunks => ?_
    refine (printKids_alike bs closesLast last (i + 1) hbs.2).bind fun rest rest' hrest => .pure ?_
    exact List.rel_append (List.rel_append (mirror_formatting before) hchunks) hrest

end

/-- The trees print chunk by chunk the same parts of the same nodes. -/
theorem chunks_alike : MirrorAll ρ t u (t.chunks rootId) (u.chunks rootId) := by
  have hroot : t.Attached rootId := .refl
  have hnodes : ∀ y ∈ (t.shape rootId).toList, t.Attached y :=
    fun y hy => h.attached_of_mem_shape hroot hy
  have hshape : u.shape rootId = (t.shape rootId).map ρ := by
    rw [← h.shape_eq hroot, h.root]
  rw [Tree.chunks, Tree.chunks, chunksWith, chunksWith, hshape]
  exact (printNode_alike Memory.notes h (t.shape rootId) false hnodes {}).1

/-- If all nodes say the same, the trees print the same. -/
theorem print_eq (hsame : ∀ x, t.Attached x → u.content? (ρ x) = t.content? x) :
    u.print = t.print := by
  have htext : ∀ {cs cs' : List Chunk}, MirrorAll ρ t u cs cs' →
      Chunk.textOf cs' = Chunk.textOf cs := by
    intro cs cs' hcs
    induction hcs with
    | nil => rfl
    | cons hc _ ih =>
      rw [Chunk.textOf_cons, Chunk.textOf_cons, ih, hc.text fun x _ _ _ hx => hsame x hx]
  exact htext h.chunks_alike

end Mirror

end Tree

end Stylesheet
