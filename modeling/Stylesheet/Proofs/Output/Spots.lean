import Stylesheet.Proofs.Output.Identity
import Stylesheet.Proofs.Output.Order
import Stylesheet.Proofs.Tree.Reload

/-!
# Places of the output

The places of an output are counted chunk by chunk, with a line and a column that go on from one
chunk to the next. They are those that an index of the whole text finds for what was printed so far
(`MapPlan.spots_counted`), whatever tree is printed: a chunk that is part of a node is part of one
that the tree has (`Tree.known_of_mem_chunks`), so that the place where a node starts is mapped.
-/

namespace Stylesheet

open Text

/-! ### Results of a printer -/

/-- Whatever was noted before, the result of the action has the property. -/
def Always (action : StateM σ α) (P : α → Prop) : Prop :=
  ∀ s, P (action.run s).1

namespace Always

variable {P : α → Prop} {Q : β → Prop}

theorem pure {a : α} (h : P a) : Always (pure a : StateM σ α) P :=
  fun _ => h

theorem bind {action : StateM σ α} {f : α → StateM σ β} (h : Always action P)
    (hf : ∀ a, P a → Always (f a) Q) : Always (action >>= f) Q :=
  fun s => hf _ (h s) _

/-- The result of the first action makes no difference. -/
theorem bindAny {action : StateM σ α} {f : α → StateM σ β} (hf : ∀ a, Always (f a) Q) :
    Always (action >>= f) Q :=
  bind (P := fun _ => True) (fun _ => trivial) fun a _ => hf a

end Always

/-- A chunk that is part of a node is part of one that the tree has. -/
def Chunk.Known (t : Tree) (c : Chunk) : Prop :=
  ∀ id phase, c.part = some (id, phase) → ∃ n, t.get? id = some n

namespace Tree

variable (t : Tree) (memory : Memory (StateM σ))

theorem known_of_mem_formatting {t : Tree} {text : String} :
    ∀ c ∈ Chunk.formatting text, c.Known t := by
  intro c hc id phase hpart
  rw [Chunk.part_of_mem_formatting hc] at hpart
  cases hpart

theorem known_of {t : Tree} {id : NodeId} {n : Node} (hn : t.get? id = some n) (phase : Phase)
    (text : String) : (Chunk.of id phase text).Known t := by
  intro x phase' hpart
  cases hpart
  exact ⟨n, hn⟩

theorem known_single {t : Tree} {id : NodeId} {n : Node} (hn : t.get? id = some n) (phase : Phase)
    (text : String) : ∀ c ∈ [Chunk.of id phase text], c.Known t :=
  List.forall_mem_singleton.mpr (known_of hn phase text)

/-- What rules and at-rules with a block have in common. -/
theorem block_known {id : NodeId} {n : Node} (hn : t.get? id = some n)
    {kids : List (Branch NodeId)}
    (hbody : ∀ closesLast last, Always (t.printKids memory closesLast last 0 kids)
      fun chunks => ∀ c ∈ chunks, c.Known t) (head : String) :
    Always (t.printBlock memory id n kids head) fun chunks => ∀ c ∈ chunks, c.Known t := by
  refine .bindAny fun between => .bindAny fun closesLast => ?_
  refine (hbody closesLast _).bind fun body hchunks => .bindAny fun after => .pure ?_
  rw [List.forall_mem_append, List.forall_mem_append, List.forall_mem_cons]
  exact ⟨⟨⟨known_of hn _ _, hchunks⟩, known_of_mem_formatting⟩, known_single hn _ _⟩

mutual

theorem printNode_known : ∀ (b : Branch NodeId) (closed : Bool),
    Always (t.printNode memory closed b) fun chunks => ∀ c ∈ chunks, c.Known t
  | .node id kids, closed => by
    have hbody := fun closesLast last => printKids_known kids closesLast last 0
    cases hn : t.get? id with
    | none =>
      rw [printNode, hn]
      exact .pure fun c hc => absurd hc List.not_mem_nil
    | some n =>
      rw [printNode_eq t memory hn]
      -- The label of each chunk is the node that is printed, and that one was just looked up.
      cases n.content with
      | root =>
        refine .bindAny fun closesLast => (hbody closesLast _).bind fun body hchunks => .pure ?_
        exact List.forall_mem_append.mpr ⟨hchunks, known_of_mem_formatting⟩
      | rule selector =>
        refine (block_known t memory hn hbody _).bind fun chunks hchunks => .pure ?_
        refine List.forall_mem_append.mpr ⟨hchunks, ?_⟩
        split_ifs
        · exact fun c hc => absurd hc List.not_mem_nil
        · exact known_single hn _ _
      | atRule name params =>
        dsimp only
        cases n.isContainer with
        | true => exact block_known t memory hn hbody _
        | false => exact .pure (known_single hn _ _)
      | declaration prop value important =>
        exact .bindAny fun between => .pure (known_single hn _ _)
      | comment text =>
        exact .bindAny fun left => .bindAny fun right => .pure (known_single hn _ _)

theorem printKids_known : ∀ (bs : List (Branch NodeId)) (closesLast : Bool) (last i : Nat),
    Always (t.printKids memory closesLast last i bs) fun chunks => ∀ c ∈ chunks, c.Known t
  | [], closesLast, last, i => .pure fun c hc => absurd hc List.not_mem_nil
  | b :: bs, closesLast, last, i => by
    have hrest : ∀ before : String, Always
        (do
          let chunks ← t.printNode memory (last != i || closesLast) b
          let rest ← t.printKids memory closesLast last (i + 1) bs
          return Chunk.formatting before ++ chunks ++ rest)
        fun chunks => ∀ c ∈ chunks, c.Known t := by
      intro before
      refine (printNode_known b _).bind fun chunks hchunks =>
        (printKids_known bs closesLast last (i + 1)).bind fun rest hrest => .pure ?_
      rw [List.forall_mem_append, List.forall_mem_append]
      exact ⟨⟨known_of_mem_formatting, hchunks⟩, hrest⟩
    rw [printKids]
    cases t.get? b.label with
    | none => exact hrest ""
    | some n => exact .bindAny hrest

end

theorem known_of_mem_chunks {t : Tree} {id : NodeId} : ∀ c ∈ t.chunks id, c.Known t :=
  printNode_known t Memory.notes _ false {}

end Tree

/-! ### Mappings of chunks -/

namespace MapPlan

variable (p : MapPlan) {t : Tree}

theorem mappings_append (as bs : List Chunk) :
    p.mappings t (as ++ bs) =
      p.mappings t as ++ p.mappingsFrom t (Spot.behind (Chunk.textOf as)) bs := by
  have h := p.mappingsFrom_append (t := t) "" as bs
  rwa [String.empty_append] at h

/-- The mappings of a chunk are those that stand between the mappings of what is in front of it and
of what is behind it. -/
theorem mappings_append_cons (before after : List Chunk) (c : Chunk) :
    p.mappings t (before ++ c :: after) = p.mappings t before ++
      (p.chunkMappings t (Spot.behind (Chunk.textOf before))
        (Spot.behind (Chunk.textOf before ++ c.text)) c ++
      p.mappingsFrom t (Spot.behind (Chunk.textOf before ++ c.text)) after) := by
  rw [mappings_append, mappingsFrom, Spot.advance_behind]

/-- Where a node starts, the first mapping of its chunk leads to where the node comes from. -/
theorem exists_chunkMappings_eq_cons {c : Chunk} {id : NodeId} {phase : Phase} {n : Node}
    (hpart : c.part = some (id, phase)) (hphase : phase ≠ .stop) (hn : t.get? id = some n)
    (s s' : Spot) :
    ∃ ms, p.chunkMappings t s s' c = ⟨s, (p.origins t n).1.getD MapOrigin.missing⟩ :: ms := by
  rw [chunkMappings, hpart]
  dsimp only
  rw [hn]
  dsimp only
  rw [if_neg hphase]
  exact ⟨_, rfl⟩

/-- **Places of the output are counted right.** When the printer comes to the first chunk of a node,
the mapping that is recorded has the line and the column that an index of the whole output finds for
the number of bytes in front of it, and both fit into 32 bits when the output is shorter than
that. -/
theorem spots_counted (t : Tree)
    (hsize : (p.generateString t).1.utf8ByteSize < UInt32.size - 1) {before after : List Chunk}
    {c : Chunk} {id : NodeId} {phase : Phase}
    (hchunks : t.chunks Tree.rootId = before ++ c :: after)
    (hpart : c.part = some (id, phase)) (hphase : phase ≠ .stop) :
    ∃ m ms, (p.generateString t).2 = p.mappings t before ++ m :: ms ∧
      (m.spot.line + 1, m.spot.column + 1) =
        (LineIndex.ofText (p.generateString t).1.toList).position
          (Chunk.textOf before).utf8ByteSize ∧
      m.spot.line + 1 < UInt32.size ∧ m.spot.column + 1 < UInt32.size := by
  have hcss : (p.generateString t).1 = Chunk.textOf before ++ Chunk.textOf (c :: after) := by
    rw [generateString, hchunks, Chunk.textOf_append]
  obtain ⟨n, hn⟩ := Tree.known_of_mem_chunks c (by rw [hchunks]; simp) id phase hpart
  obtain ⟨ms, hms⟩ := p.exists_chunkMappings_eq_cons hpart hphase hn
    (Spot.behind (Chunk.textOf before)) (Spot.behind (Chunk.textOf before ++ c.text))
  have hposition : (LineIndex.ofText (p.generateString t).1.toList).position
      (Chunk.textOf before).utf8ByteSize =
        ((Spot.behind (Chunk.textOf before)).line + 1,
          (Spot.behind (Chunk.textOf before)).column + 1) := by
    rw [hcss, String.toList_append, utf8ByteSize_eq_bytes, LineIndex.position_front]
    rfl
  have hle := LineIndex.position_le (p.generateString t).1.toList
    (Chunk.textOf before).utf8ByteSize
  rw [← utf8ByteSize_eq_bytes, hposition] at hle
  refine ⟨⟨Spot.behind (Chunk.textOf before), (p.origins t n).1.getD MapOrigin.missing⟩,
    ms ++ p.mappingsFrom t (Spot.behind (Chunk.textOf before ++ c.text)) after, ?_,
    hposition.symm, ?_, ?_⟩
  · rw [generateString, hchunks, mappings_append_cons, hms, List.cons_append]
  · dsimp only
    omega
  · dsimp only
    omega

/-- A stylesheet with a rule that was built; characters of two units and a line feed stand in front
of its declaration. -/
def wideRule : Tree :=
  ((Edit.append Tree.rootId (.bag ((Bag.rule "🙂,\n🙂").withNodes [.declaration "z" "1"]))).run
    ⟨Tree.sheet "a\x7bx:é;y:z\x7d", {}⟩).2.tree

theorem spots_counted_wideRule :
    (MapPlan.generateString ⟨{}, {}, []⟩ wideRule).1 =
        "a\x7bx:é;y:z\x7d\n🙂,\n🙂\x7bz:1\x7d" ∧
      wideRule.chunks Tree.rootId = (wideRule.chunks Tree.rootId).take 6 ++
        .of ⟨5⟩ .whole "z:1" :: (wideRule.chunks Tree.rootId).drop 7 ∧
      ∃ m ms, (MapPlan.generateString ⟨{}, {}, []⟩ wideRule).2 =
          MapPlan.mappings ⟨{}, {}, []⟩ wideRule ((wideRule.chunks Tree.rootId).take 6) ++ m :: ms ∧
        (m.spot.line + 1, m.spot.column + 1) = (3, 4) := by
  have hcss : (MapPlan.generateString ⟨{}, {}, []⟩ wideRule).1 =
      "a\x7bx:é;y:z\x7d\n🙂,\n🙂\x7bz:1\x7d" := by
    decide +kernel
  have hchunks : wideRule.chunks Tree.rootId = (wideRule.chunks Tree.rootId).take 6 ++
      .of ⟨5⟩ .whole "z:1" :: (wideRule.chunks Tree.rootId).drop 7 := by
    decide +kernel
  obtain ⟨m, ms, hmappings, hposition, -⟩ := MapPlan.spots_counted ⟨{}, {}, []⟩ wideRule
    (by rw [hcss]; decide +kernel) hchunks rfl (by decide)
  refine ⟨hcss, hchunks, m, ms, hmappings, hposition.trans ?_⟩
  rw [hcss]
  decide +kernel

end MapPlan

end Stylesheet
