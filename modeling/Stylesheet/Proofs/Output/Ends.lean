import Stylesheet.Proofs.Output.Spots
import Stylesheet.Proofs.Print.Within

/-!
# Mappings of ends

A node that a brace or a semicolon closes is to have a mapping on that character. The printer
decides by the style of the tree whether a semicolon closes the last child of a block that has
captured nothing, but the end is mapped only if the block has captured a semicolon
(`Tree.Consistent.endsOpen_eq`). And one column back from the end of a chunk is mapped only for a
node whose end in an input is known; for another one it is the place behind the chunk.

So `MapPlan.end_mapped` says for every closed node which mappings its last chunk has. One is on the
closing character when the end of the node is known and it is not the style alone that closes it,
and otherwise none is.
-/

namespace Stylesheet

open Text

/-- One column back from a closing character is the place where it stands. -/
theorem Spot.back_behind_closing (front : String) {mark : String}
    (hmark : mark = ";" ∨ mark = "\x7d") : (behind (front ++ mark)).back = behind front := by
  rw [← advance_behind]
  rcases hmark with rfl | rfl <;> rfl

theorem Spot.behind_closing_ne (front : String) {mark : String}
    (hmark : mark = ";" ∨ mark = "\x7d") : behind (front ++ mark) ≠ behind front := by
  intro heq
  have hbefore : (behind front).Before (behind (front ++ mark)) := by
    refine before_behind front ?_
    rcases hmark with rfl | rfl <;> decide
  rw [heq, Before] at hbefore
  omega

namespace Tree

variable {t : Tree} {x p : NodeId} {n m : Node} {mark : String}

theorem closing_of_closing? (h : t.closing? x n = some mark) : mark = ";" ∨ mark = "\x7d" := by
  rw [closing?] at h
  split_ifs at h <;> cases h
  · exact Or.inl rfl
  · exact Or.inr rfl

/-- The node is a leaf and the last child, and its parent has not captured whether that one is
closed: then it is closed by the style of the tree, if at all. -/
def isLoose (t : Tree) (x : NodeId) (n : Node) : Bool :=
  n.detail.isLeaf && (n.parent.bind t.get?).any fun p =>
    p.children.getLast? == some x && p.raws.semicolon == none

/-- The last child, which is no comment, is closed if its parent closes its last child. -/
theorem closes_of_last (hparent : t.parent? x = some p) (hp : t.get? p = some m)
    {before : List NodeId} (hchildren : m.children = before ++ [x]) (hx : x ∉ before)
    (hkind : t.kind? x ≠ some .comment) : t.closes x = t.closesLastKid p m := by
  have hlast := t.lastClosed_ne_iff before [] (c := x) (by simpa using hkind)
  rw [List.any_nil] at hlast
  rw [closes, hparent, Option.any_some, hp, Option.any_some, hchildren,
    List.idxOf_append_of_notMem hx, List.idxOf_cons_self, Nat.add_zero, hlast, Bool.false_or]

/-- A closed node ends without a mapping of its own if only the style of the tree closes it. -/
theorem Consistent.endsOpen_eq (ht : t.Consistent) (hn : t.get? x = some n)
    (hmark : t.closing? x n = some mark) : MapPlan.endsOpen t x n = t.isLoose x n := by
  rw [closing?] at hmark
  split_ifs at hmark with hkind hleaf hcloses
  · rw [not_or] at hkind
    rw [t.endsOpen_of_isLeaf hleaf hkind.2, isLoose, hleaf, Bool.true_and]
    cases hp : n.parent.bind t.get? with
    | none => rfl
    | some m =>
      obtain ⟨p, hparent, hp⟩ := Option.bind_eq_some_iff.mp hp
      rw [Option.any_some, Option.any_some]
      cases hlast : m.children.getLast? == some x with
      | false => rfl
      | true =>
        -- The last child of a parent that has captured something: it has captured a semicolon.
        obtain ⟨before, hchildren⟩ := List.getLast?_eq_some_iff.mp (beq_iff_eq.mp hlast)
        have hnodup := ht.nodup_children p
        rw [children, hp, Option.map_some, Option.getD_some, hchildren] at hnodup
        have hx : x ∉ before := fun hx =>
          List.disjoint_of_nodup_append hnodup hx (List.mem_singleton_self x)
        have hup : t.parent? x = some p := by rw [parent?, hn, Option.bind_some, hparent]
        have hcomment : t.kind? x ≠ some .comment := by
          rw [kind?, hn]
          exact fun h => hkind.2 (Option.some.inj h)
        rw [closes_of_last hup hp hchildren hx hcomment, closesLastKid, closesLast] at hcloses
        cases hsemicolon : m.raws.semicolon with
        | none => rfl
        | some closed =>
          rw [hsemicolon] at hcloses
          rw [show closed = true from hcloses]
          rfl
  · rw [Bool.not_eq_true] at hleaf
    rw [t.endsOpen_of_isLeaf_false hleaf, isLoose, hleaf, Bool.false_and]

end Tree

namespace MapPlan

variable (p : MapPlan) {t : Tree} {x : NodeId} {n : Node} {mark : String}

/-- The mapping of the end of a node whose closing character stands behind a text: one on that
character, or one behind it when no end of the node in an input is known. -/
def endMapping (t : Tree) (n : Node) (front mark : String) : Mapping :=
  match (p.origins t n).2 with
  | some origin => ⟨Spot.behind front, origin⟩
  | none => ⟨Spot.behind (front ++ mark), MapOrigin.missing⟩

theorem spot_endMapping_iff (front : String) (hmark : mark = ";" ∨ mark = "\x7d") :
    (p.endMapping t n front mark).spot = Spot.behind front ↔ (p.origins t n).2.isSome = true := by
  rw [endMapping]
  cases (p.origins t n).2 with
  | some origin => simp
  | none => simpa using Spot.behind_closing_ne front hmark

/-- The mappings of the chunk that closes a node. -/
theorem chunkMappings_closing (hn : t.get? x = some n) (hmark : mark = ";" ∨ mark = "\x7d")
    {phase : Phase} (hphase : phase ≠ .start) (s : Spot) (front text : String) :
    p.chunkMappings t s (Spot.behind (front ++ mark)) (.of x phase text) =
      (if phase = .stop then [] else [⟨s, (p.origins t n).1.getD MapOrigin.missing⟩]) ++
        if endsOpen t x n then [] else [p.endMapping t n front mark] := by
  rw [chunkMappings]
  dsimp only [Chunk.of]
  rw [hn]
  dsimp only
  rw [decide_eq_false hphase, Bool.false_or, endMapping, Spot.back_behind_closing front hmark]
  cases (p.origins t n).2 <;> rfl

/-- **Where the end of a closed node is mapped.** A node that is closed by a brace or a semicolon
has a chunk that ends with this character: its only one, or the one behind its children. Behind the
mappings of its start, the chunk has one for the end of the node, unless it is the style of the tree
alone that closes the node. The mapping is on the closing character if and only if the end of the
node in an input is known. -/
theorem end_mapped (ht : t.Consistent) (hroot : t.kind? Tree.rootId = some .root)
    (hx : t.Attached x) (hn : t.get? x = some n) (hmark : t.closing? x n = some mark) :
    (∃ before phase text after,
      t.chunks Tree.rootId = before ++ .of x phase (text ++ mark) :: after ∧
      (n.detail.isLeaf = true ∧ phase = .whole ∧ text = t.leafText x n ∨
        n.detail.isLeaf = false ∧ phase = .stop ∧ text = "")) ∧
    ∀ before phase text after,
      t.chunks Tree.rootId = before ++ .of x phase (text ++ mark) :: after → phase ≠ .start →
      ∃ starts ends,
        (p.generateString t).1 = Chunk.textOf before ++ text ++ mark ++ Chunk.textOf after ∧
        (p.generateString t).2 = p.mappings t before ++ (starts ++ ends ++
          p.mappingsFrom t (Spot.behind (Chunk.textOf before ++ text ++ mark)) after) ∧
        (∀ m ∈ starts, m.spot = Spot.behind (Chunk.textOf before)) ∧
        (∀ m, m ∈ ends ↔
          t.isLoose x n = false ∧ m = p.endMapping t n (Chunk.textOf before ++ text) mark) ∧
        ((∃ m ∈ ends, m.spot = Spot.behind (Chunk.textOf before ++ text)) ↔
          t.isLoose x n = false ∧ (p.origins t n).2.isSome = true) := by
  have hclosing := Tree.closing_of_closing? hmark
  refine ⟨ht.exists_closing hroot hx hn hmark, fun before phase text after hchunks hphase => ?_⟩
  -- The chunk that closes the node has one mapping for its end, or none when the end is inferred.
  have hends : ∀ m, m ∈ (if endsOpen t x n then [] else
      [p.endMapping t n (Chunk.textOf before ++ text) mark]) ↔
      t.isLoose x n = false ∧ m = p.endMapping t n (Chunk.textOf before ++ text) mark := by
    intro m
    rw [ht.endsOpen_eq hn hmark]
    cases t.isLoose x n <;> simp
  refine ⟨if phase = .stop then [] else
    [⟨Spot.behind (Chunk.textOf before), (p.origins t n).1.getD MapOrigin.missing⟩],
    _, ?_, ?_, ?_, hends, ?_⟩
  · rw [generateString, hchunks, Chunk.textOf_append, Chunk.textOf_cons, Chunk.text_of]
    simp only [String.append_assoc]
  · rw [generateString, hchunks, mappings_append_cons, Chunk.text_of, ← String.append_assoc,
      p.chunkMappings_closing hn hclosing hphase]
  · intro m hm
    split_ifs at hm
    · cases hm
    · rw [List.mem_singleton.mp hm]
  · constructor
    · rintro ⟨m, hm, hspot⟩
      obtain ⟨hloose, rfl⟩ := (hends m).mp hm
      exact ⟨hloose, (p.spot_endMapping_iff _ hclosing).mp hspot⟩
    · rintro ⟨hloose, hknown⟩
      exact ⟨_, (hends _).mpr ⟨hloose, rfl⟩, (p.spot_endMapping_iff _ hclosing).mpr hknown⟩

/-- A built rule behind two that were read, with a copy of the last declaration. -/
def borrowed : Tree :=
  (Edit.runAll [.append Tree.rootId (.bag (.rule "n")), .append ⟨5⟩ (.node ⟨4⟩)]
    ⟨Tree.sheet "a\x7bb:c;\x7dd\x7be:f;\x7d", {}⟩).tree

theorem grown_borrowed : borrowed.Grown .standard := by
  refine .runAll (d := ⟨Tree.sheet "a\x7bb:c;\x7dd\x7be:f;\x7d", {}⟩) (Tree.grown_sheet _)
    (by decide) ?_
  simp only [List.forall_mem_cons]
  exact ⟨nofun, nofun, fun e he => absurd he List.not_mem_nil⟩

theorem attached_borrowed :
    borrowed.Attached ⟨2⟩ ∧ borrowed.Attached ⟨5⟩ ∧ borrowed.Attached ⟨6⟩ := by
  have hread : borrowed.Attached ⟨1⟩ :=
    .single (show borrowed.parent? ⟨1⟩ = some Tree.rootId by decide +kernel)
  have hbuilt : borrowed.Attached ⟨5⟩ :=
    .single (show borrowed.parent? ⟨5⟩ = some Tree.rootId by decide +kernel)
  exact ⟨.head (show borrowed.parent? ⟨2⟩ = some ⟨1⟩ by decide +kernel) hread, hbuilt,
    .head (show borrowed.parent? ⟨6⟩ = some ⟨5⟩ by decide +kernel) hbuilt⟩

/-- The semicolon of a declaration that was read is mapped. That of the copy in the built rule is
not, although its end is known: the rule has captured nothing. -/
theorem end_mapped_borrowed :
    (∃ m ∈ (MapPlan.generateString ⟨{}, {}, []⟩ borrowed).2, m.spot = ⟨0, 5⟩) ∧
      ∃ starts ends, (MapPlan.generateString ⟨{}, {}, []⟩ borrowed).2 =
        MapPlan.mappings ⟨{}, {}, []⟩ borrowed ((borrowed.chunks Tree.rootId).take 7) ++
          (starts ++ ends ++ MapPlan.mappingsFrom ⟨{}, {}, []⟩ borrowed ⟨0, 20⟩
            ((borrowed.chunks Tree.rootId).drop 8)) ∧
        ¬ ∃ m ∈ ends, m.spot = ⟨0, 19⟩ := by
  have horderly := grown_borrowed.orderly
  constructor
  -- A declaration with the semicolon it was read with.
  · have hread : (borrowed.get? ⟨2⟩).map (fun n => (borrowed.closing? ⟨2⟩ n,
        borrowed.isLoose ⟨2⟩ n, (MapPlan.origins ⟨{}, {}, []⟩ borrowed n).2.isSome)) =
          some (some ";", false, true) := by
      decide +kernel
    obtain ⟨n, hn, hfacts⟩ := Option.map_eq_some_iff.mp hread
    obtain ⟨hclosing, hloose, hknown⟩ : _ ∧ _ ∧ _ := by simpa using hfacts
    have hchunks : borrowed.chunks Tree.rootId = (borrowed.chunks Tree.rootId).take 1 ++
        .of ⟨2⟩ .whole ("b:c" ++ ";") :: (borrowed.chunks Tree.rootId).drop 2 := by
      decide +kernel
    obtain ⟨starts, ends, -, hmappings, -, -, hmapped⟩ :=
      (MapPlan.end_mapped ⟨{}, {}, []⟩ horderly.consistent horderly.rooted attached_borrowed.1 hn
        hclosing).2 _ _ _ _ hchunks (by decide)
    obtain ⟨m, hm, hspot⟩ := hmapped.mpr ⟨hloose, hknown⟩
    refine ⟨m, ?_, hspot.trans (by decide +kernel)⟩
    rw [hmappings]
    simp [hm]
  -- The last declaration of its rule, whose semicolon is inferred.
  · have hread : (borrowed.get? ⟨6⟩).map (fun n => (borrowed.closing? ⟨6⟩ n,
        borrowed.isLoose ⟨6⟩ n, (MapPlan.origins ⟨{}, {}, []⟩ borrowed n).2.isSome)) =
          some (some ";", true, true) := by
      decide +kernel
    obtain ⟨n, hn, hfacts⟩ := Option.map_eq_some_iff.mp hread
    obtain ⟨hclosing, hloose, -⟩ : _ ∧ _ ∧ _ := by simpa using hfacts
    have hchunks : borrowed.chunks Tree.rootId = (borrowed.chunks Tree.rootId).take 7 ++
        .of ⟨6⟩ .whole ("e:f" ++ ";") :: (borrowed.chunks Tree.rootId).drop 8 := by
      decide +kernel
    obtain ⟨starts, ends, -, hmappings, -, -, hmapped⟩ :=
      (MapPlan.end_mapped ⟨{}, {}, []⟩ horderly.consistent horderly.rooted attached_borrowed.2.2 hn
        hclosing).2 _ _ _ _ hchunks (by decide)
    have hfront : Spot.behind (Chunk.textOf ((borrowed.chunks Tree.rootId).take 7) ++ "e:f") =
        ⟨0, 19⟩ := by
      decide +kernel
    have hbehind : Spot.behind
        (Chunk.textOf ((borrowed.chunks Tree.rootId).take 7) ++ "e:f" ++ ";") = ⟨0, 20⟩ := by
      decide +kernel
    rw [hbehind] at hmappings
    rw [hfront, hloose] at hmapped
    exact ⟨starts, ends, hmappings, fun h => Bool.noConfusion (hmapped.mp h).1⟩

/-- Nothing is mapped to the semicolon of the copy, nor to the brace that closes the built rule. -/
theorem ends_lost_borrowed :
    borrowed.Grown .standard ∧ borrowed.Attached ⟨5⟩ ∧ borrowed.Attached ⟨6⟩ ∧
      (borrowed.chunks Tree.rootId).map (fun c => (c.text, c.part)) =
        [("a\x7b", some (⟨1⟩, .start)), ("b:c;", some (⟨2⟩, .whole)), ("\x7d", some (⟨1⟩, .stop)),
          ("d\x7b", some (⟨3⟩, .start)), ("e:f;", some (⟨4⟩, .whole)), ("\x7d", some (⟨3⟩, .stop)),
          ("n\x7b", some (⟨5⟩, .start)), ("e:f;", some (⟨6⟩, .whole)),
          ("\x7d", some (⟨5⟩, .stop))] ∧
      ∀ m ∈ (MapPlan.generateString ⟨{}, {}, []⟩ borrowed).2,
        m.spot ≠ ⟨0, 19⟩ ∧ m.spot ≠ ⟨0, 20⟩ :=
  ⟨grown_borrowed, attached_borrowed.2.1, attached_borrowed.2.2, by decide +kernel,
    by decide +kernel⟩

end MapPlan

end Stylesheet
