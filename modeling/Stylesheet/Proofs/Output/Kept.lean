import Stylesheet.Proofs.Output.Spots
import Stylesheet.Proofs.Print.Within

/-!
# Mappings that are kept

Mappings are sorted by their places and only the first one at each place is kept. Sorting is stable,
so that this is the one that was recorded first (`Mapping.find?_settled`). Where a node starts, that
is not always its own mapping: the end of a node that was not read is mapped one column behind its
last character, and that is where the next node starts when nothing is printed between them.

Only chunks at the end of what is printed in front of a node have mappings at its start
(`Chunk.atEnd`), and `MapPlan.originsBehind` says which. So `MapPlan.settled_at_start` says what is
left at the place where a node starts: what the first of these mappings leads to, and where the node
comes from if there is none.
-/

namespace Stylesheet

/-! ### Sorting and thinning out -/

namespace Mapping

theorem place_eq_iff {m m' : Mapping} : m.place = m'.place ↔ m.spot = m'.spot := by
  obtain ⟨⟨line, column⟩, origin⟩ := m
  rw [place, place, Prod.mk.injEq, Spot.mk.injEq]

theorem placeLe_trans (a b c : Mapping) (hab : placeLe a.place b.place = true)
    (hbc : placeLe b.place c.place = true) : placeLe a.place c.place = true := by
  rw [placeLe_iff] at *
  omega

theorem placeLe_total (a b : Mapping) :
    (placeLe a.place b.place || placeLe b.place a.place) = true := by
  rw [Bool.or_eq_true, placeLe_iff, placeLe_iff]
  omega

/-- Sorting leaves the mappings at one place in their order. -/
theorem filter_mergeSort (place : Nat × Nat) (ms : List Mapping) :
    (ms.mergeSort fun a b => placeLe a.place b.place).filter (·.place == place) =
      ms.filter (·.place == place) := by
  have hsame : (ms.filter (·.place == place)).Pairwise
      fun a b => placeLe a.place b.place = true := by
    refine List.pairwise_of_forall_mem_list fun a ha b hb => ?_
    have ha := (List.mem_filter.mp ha).2
    have hb := (List.mem_filter.mp hb).2
    rw [beq_iff_eq] at ha hb
    rw [ha, hb, placeLe_iff]
    omega
  have hsub := (List.sublist_mergeSort placeLe_trans placeLe_total hsame
    List.filter_sublist).filter (·.place == place)
  simp only [List.filter_filter, Bool.and_self] at hsub
  refine (hsub.eq_of_length ?_).symm
  exact ((List.mergeSort_perm ms _).filter _).length_eq.symm

/-- Of all mappings at one place, the one that was recorded first is kept. -/
theorem find?_settled (place : Nat × Nat) (ms : List Mapping) :
    (settled ms).find? (·.place == place) = ms.find? (·.place == place) := by
  rw [settled, find?_firsts, ← List.head?_filter, filter_mergeSort, List.head?_filter]

/-- Mappings that are left behind one that is kept are mappings that stood behind it. -/
theorem firstsAfter_sublist (kept : Mapping) (ms : List Mapping) :
    (firsts.firstsAfter kept ms).Sublist ms := by
  induction ms generalizing kept with
  | nil => exact .slnil
  | cons m ms ih =>
    rw [firsts.firstsAfter]
    split_ifs
    · exact (ih kept).cons m
    · exact (ih m).cons_cons m

/-- What is left of sorted mappings behind one that is kept has other places. -/
theorem nodup_firstsAfter {kept : Mapping} {ms : List Mapping}
    (h : (kept :: ms).Pairwise fun a b => placeLe a.place b.place = true) :
    (kept :: firsts.firstsAfter kept ms).Pairwise fun a b => a.place ≠ b.place := by
  induction ms generalizing kept with
  | nil => exact List.pairwise_singleton _ _
  | cons m ms ih =>
    obtain ⟨hkept, hms⟩ := List.pairwise_cons.mp h
    rw [List.forall_mem_cons] at hkept
    rw [firsts.firstsAfter]
    split_ifs with hsame
    · exact ih (List.pairwise_cons.mpr ⟨hkept.2, hms.of_cons⟩)
    · refine List.pairwise_cons.mpr ⟨?_, ih hms⟩
      rw [List.forall_mem_cons]
      refine ⟨Ne.symm hsame, fun b hb heq => hsame ?_⟩
      -- One that stands behind `m` cannot have the place of one in front of it.
      have hle := (List.pairwise_cons.mp hms).1 b ((firstsAfter_sublist m ms).mem hb)
      have hfront := hkept.1
      rw [← heq] at hle
      rw [placeLe_iff] at hle hfront
      refine Prod.ext ?_ ?_ <;> omega

/-- No two of the mappings that are left have the same place. -/
theorem nodup_settled (ms : List Mapping) :
    (settled ms).Pairwise fun a b => a.place ≠ b.place := by
  have hsorted := List.pairwise_mergeSort placeLe_trans placeLe_total ms
  rw [settled]
  cases hms : ms.mergeSort fun a b => placeLe a.place b.place with
  | nil => exact .nil
  | cons m rest =>
    rw [hms] at hsorted
    exact nodup_firstsAfter hsorted

/-- A mapping is left if it is the first that was recorded at its place. -/
theorem mem_settled_iff {m : Mapping} {ms : List Mapping} :
    m ∈ settled ms ↔ ms.find? (·.spot = m.spot) = some m := by
  have hspot : (fun other : Mapping => decide (other.spot = m.spot)) =
      fun other => other.place == m.place := by
    funext other
    rw [Bool.eq_iff_iff, decide_eq_true_iff, beq_iff_eq, place_eq_iff]
  rw [hspot, ← find?_settled]
  -- At one place one mapping is kept, so a kept mapping is the first one at its place.
  refine ⟨fun hm => ?_, List.mem_of_find?_eq_some⟩
  obtain ⟨front, back, hsplit⟩ := List.append_of_mem hm
  have hnodup := nodup_settled ms
  rw [hsplit, List.pairwise_append] at hnodup
  rw [hsplit, List.find?_append]
  have hnone : front.find? (·.place == m.place) = none := by
    refine List.find?_eq_none.mpr fun a ha => ?_
    rw [beq_iff_eq]
    exact hnodup.2.2 a ha m List.mem_cons_self
  rw [hnone, Option.none_or, List.find?_cons_of_pos]
  exact beq_self_eq_true _

end Mapping

/-! ### Mappings at the end of what is printed -/

theorem Mapping.filter_singleton (m : Mapping) (s : Spot) :
    [m].filter (·.spot = s) = if m.spot = s then [m] else [] := by
  rw [List.filter_cons, List.filter_nil]
  simp only [decide_eq_true_eq]

theorem Chunk.eq_empty_of_textOf {c : Chunk} {cs : List Chunk} (h : Chunk.textOf (c :: cs) = "") :
    c.text = "" ∧ Chunk.textOf cs = "" := by
  rw [Chunk.textOf_cons] at h
  exact String.append_eq_empty_iff.mp h

/-- The chunks at the end of what is printed: the last one that has text, and those behind it. -/
def Chunk.atEnd : List Chunk → List Chunk
  | [] => []
  | c :: cs => if Chunk.textOf cs = "" then c :: cs else atEnd cs

theorem Chunk.atEnd_of_textOf {cs : List Chunk} (h : Chunk.textOf cs = "") :
    Chunk.atEnd cs = cs := by
  cases cs with
  | nil => rfl
  | cons c cs => rw [atEnd, if_pos (Chunk.eq_empty_of_textOf h).2]

namespace MapPlan

variable (p : MapPlan) (t : Tree)

/-- What the mappings lead to that a chunk has at its end, which is the given place. A chunk without
text starts there as well. The end of a node that was read is mapped to the column in front, unless
there is none. -/
def originsBehind (spot : Spot) (c : Chunk) : List MapOrigin :=
  match c.part with
  | none => []
  | some (id, phase) =>
    match t.get? id with
    | none => []
    | some n =>
      let atStart :=
        if phase ≠ .stop ∧ c.text = "" then [(p.origins t n).1.getD MapOrigin.missing] else []
      let atStop :=
        if phase = .start ∨ endsOpen t id n then []
        else
          match (p.origins t n).2 with
          | none => [MapOrigin.missing]
          | some origin => if spot.column = 0 then [origin] else []
      atStart ++ atStop

variable {t}

theorem spot_behind_eq_iff (front text : String) :
    Spot.behind front = Spot.behind (front ++ text) ↔ text = "" := by
  refine ⟨fun h => by_contra fun hne => ?_, ?_⟩
  · have hbefore := Spot.before_behind front hne
    rw [← h, Spot.Before] at hbefore
    omega
  · rintro rfl
    rw [String.append_empty]

theorem back_eq_iff (s : Spot) : s.back = s ↔ s.column = 0 := by
  obtain ⟨line, column⟩ := s
  rw [Spot.back, Spot.mk.injEq]
  dsimp only
  omega

/-- The mappings that a chunk has at its end. -/
theorem filter_chunkMappings (front : String) (c : Chunk) :
    ((p.chunkMappings t (Spot.behind front) (Spot.behind (front ++ c.text)) c).filter
        (·.spot = Spot.behind (front ++ c.text))).map Mapping.origin =
      p.originsBehind t (Spot.behind (front ++ c.text)) c := by
  rw [chunkMappings, originsBehind]
  cases c.part with
  | none => rfl
  | some part =>
    obtain ⟨id, phase⟩ := part
    dsimp only
    cases t.get? id with
    | none => rfl
    | some n =>
      dsimp only
      rw [List.filter_append, List.map_append]
      congr 1
      · -- The start stands at the end when there is no text.
        by_cases hphase : phase = .stop
        · rw [if_pos hphase, if_neg fun h => h.1 hphase]
          rfl
        · rw [if_neg hphase, Mapping.filter_singleton]
          simp only [spot_behind_eq_iff]
          by_cases htext : c.text = ""
          · rw [if_pos htext, if_pos ⟨hphase, htext⟩]
            rfl
          · rw [if_neg htext, if_neg fun h => htext h.2]
            rfl
      · by_cases hopen : phase = .start ∨ endsOpen t id n = true
        · rw [if_pos (by simpa using hopen), if_pos hopen]
          rfl
        · rw [if_neg (by simpa using hopen), if_neg hopen]
          cases (p.origins t n).2 with
          | none =>
            dsimp only
            rw [Mapping.filter_singleton, if_pos rfl]
            rfl
          | some origin =>
            -- One column back is the same place only at the start of a line.
            dsimp only
            rw [Mapping.filter_singleton]
            simp only [back_eq_iff]
            split_ifs <;> rfl

/-- No mapping of a chunk stands behind its end. -/
theorem not_before_of_mem_chunkMappings {front : String} {c : Chunk} {m : Mapping}
    (hm : m ∈ p.chunkMappings t (Spot.behind front) (Spot.behind (front ++ c.text)) c) :
    ¬ (Spot.behind (front ++ c.text)).Before m.spot := by
  have hstart := Spot.not_behind_before front c.text
  rw [chunkMappings] at hm
  cases hpart : c.part with
  | none => rw [hpart] at hm; cases hm
  | some part =>
    rw [hpart] at hm
    obtain ⟨id, phase⟩ := part
    dsimp only at hm
    cases hn : t.get? id with
    | none => rw [hn] at hm; cases hm
    | some n =>
      rw [hn] at hm
      dsimp only at hm
      -- The start of the chunk, or its end; the end may be one column further on.
      rcases List.mem_append.mp hm with hm | hm
      · split_ifs at hm
        · cases hm
        · rw [List.mem_singleton.mp hm]
          exact hstart
      · split_ifs at hm
        · cases hm
        · cases hstop : (p.origins t n).2 with
          | none =>
            rw [hstop] at hm
            rw [List.mem_singleton.mp hm, Spot.Before]
            dsimp only
            omega
          | some origin =>
            rw [hstop] at hm
            rw [List.mem_singleton.mp hm, Spot.Before, Spot.back]
            dsimp only
            omega

/-- When something is printed behind a chunk, it has no mapping at the end of what is printed. -/
theorem filter_chunkMappings_of_ne (front : String) (c : Chunk) {more : String}
    (hmore : more ≠ "") :
    (p.chunkMappings t (Spot.behind front) (Spot.behind (front ++ c.text)) c).filter
      (·.spot = Spot.behind (front ++ c.text ++ more)) = [] := by
  refine List.filter_eq_nil_iff.mpr fun m hm => ?_
  rw [decide_eq_true_iff]
  intro heq
  have hend := p.not_before_of_mem_chunkMappings hm
  rw [heq] at hend
  exact hend (Spot.before_behind _ hmore)

/-- The mappings of chunks that stand at their end. -/
theorem filter_mappingsFrom (front : String) (cs : List Chunk) :
    ((p.mappingsFrom t (Spot.behind front) cs).filter
        (·.spot = Spot.behind (front ++ Chunk.textOf cs))).map Mapping.origin =
      (Chunk.atEnd cs).flatMap (p.originsBehind t (Spot.behind (front ++ Chunk.textOf cs))) := by
  induction cs generalizing front with
  | nil => rfl
  | cons c cs ih =>
    have hrest := ih (front ++ c.text)
    rw [mappingsFrom, Spot.advance_behind, Chunk.textOf_cons, ← String.append_assoc,
      List.filter_append, List.map_append, hrest, Chunk.atEnd]
    by_cases hcs : Chunk.textOf cs = ""
    · rw [if_pos hcs, Chunk.atEnd_of_textOf hcs, hcs, String.append_empty, filter_chunkMappings,
        List.flatMap_cons]
    · rw [if_neg hcs, filter_chunkMappings_of_ne _ _ _ hcs]
      rfl

theorem find?_eq_head? (t : Tree) (front : String) (cs : List Chunk) :
    ((p.mappingsFrom t (Spot.behind front) cs).find?
        (·.spot = Spot.behind (front ++ Chunk.textOf cs))).map Mapping.origin =
      ((Chunk.atEnd cs).flatMap
        (p.originsBehind t (Spot.behind (front ++ Chunk.textOf cs)))).head? := by
  rw [← filter_mappingsFrom, List.head?_map, List.head?_filter]

/-- **What is left where a node starts.** Every attached node but the root starts with a chunk of
its own. The one mapping that is left where it starts leads to what the first mapping leads to that
a chunk in front of the node has there; only if there is none, it leads to the place of its input
where the node was read. -/
theorem settled_at_start (ht : t.Consistent) (hroot : t.kind? Tree.rootId = some .root)
    {x : NodeId} (hx : t.Attached x) (hne : x ≠ Tree.rootId) {n : Node} (hn : t.get? x = some n)
    {s : Source} (hsource : n.source = some s) {position : Position}
    (hstart : s.start = some position) {i : Input} (hinput : t.inputs[s.input]? = some i)
    (hmap : i.map = none) :
    (∃ before phase text after,
      t.chunks Tree.rootId = before ++ .of x phase text :: after ∧ phase ≠ .stop) ∧
    ∀ before phase text after,
      t.chunks Tree.rootId = before ++ .of x phase text :: after → phase ≠ .stop →
      ∀ m, m ∈ Mapping.settled (p.generateString t).2 ∧
          m.spot = Spot.behind (Chunk.textOf before) ↔
        m = ⟨Spot.behind (Chunk.textOf before),
          ((Chunk.atEnd before).flatMap
              (p.originsBehind t (Spot.behind (Chunk.textOf before)))).head?.getD
            ⟨p.sourceName i, position.line - 1, position.column - 1, none⟩⟩ := by
  refine ⟨ht.exists_start hroot hx hne, fun before phase text after hchunks hphase m => ?_⟩
  have horigins : (p.origins t n).1.getD MapOrigin.missing =
      ⟨p.sourceName i, position.line - 1, position.column - 1, none⟩ := by
    rw [origins_of_source hsource hinput, hstart, Option.map_some, Option.getD_some,
      p.origin_of_unmapped hmap]
  obtain ⟨ms, hms⟩ := p.exists_chunkMappings_eq_cons (c := .of x phase text) rfl hphase hn
    (Spot.behind (Chunk.textOf before)) (Spot.behind (Chunk.textOf before ++ text))
  rw [horigins] at hms
  have hfind := p.find?_eq_head? t "" before
  rw [String.empty_append] at hfind
  -- The first mapping at this place is one of a chunk in front, or else that of the node.
  have hfirst : ((p.generateString t).2.find? (·.spot = Spot.behind (Chunk.textOf before))) =
      some ⟨Spot.behind (Chunk.textOf before),
        ((Chunk.atEnd before).flatMap
            (p.originsBehind t (Spot.behind (Chunk.textOf before)))).head?.getD
          ⟨p.sourceName i, position.line - 1, position.column - 1, none⟩⟩ := by
    rw [generateString, hchunks, mappings_append_cons, Chunk.text_of, hms, List.find?_append,
      ← hfind, mappings, show ({} : Spot) = Spot.behind "" from rfl]
    cases hbefore : (p.mappingsFrom t (Spot.behind "") before).find?
        (·.spot = Spot.behind (Chunk.textOf before)) with
    | none => simp
    | some first =>
      have hspot := List.find?_some hbefore
      rw [decide_eq_true_iff] at hspot
      rw [Option.some_or, Option.map_some, Option.getD_some, ← hspot]
  constructor
  · rintro ⟨hm, hspot⟩
    rw [Mapping.mem_settled_iff, hspot, hfirst] at hm
    exact (Option.some.inj hm).symm
  · rintro rfl
    exact ⟨Mapping.mem_settled_iff.mpr hfirst, rfl⟩

/-- A rule that was built between two that were read, with nothing printed between them. -/
def tightRules : Tree :=
  (Edit.runAll [.insertBefore ⟨2⟩ (.bag (.rule "c"))] ⟨Tree.sheet "a\x7b\x7db\x7b\x7d", {}⟩).tree

theorem grown_tightRules : tightRules.Grown .standard := by
  refine .runAll (d := ⟨Tree.sheet "a\x7b\x7db\x7b\x7d", {}⟩) (Tree.grown_sheet _) (by decide) ?_
  rw [List.forall_mem_singleton]
  exact nofun

theorem attached_tightRules : tightRules.Attached ⟨2⟩ :=
  .single (show tightRules.parent? ⟨2⟩ = some Tree.rootId by decide +kernel)

/-- The last rule starts behind the last character of the one that was built, which is where the end
of that one is mapped. -/
theorem settled_at_start_tightRules :
    tightRules.chunks Tree.rootId = (tightRules.chunks Tree.rootId).take 4 ++
        .of ⟨2⟩ .start "b\x7b" :: (tightRules.chunks Tree.rootId).drop 5 ∧
      ∀ m, m ∈ Mapping.settled (MapPlan.generateString ⟨{}, {}, []⟩ tightRules).2 ∧
        m.spot = ⟨0, 6⟩ ↔ m = ⟨⟨0, 6⟩, MapOrigin.missing⟩ := by
  have hchunks : tightRules.chunks Tree.rootId = (tightRules.chunks Tree.rootId).take 4 ++
      .of ⟨2⟩ .start "b\x7b" :: (tightRules.chunks Tree.rootId).drop 5 := by
    decide +kernel
  have hspot : Spot.behind (Chunk.textOf ((tightRules.chunks Tree.rootId).take 4)) = ⟨0, 6⟩ := by
    decide +kernel
  -- The rule in front has an end without origin at this very place.
  have horigins : (Chunk.atEnd ((tightRules.chunks Tree.rootId).take 4)).flatMap
      (MapPlan.originsBehind ⟨{}, {}, []⟩ tightRules ⟨0, 6⟩) = [MapOrigin.missing] := by
    decide +kernel
  obtain ⟨n, hn⟩ : ∃ n, tightRules.get? ⟨2⟩ = some n :=
    Option.isSome_iff_exists.mp (by decide +kernel)
  obtain ⟨i, hi⟩ : ∃ i, tightRules.inputs[0]? = some i :=
    Option.isSome_iff_exists.mp (by decide +kernel)
  have hsource : n.source = some ⟨0, some ⟨3, 1, 4⟩, some ⟨6, 1, 6⟩⟩ := by
    have hread : (tightRules.get? ⟨2⟩).map Node.source =
        some (some ⟨0, some ⟨3, 1, 4⟩, some ⟨6, 1, 6⟩⟩) := by
      decide +kernel
    rw [hn] at hread
    exact Option.some.inj hread
  have hmap : i.map = none := by
    have hread : tightRules.inputs[0]?.all (·.map = none) = true := by decide +kernel
    rw [hi] at hread
    simpa using hread
  have horderly := grown_tightRules.orderly
  have hsettled := (MapPlan.settled_at_start ⟨{}, {}, []⟩ horderly.consistent horderly.rooted
    attached_tightRules (by decide) hn hsource rfl hi hmap).2 _ _ _ _ hchunks (by decide)
  rw [hspot, horigins] at hsettled
  exact ⟨hchunks, hsettled⟩

/-- The last rule of the sheet was read, and no mapping is left that leads to where. -/
theorem start_lost_tightRules :
    tightRules.Grown .standard ∧ tightRules.Attached ⟨2⟩ ∧
      (tightRules.get? ⟨2⟩).map Node.source =
        some (some ⟨0, some ⟨3, 1, 4⟩, some ⟨6, 1, 6⟩⟩) ∧
      (tightRules.chunks Tree.rootId).map (fun c => (c.text, c.part)) =
        [("a\x7b", some (⟨1⟩, .start)), ("\x7d", some (⟨1⟩, .stop)),
          ("c\x7b", some (⟨3⟩, .start)), ("\x7d", some (⟨3⟩, .stop)),
          ("b\x7b", some (⟨2⟩, .start)), ("\x7d", some (⟨2⟩, .stop))] ∧
      ∀ m ∈ Mapping.settled (MapPlan.generateString ⟨{}, {}, []⟩ tightRules).2,
        ¬ (m.spot = ⟨0, 6⟩ ∧ m.origin.line = 0 ∧ m.origin.column = 3) := by
  refine ⟨grown_tightRules, attached_tightRules, by decide +kernel, by decide +kernel, ?_⟩
  rw [Mapping.settled_of_inOrder (by decide +kernel)]
  decide +kernel

end MapPlan

end Stylesheet
