import Stylesheet.Output.Generate
import Stylesheet.Proofs.Draft.Print
import Stylesheet.Proofs.Outline.Read
import Stylesheet.Proofs.Text.Position
import Stylesheet.Proofs.Tree.Order

/-!
# The map of a tree that was not changed

The places of nodes are counted twice: in bytes of the text that is read, which an index of its
lines turns into lines and columns, and chunk by chunk in the text that is printed. For a stylesheet
that was read and not changed both texts are the same, and so are the places.

* `Spot.behind` is the place behind a text, and `Spot.advance_behind` moves it by a chunk.
* `Input.position_front` says that the index finds the same line and column.
* `MapPlan.identity_of_parse` is the result: every node but the root is mapped to where it is, with
  the exception of a declaration whose mark of old browsers is printed in front of it.
-/

namespace Stylesheet

open Text

/-! ### The place behind a text -/

namespace Spot

/-- The place behind a text that starts the output. -/
def behind (front : String) : Spot :=
  ⟨front.toList.count '\n', units (lastPart front.toList)⟩

/-- One more chunk. -/
theorem advance_behind (front text : String) :
    (behind front).advance text = behind (front ++ text) := by
  rw [advance, behind, behind, String.toList_append, List.count_append]
  by_cases h : '\n' ∈ text.toList
  · rw [if_pos (List.contains_iff_mem.mpr h), lastPart_append_of_mem _ h, lastLine,
      String.toList_ofList]
    rfl
  · rw [if_neg (fun hc => h (List.contains_iff_mem.mp hc)), lastPart_append_of_not_mem _ h,
      units_append, List.count_eq_zero.mpr h, Nat.add_zero]

end Spot

/-- Behind a part of its text, an input has the place that is counted on the part. -/
theorem Input.position_front {i : Input} (hlines : i.lines = LineIndex.ofText i.css.toList)
    {front rest : String} (hcss : i.css = front ++ rest) :
    i.position front.utf8ByteSize =
      ⟨front.utf8ByteSize, (Spot.behind front).line + 1, (Spot.behind front).column + 1⟩ := by
  rw [position, place, hlines, hcss, String.toList_append, utf8ByteSize_eq_bytes,
    LineIndex.position_front]
  rfl

/-! ### Marks of old browsers -/

/-- A declaration that was read from a mark on, with which `rest` starts; the mark is kept in front
of the declaration. -/
def Detail.HasMovedMark (d : Detail) (rest : String) : Prop :=
  d.kind = .declaration ∧ ∃ mark lead tail, (mark = "_" ∨ mark = "*") ∧ rest = mark ++ tail ∧
    d.raws.before = some (lead ++ mark)

/-- How many columns a node is printed behind the place where it was read. -/
def Detail.Shift (d : Detail) (rest : String) (columns : Nat) : Prop :=
  columns = 0 ∧ ¬ d.HasMovedMark rest ∨ columns = 1 ∧ d.HasMovedMark rest

theorem Spot.behind_mark (front : String) {mark : String} (hmark : mark = "_" ∨ mark = "*") :
    behind (front ++ mark) = ⟨(behind front).line, (behind front).column + 1⟩ := by
  rw [← advance_behind]
  rcases hmark with rfl | rfl <;> rfl

theorem Detail.hasMovedMark_of_before {d : Detail} {mark lead : String}
    (hkind : d.kind = .declaration) (hmark : mark = "_" ∨ mark = "*")
    (hbefore : d.before = lead ++ mark) (tail : String) : d.HasMovedMark (mark ++ tail) := by
  refine ⟨hkind, mark, lead, tail, hmark, rfl, ?_⟩
  rw [Detail.before] at hbefore
  cases hraw : d.raws.before with
  | some before => rw [hraw] at hbefore; exact congrArg some hbefore
  | none =>
    rw [hraw, Option.getD_none, eq_comm, String.append_eq_empty_iff] at hbefore
    rcases hmark with rfl | rfl <;> exact absurd hbefore.2 (by decide)

theorem Detail.not_hasMovedMark {d : Detail} {own : String} (hown : own ≠ "")
    (hcut : (cutHack own).1 = "") (more : String) : ¬ d.HasMovedMark (own ++ more) := by
  rintro ⟨-, mark, lead, tail, hmark, hrest, -⟩
  have hfirst := cutHack_append_fst hown more
  rw [hrest, hcut] at hfirst
  rcases hmark with rfl | rfl
  · rw [cutHack_append_fst (by decide)] at hfirst
    exact absurd hfirst (by decide)
  · rw [cutHack_append_fst (by decide)] at hfirst
    exact absurd hfirst (by decide)

/-- A node that was read at its place: it is printed where it was read, or behind a mark. -/
theorem Draft.Place.Read.mark {p : Draft.Place} {locate : Nat → Position} (h : p.Read locate)
    (more : String) :
    ∃ front hack, p.front = front ++ hack ∧ p.detail.StartsAt locate front.utf8ByteSize ∧
      (p.detail.kind = .declaration → hack ++ p.own ≠ "") ∧
      (hack = "" ∧ ¬ p.detail.HasMovedMark (hack ++ (p.own ++ more)) ∨
        (hack = "_" ∨ hack = "*") ∧ p.detail.HasMovedMark (hack ++ (p.own ++ more))) := by
  obtain ⟨front, hack, hfront, hstarts, hno, hdecl⟩ := h.starts
  refine ⟨front, hack, hfront, hstarts, fun hkind => (hdecl hkind).1, ?_⟩
  by_cases hempty : hack = ""
  · refine Or.inl ⟨hempty, fun hmoved => ?_⟩
    obtain ⟨hne, hcut, -⟩ := hdecl hmoved.1
    rw [hempty, String.empty_append] at hne hcut hmoved
    exact Detail.not_hasMovedMark hne hcut more hmoved
  · -- Only a declaration can have a mark, and then it is one of the two.
    have hkind : p.detail.kind = .declaration := by_contra fun hkind => hempty (hno hkind)
    obtain ⟨-, hcut, lead, hbefore⟩ := hdecl hkind
    have hmark : hack = "_" ∨ hack = "*" := by
      rw [cutHack_fst] at hcut
      split_ifs at hcut
      · exact Or.inl hcut.symm
      · exact Or.inr hcut.symm
      · exact absurd hcut.symm hempty
    exact Or.inr ⟨hmark, Detail.hasMovedMark_of_before hkind hmark hbefore _⟩

/-- A node that was read at its place is printed where it was read, up to its mark. -/
theorem Draft.Place.Read.shift {p : Draft.Place} {locate : Nat → Position} (h : p.Read locate)
    (more : String) :
    ∃ front rest columns, p.detail.StartsAt locate front.utf8ByteSize ∧
      p.front ++ p.own ++ more = front ++ rest ∧ p.detail.Shift rest columns ∧
      Spot.behind p.front = ⟨(Spot.behind front).line, (Spot.behind front).column + columns⟩ := by
  obtain ⟨front, hack, hfront, hstarts, -, ⟨rfl, hnone⟩ | ⟨hmark, hmoved⟩⟩ := h.mark more
  · refine ⟨front, _, 0, hstarts, ?_, Or.inl ⟨rfl, hnone⟩, ?_⟩
    · rw [hfront]
      simp only [String.append_assoc]
    · rw [hfront, String.append_empty]
      rfl
  · refine ⟨front, _, 1, hstarts, ?_, Or.inr ⟨rfl, hmoved⟩, ?_⟩
    · rw [hfront]
      simp only [String.append_assoc]
    · rw [hfront]
      exact Spot.behind_mark front hmark

/-! ### The mappings of chunks -/

namespace MapPlan

variable (p : MapPlan) (t : Tree)

/-- The mappings of a chunk are among those of all chunks. -/
theorem mem_mappingsFrom {before after : List Chunk} {c : Chunk} {m : Mapping} (front : String)
    (hm : m ∈ p.chunkMappings t (Spot.behind (front ++ Chunk.textOf before))
      (Spot.behind (front ++ Chunk.textOf before ++ c.text)) c) :
    m ∈ p.mappingsFrom t (Spot.behind front) (before ++ c :: after) := by
  induction before generalizing front with
  | nil =>
    rw [Chunk.textOf_nil, String.append_empty] at hm
    rw [List.nil_append, mappingsFrom, Spot.advance_behind]
    exact List.mem_append_left _ hm
  | cons b before ih =>
    rw [Chunk.textOf_cons, ← String.append_assoc] at hm
    rw [List.cons_append, mappingsFrom, Spot.advance_behind]
    exact List.mem_append_right _ (ih _ hm)

/-- The mapping of the chunk that a node starts with. -/
def IsStart (x : NodeId) (m : Mapping) : Prop :=
  m ∈ (p.generateString t).2 ∧ ∃ before phase own after,
    t.chunks Tree.rootId = before ++ Chunk.of x phase own :: after ∧ phase ≠ .stop ∧
    m.spot = Spot.behind (Chunk.textOf before)

/-- The output of the tree is `css`, and every node but the root has a mapping from the line and
column where it was read to the same line and column. Only for a declaration whose mark was moved in
front of it, the column of the output is one larger. -/
structure IsIdentity (css : String) : Prop where
  text : (p.generateString t).1 = css
  starts : ∀ x n, t.get? x = some n → x ≠ Tree.rootId →
    ∃ i start stop front rest columns,
      t.inputs[0]? = some i ∧ n.source = some ⟨0, some start, stop⟩ ∧
      css = front ++ rest ∧ start.offset = front.utf8ByteSize ∧ n.detail.Shift rest columns ∧
      p.IsStart t x ⟨⟨start.line - 1, start.column - 1 + columns⟩,
        ⟨p.sourceName i, start.line - 1, start.column - 1, none⟩⟩

variable {p t} in
/-- A node that was read comes from its positions in the input. -/
theorem origins_of_source {n : Node} {s : Source} {i : Input} (hsource : n.source = some s)
    (hinput : t.inputs[s.input]? = some i) :
    p.origins t n = (s.start.map (p.origin i), s.stop.map (p.origin i)) := by
  rw [origins, hsource]
  dsimp only
  rw [hinput]

/-- Without a map of the input, a position is its own origin. -/
theorem origin_of_unmapped {i : Input} (hmap : i.map = none) (position : Position) :
    p.origin i position = ⟨p.sourceName i, position.line - 1, position.column - 1, none⟩ := by
  rw [origin, hmap]
  rfl

/-- Without a map of the input, a node is mapped to where it was read. -/
theorem isStart_of_startsAt {x : NodeId} {n : Node} {i : Input} {start : Position}
    {stop : Option Position} {place : Draft.Place} (hn : t.get? x = some n)
    (hsource : n.source = some ⟨0, some start, stop⟩) (hinput : t.inputs[0]? = some i)
    (hmap : i.map = none) (hstarts : Chunk.StartsAt "" (t.chunks Tree.rootId) x place) :
    p.IsStart t x ⟨Spot.behind place.front,
      ⟨p.sourceName i, start.line - 1, start.column - 1, none⟩⟩ := by
  obtain ⟨before, after, phase, hchunks, hphase, hfront⟩ := hstarts
  rw [String.empty_append] at hfront
  refine ⟨?_, before, phase, place.own, after, hchunks, hphase, by rw [hfront]⟩
  rw [generateString, mappings, hchunks]
  refine p.mem_mappingsFrom t "" ?_
  rw [String.empty_append, ← hfront, chunkMappings]
  have horigins : (p.origins t n).1 =
      some ⟨p.sourceName i, start.line - 1, start.column - 1, none⟩ := by
    rw [origins_of_source hsource hinput, Option.map_some, p.origin_of_unmapped hmap]
  dsimp only [Chunk.of]
  rw [hn]
  dsimp only
  rw [horigins, if_neg hphase]
  exact List.mem_append_left _ (List.mem_singleton.mpr rfl)

end MapPlan

/-! ### Stylesheets that were read -/

/-- Without comments that name maps, none is taken out. -/
theorem Tree.withoutLinks_eq_self {t : Tree}
    (h : ∀ x ∈ t.children rootId, t.namesMap x = false) : t.withoutLinks = t := by
  have hnone : (t.children rootId).reverse.filter t.namesMap = [] := by
    refine List.filter_eq_nil_iff.mpr fun x hx => ?_
    rw [h x (List.mem_reverse.mp hx)]
    exact Bool.false_ne_true
  rw [withoutLinks, hnone]
  rfl

/-- The only root is the one on top. -/
theorem Tree.kind?_ne_root {t : Tree} (ht : t.Consistent) {x : NodeId}
    (hx : x ∈ (t.shape rootId).toList) (hne : x ≠ rootId) : t.kind? x ≠ some .root := by
  rcases Relation.ReflTransGen.cases_head (ht.under_of_mem_shapeWithin hx) with heq | ⟨p, hp, -⟩
  · exact absurd heq hne
  · exact ht.nested p x (ht.mem_children_iff.mpr hp)

/-- A node of a stylesheet that was read is printed where it was read, up to its mark. -/
theorem startsAt_of_outlineText {i : Input} (hlines : i.lines = LineIndex.ofText i.css.toList)
    {b : Draft} (hb : outlineText i.position i.css = .ok b) {x : NodeId} {n : Node}
    (hn : (Tree.ofDraft i b).get? x = some n) (hne : x ≠ Tree.rootId) :
    ∃ place start stop front rest columns,
      Chunk.StartsAt "" ((Tree.ofDraft i b).chunks Tree.rootId) x place ∧
      n.source = some ⟨0, some start, stop⟩ ∧
      i.css = front ++ rest ∧ start.offset = front.utf8ByteSize ∧ n.detail.Shift rest columns ∧
      Spot.behind place.front = ⟨start.line - 1, start.column - 1 + columns⟩ := by
  obtain ⟨hcaptured, -, htext⟩ := outlineText_eq_ok hb
  obtain ⟨hprinted, hstarts⟩ := Tree.chunks_ofDraft i hcaptured
  have hconsistent := Tree.consistent_ofDraft i (hcaptured.mono fun d kids hd => hd.toSound)
  have hx := Tree.mem_shape_ofDraft hn
  obtain ⟨p, hp, hdetail, hat⟩ := hstarts x hx (Tree.kind?_ne_root hconsistent hx hne)
  replace hdetail : n.detail = p.detail := by
    rw [hn] at hdetail
    exact Option.some.inj hdetail
  have hread : p.Read i.position :=
    outlineText_read (Input.position_zero hlines) hb p hp
  obtain ⟨before, after, phase, hchunks, -, hfront⟩ := id hat
  -- What is printed from the start of the node on is what was read from there on.
  have hwhole : p.front ++ p.own ++ Chunk.textOf after = i.css := by
    rw [← htext, ← hprinted, hchunks, hfront]
    simp [String.append_assoc]
  obtain ⟨front, rest, columns, ⟨stop, hsource⟩, hsplit, hshift, hspot⟩ :=
    hread.shift (Chunk.textOf after)
  rw [hwhole] at hsplit
  rw [Input.position_front hlines hsplit, ← hdetail] at hsource
  rw [← hdetail] at hshift
  exact ⟨p, _, stop, front, rest, columns, hat, hsource, hsplit, rfl, hshift, hspot⟩

/-- The map of a stylesheet that was read and not changed is the identity, when the stylesheet came
without a map and no comment at its top names one; then no comment is taken out of it either. -/
theorem MapPlan.identity_of_parse {w : Workspace} {css : String} {options : ParseOptions} {t : Tree}
    (h : (parse w css options).1 = .ok t) (hmaps : ∀ i ∈ t.inputs, i.map = none)
    (hlinks : ∀ x ∈ t.children Tree.rootId, t.namesMap x = false) (e : Environment)
    (settings : ProcessOptions) :
    (t.generate e settings).2 = t ∧
      (MapPlan.ofTree e t settings).IsIdentity t (Input.stripBom css).1 := by
  obtain ⟨i, w', b, hcreate, hb, rfl⟩ := parse_eq_ofDraft h
  obtain ⟨_, _, _, -, hinput⟩ := create_eq_ok hcreate
  have hlines : i.lines = LineIndex.ofText i.css.toList := by rw [hinput]; rfl
  have hcss : i.css = (Input.stripBom css).1 := by rw [hinput]; rfl
  obtain ⟨hcaptured, -, htext⟩ := outlineText_eq_ok hb
  refine ⟨?_, ?_, fun x n hn hne => ?_⟩
  -- With no link to remove, what is printed is the tree itself.
  · rw [Tree.generate, Tree.withoutLinks_eq_self hlinks]
    dsimp only
    split_ifs <;> rfl
  · exact (Tree.chunks_ofDraft i hcaptured).1.trans (htext.trans hcss)
  · obtain ⟨place, start, stop, front, rest, columns, hat, hsource, hsplit, hoffset, hshift,
      hspot⟩ := startsAt_of_outlineText hlines hb hn hne
    have hstart := (MapPlan.ofTree e (Tree.ofDraft i b) settings).isStart_of_startsAt _ hn hsource
      rfl (hmaps i (by simp [Tree.ofDraft])) hat
    rw [hspot] at hstart
    exact ⟨i, start, stop, front, rest, columns, rfl, hsource, hcss ▸ hsplit, hoffset, hshift,
      hstart⟩

/-- A byte order mark, a character of two units, a line break and two marks of old browsers. -/
theorem MapPlan.identity_of_marks :
    ∃ t, (parse {} "\uFEFF/*𝒳*/a\x7b*b:c;\n _d:e\x7d" {}).1 = .ok t ∧
      ((MapPlan.ofTree {} t {}).generateString t).2.map (fun m => (m.spot, m.origin.column)) =
        [(⟨0, 0⟩, 0), (⟨0, 5⟩, 5), (⟨0, 6⟩, 6), (⟨0, 9⟩, 8), (⟨0, 12⟩, 12), (⟨1, 2⟩, 1),
          (⟨1, 5⟩, 5)] ∧
      (MapPlan.ofTree {} t {}).IsIdentity t "/*𝒳*/a\x7b*b:c;\n _d:e\x7d" := by
  have hread : (parse {} "\uFEFF/*𝒳*/a\x7b*b:c;\n _d:e\x7d" {}).1.toOption.any (fun t =>
      t.inputs.all (fun i => i.map = none) && (t.children Tree.rootId).all (!t.namesMap ·) &&
        ((MapPlan.ofTree {} t {}).generateString t).2.map (fun m => (m.spot, m.origin.column)) ==
          [(⟨0, 0⟩, 0), (⟨0, 5⟩, 5), (⟨0, 6⟩, 6), (⟨0, 9⟩, 8), (⟨0, 12⟩, 12), (⟨1, 2⟩, 1),
            (⟨1, 5⟩, 5)]) = true := by
    decide +kernel
  cases ht : (parse {} "\uFEFF/*𝒳*/a\x7b*b:c;\n _d:e\x7d" {}).1 with
  | error e => rw [ht] at hread; cases hread
  | ok t =>
    rw [ht] at hread
    simp only [Except.toOption, Option.any_some, Bool.and_eq_true, beq_iff_eq] at hread
    obtain ⟨⟨hmaps, hlinks⟩, hspots⟩ := hread
    refine ⟨t, rfl, hspots, (MapPlan.identity_of_parse ht ?_ ?_ {} {}).2⟩
    · intro i hi
      simpa using Array.all_eq_true_iff_forall_mem.mp hmaps i hi
    · intro x hx
      simpa using List.all_eq_true.mp hlinks x hx

end Stylesheet
