import Stylesheet.Proofs.Chain.Outline
import Stylesheet.Proofs.Chain.Tree
import Stylesheet.Proofs.Output.Entries

/-!
# Where nodes start

A node starts somewhere in the text that it was read from, and its own text starts somewhere in what
is printed. For a stylesheet that was read and not changed, both are the same place, up to the mark
of a declaration (`Tree.PrintedFrom`). The map of such a stylesheet has an entry for every node
(`MapPlan.leads_of_holdsRead`).

A node that was read again, from a text that goes on behind the first one, starts where it started
(`Detail.StartsLike`).
-/

namespace Stylesheet

open Text

/-! ### Reading -/

/-- The position behind a part of a text. -/
def Position.behind (front : String) : Position :=
  ⟨front.utf8ByteSize, (Spot.behind front).line + 1, (Spot.behind front).column + 1⟩

/-- The place some columns to the right. -/
def Spot.right (s : Spot) (columns : Nat) : Spot :=
  ⟨s.line, s.column + columns⟩

/-- The node was read behind `front`, where `rest` is left of the text, and has its own text a
number of columns behind that. -/
structure Detail.ReadBehind (d : Detail) (front rest : String) (columns : Nat) : Prop where
  source : ∃ stop, d.source = some ⟨0, some (.behind front), stop⟩
  shift : d.Shift rest columns

/-- Every node of a text was read somewhere in it, and is printed there. -/
theorem Draft.readBehind_of_mem_places {i : Input}
    (hlines : i.lines = LineIndex.ofText i.css.toList) {b : Draft}
    (hb : outlineText i.position i.css = .ok b) {p : Place} (hp : p ∈ places "" false b) :
    ∃ front rest columns, i.css = front ++ rest ∧ p.detail.ReadBehind front rest columns ∧
      Spot.behind p.front = (Spot.behind front).right columns := by
  obtain ⟨hcaptured, -, htext⟩ := outlineText_eq_ok hb
  obtain ⟨more, hmore⟩ := front_of_mem_places b hcaptured hp
  rw [String.empty_append, htext] at hmore
  have hread : p.Read i.position := outlineText_read (Input.position_zero hlines) hb p hp
  obtain ⟨front, rest, columns, ⟨stop, hsource⟩, hsplit, hshift, hspot⟩ := hread.shift more
  rw [hmore] at hsplit
  rw [Input.position_front hlines hsplit] at hsource
  exact ⟨front, rest, columns, hsplit, ⟨⟨stop, hsource⟩, hshift⟩, hspot⟩

/-- The two inputs count alike on the text that they have in common. -/
theorem Input.agreeOn {i i' : Input} (hlines : i.lines = LineIndex.ofText i.css.toList)
    (hlines' : i'.lines = LineIndex.ofText i'.css.toList) {more : String}
    (hcss : i'.css = i.css ++ more) : AgreeOn i.css i.position i'.position := by
  intro front behind hsplit
  have hsplit' : i'.css = front ++ (behind ++ more) := by rw [hcss, hsplit, String.append_assoc]
  rw [Input.position_front hlines hsplit, Input.position_front hlines' hsplit']

/-! ### Reading again -/

/-- Both nodes are of one kind, have the same in front of them and were read from one place on. -/
structure Detail.StartsLike (d d' : Detail) : Prop where
  kind : d'.kind = d.kind
  before : d'.raws.before = d.raws.before
  start : d'.source.bind Source.start = d.source.bind Source.start

namespace Detail

theorem startsLike_refl (d : Detail) : d.StartsLike d :=
  ⟨rfl, rfl, rfl⟩

theorem Resumes.startsLike {d d' : Detail} (h : d.Resumes d') : d.StartsLike d' := by
  obtain ⟨start, stop, stop', hsource, hsource'⟩ := h.starts
  exact ⟨h.kind, h.before, by rw [hsource, hsource']; rfl⟩

/-- A mark counts for both nodes or for none. -/
theorem StartsLike.hasMovedMark_iff {d d' : Detail} (h : d.StartsLike d') (rest : String) :
    d'.HasMovedMark rest ↔ d.HasMovedMark rest := by
  rw [HasMovedMark, HasMovedMark, h.kind, h.before]

theorem StartsLike.shift_iff {d d' : Detail} (h : d.StartsLike d') (rest : String)
    (columns : Nat) : d'.Shift rest columns ↔ d.Shift rest columns := by
  rw [Shift, Shift, h.hasMovedMark_iff]

theorem Shift.unique {d : Detail} {rest : String} {a b : Nat} (ha : d.Shift rest a)
    (hb : d.Shift rest b) : a = b := by
  rcases ha with ⟨rfl, ha⟩ | ⟨rfl, ha⟩ <;> rcases hb with ⟨rfl, hb⟩ | ⟨rfl, hb⟩ <;> tauto

/-- What follows a text does not start with a mark. -/
theorem hasMovedMark_append {d : Detail} {more : String} (hmore : StartsLine more.toList)
    (rest : String) : d.HasMovedMark (rest ++ more) ↔ d.HasMovedMark rest := by
  have hstarts : ∀ mark : String, mark = "_" ∨ mark = "*" →
      ((∃ tail, rest ++ more = mark ++ tail) ↔ ∃ tail, rest = mark ++ tail) := by
    intro mark hmark
    refine ⟨fun ⟨tail, htail⟩ => ?_, fun ⟨tail, htail⟩ => ⟨tail ++ more, ?_⟩⟩
    · obtain ⟨c, cs, hcs, hc⟩ := hmore
      have hlist := congrArg String.toList htail
      rw [String.toList_append, String.toList_append] at hlist
      -- With nothing of its own the text would have to begin with what was added, and that is a
      -- line break.
      cases hrest : rest.toList with
      | nil =>
        rw [hrest, List.nil_append, hcs] at hlist
        have hfirst : c = '_' ∨ c = '*' := by
          rcases hmark with rfl | rfl
          · exact Or.inl (List.cons.inj hlist).1
          · exact Or.inr (List.cons.inj hlist).1
        rcases hc with rfl | rfl <;> exact absurd hfirst (by decide)
      | cons a as =>
        refine ⟨String.ofList as, String.toList_inj.mp ?_⟩
        rw [hrest] at hlist ⊢
        rcases hmark with rfl | rfl
        · rw [show a = '_' from (List.cons.inj hlist).1]
          simp
        · rw [show a = '*' from (List.cons.inj hlist).1]
          simp
    · rw [htail, String.append_assoc]
  constructor
  · rintro ⟨hkind, mark, lead, tail, hmark, hrest, hbefore⟩
    obtain ⟨tail', htail'⟩ := (hstarts mark hmark).mp ⟨tail, hrest⟩
    exact ⟨hkind, mark, lead, tail', hmark, htail', hbefore⟩
  · rintro ⟨hkind, mark, lead, tail, hmark, hrest, hbefore⟩
    obtain ⟨tail', htail'⟩ := (hstarts mark hmark).mpr ⟨tail, hrest⟩
    exact ⟨hkind, mark, lead, tail', hmark, htail', hbefore⟩

theorem ReadBehind.append {d : Detail} {front rest : String} {columns : Nat}
    (h : d.ReadBehind front rest columns) {more : String} (hmore : StartsLine more.toList) :
    d.ReadBehind front (rest ++ more) columns := by
  refine ⟨h.source, ?_⟩
  rw [Shift, hasMovedMark_append hmore]
  exact h.shift

end Detail

/-- A text has one part of a given size in front. -/
theorem append_inj_of_size {a b c d : String} (h : a ++ b = c ++ d)
    (hsize : a.utf8ByteSize = c.utf8ByteSize) : a = c ∧ b = d := by
  rw [utf8ByteSize_eq_bytes, utf8ByteSize_eq_bytes] at hsize
  have hlist := congrArg String.toList h
  rw [String.toList_append, String.toList_append] at hlist
  rw [← String.toList_inj, ← String.toList_inj]
  rcases List.append_eq_append_iff.mp hlist with ⟨mid, hfront, hbehind⟩ | ⟨mid, hfront, hbehind⟩
  · rw [hfront, bytes_append] at hsize
    obtain rfl : mid = [] := eq_nil_of_bytes_eq_zero (by omega)
    simp [hfront, hbehind]
  · rw [hfront, bytes_append] at hsize
    obtain rfl : mid = [] := eq_nil_of_bytes_eq_zero (by omega)
    simp [hfront, hbehind]

/-- Nodes that start alike, each read somewhere in a text, were read at the same place. -/
theorem Detail.StartsLike.place_eq {d d' : Detail} (h : d.StartsLike d')
    {front rest front' rest' : String} {columns columns' : Nat}
    (hd : d.ReadBehind front rest columns) (hd' : d'.ReadBehind front' rest' columns')
    (htext : front ++ rest = front' ++ rest') :
    front' = front ∧ columns' = columns := by
  obtain ⟨stop, hsource⟩ := hd.source
  obtain ⟨stop', hsource'⟩ := hd'.source
  have hstart := h.start
  rw [hsource, hsource'] at hstart
  have hsize : front.utf8ByteSize = front'.utf8ByteSize :=
    (congrArg Position.offset (Option.some.inj hstart)).symm
  obtain ⟨rfl, rfl⟩ := append_inj_of_size htext hsize
  exact ⟨rfl, ((h.shift_iff rest columns').mp hd'.shift).unique hd.shift⟩

/-! ### Printing -/

namespace Tree

/-- A node was read behind `front` in a text, and what is printed of it starts a number of columns
behind that. -/
structure PrintedFrom (t : Tree) (css : String) (x : NodeId) (front : String) (columns : Nat) :
    Prop where
  read : ∃ n rest, t.get? x = some n ∧ css = front ++ rest ∧ n.detail.ReadBehind front rest columns
  printed : ∃ before phase own after, t.chunks rootId = before ++ Chunk.of x phase own :: after ∧
    phase ≠ .stop ∧ Spot.behind (Chunk.textOf before) = (Spot.behind front).right columns

/-- The tree is a draft as it is read. -/
structure HoldsRead (t : Tree) (b : Draft) : Prop where
  consistent : t.Consistent
  holds : t.Holds none rootId b
  size : b.size ≤ t.nodes.size
  root : b.label.kind = .root
  captured : b.Every Detail.Captured
  firm : b.Every Detail.Firm
  inputs : t.KnowsInputs

/-- All nodes of a text were read from the only input. -/
theorem knowsInputs_ofDraft {i : Input} (hlines : i.lines = LineIndex.ofText i.css.toList)
    {b : Draft} (hb : outlineText i.position i.css = .ok b) : (ofDraft i b).KnowsInputs := by
  intro x n s hn hs
  have hdetail := detail_mem_of_mem_layout (mem_layout_of_get? hn)
  rw [← Draft.detail_places "" false b] at hdetail
  obtain ⟨p, hp, hpn⟩ := List.mem_map.mp hdetail
  obtain ⟨_, _, _, -, ⟨⟨stop, hsource⟩, -⟩, -⟩ := Draft.readBehind_of_mem_places hlines hb hp
  rw [Node.source, ← hpn, hsource] at hs
  cases hs
  rfl

theorem holdsRead_ofDraft {i : Input} (hlines : i.lines = LineIndex.ofText i.css.toList)
    {b : Draft} (hb : outlineText i.position i.css = .ok b) : (ofDraft i b).HoldsRead b := by
  obtain ⟨hcaptured, hroot, -⟩ := outlineText_eq_ok hb
  exact
    { consistent := consistent_ofDraft i (hcaptured.mono fun d kids hd => hd.toSound)
      holds := holds_ofDraft i b
      size := Nat.le_of_eq (size_ofDraft i b).symm
      root := hroot
      captured := hcaptured
      firm := outlineText_firm hb
      inputs := knowsInputs_ofDraft hlines hb }

end Tree

namespace MapPlan

variable (p : MapPlan) {t : Tree} {b : Draft} {x : NodeId} {n : Node} {i : Input}

/-- The map has an entry for every node, where the node is printed. -/
theorem leads_of_holdsRead (hk : p.packages.Documented) (h : t.HoldsRead b)
    (hx : t.Attached x) (hne : x ≠ Tree.rootId) (hn : t.get? x = some n) :
    ∃ place ∈ Draft.places "" false b, n.detail = place.detail ∧
      Chunk.StartsAt "" (t.chunks Tree.rootId) x place ∧
      ∀ o, (p.origins t n).1 = some o →
        p.packages.Leads (p.mapOf t) (Spot.behind place.front) o.source ⟨o.line, o.column⟩ := by
  have hmem := h.consistent.mem_shape_iff.mpr hx
  obtain ⟨place, hplace, hdetail, hstarts⟩ :=
    (Tree.chunks_of_holds h.holds h.size h.captured).2 x hmem
      (Tree.kind?_ne_root h.consistent hmem hne)
  rw [hn] at hdetail
  refine ⟨place, hplace, Option.some.inj hdetail, hstarts, fun o ho => ?_⟩
  have hfirm := Tree.chunks_firm h.holds h.size h.root h.captured h.firm
  exact leads_of_startsAt hk h.inputs hfirm hn hstarts ho

/-- A node that was read behind a part of the text comes from there. -/
theorem origins_of_readBehind {front rest : String} {columns : Nat}
    (hread : n.detail.ReadBehind front rest columns) (hinput : t.inputs[0]? = some i) :
    (p.origins t n).1 = some (p.origin i (.behind front)) := by
  obtain ⟨stop, hsource⟩ := hread.source
  rw [origins_of_source hsource hinput]
  rfl

/-- The map of a stylesheet that came without one leads to where its nodes were read. -/
theorem leads_of_read (hk : p.packages.Documented)
    (hlines : i.lines = LineIndex.ofText i.css.toList)
    (hb : outlineText i.position i.css = .ok b) (hmap : i.map = none)
    (hn : (Tree.ofDraft i b).get? x = some n) (hne : x ≠ Tree.rootId) :
    ∃ front rest columns, i.css = front ++ rest ∧ n.detail.ReadBehind front rest columns ∧
      p.packages.Leads (p.mapOf (Tree.ofDraft i b)) ((Spot.behind front).right columns)
        (p.sourceName i) (Spot.behind front) := by
  have h := Tree.holdsRead_ofDraft hlines hb
  have hx := h.consistent.mem_shape_iff.mp (Tree.mem_shape_ofDraft hn)
  obtain ⟨place, hplace, hdetail, -, hleads⟩ := p.leads_of_holdsRead hk h hx hne hn
  obtain ⟨front, rest, columns, hcss, hread, hspot⟩ :=
    Draft.readBehind_of_mem_places hlines hb hplace
  rw [← hdetail] at hread
  have horigin : p.origin i (.behind front) =
      ⟨p.sourceName i, (Spot.behind front).line, (Spot.behind front).column, none⟩ := by
    rw [origin, hmap]
    rfl
  have := hleads _ (p.origins_of_readBehind (i := i) hread rfl)
  rw [hspot, horigin] at this
  exact ⟨front, rest, columns, hcss, hread, this⟩

/-- The map of a stylesheet that came with one has an entry where a node is printed. It leads where
the earlier map leads from the place at which the node was read. -/
theorem leads_of_reread (hk : p.packages.Documented) (h : t.HoldsRead b) {css : String}
    (hplaces : ∀ place ∈ Draft.places "" false b, place.detail.kind ≠ .root →
      ∃ front rest columns, css = front ++ rest ∧ place.detail.ReadBehind front rest columns ∧
        Spot.behind place.front = (Spot.behind front).right columns)
    (hinput : t.inputs[0]? = some i) (hx : t.Attached x) (hne : x ≠ Tree.rootId)
    (hn : t.get? x = some n) :
    ∃ front rest columns, css = front ++ rest ∧ n.detail.ReadBehind front rest columns ∧
      t.PrintedFrom css x front columns ∧
      p.packages.Leads (p.mapOf t) ((Spot.behind front).right columns)
        (p.origin i (.behind front)).source
        ⟨(p.origin i (.behind front)).line, (p.origin i (.behind front)).column⟩ := by
  obtain ⟨place, hplace, hdetail, hstarts, hleads⟩ := p.leads_of_holdsRead hk h hx hne hn
  have hkind : place.detail.kind ≠ .root := by
    intro hroot
    have hmem := h.consistent.mem_shape_iff.mpr hx
    refine Tree.kind?_ne_root h.consistent hmem hne ?_
    rw [Tree.kind?, hn]
    exact congrArg some ((congrArg Detail.kind hdetail).trans hroot)
  obtain ⟨front, rest, columns, hcss, hread, hspot⟩ := hplaces place hplace hkind
  rw [← hdetail] at hread
  have := hleads _ (p.origins_of_readBehind hread hinput)
  rw [hspot] at this
  refine ⟨front, rest, columns, hcss, hread, ⟨⟨n, rest, hn, hcss, hread⟩, ?_⟩, this⟩
  obtain ⟨before, after, phase, hchunks, hphase, hfront⟩ := hstarts
  rw [String.empty_append] at hfront
  exact ⟨before, phase, place.own, after, hchunks, hphase, by rw [← hfront, hspot]⟩

end MapPlan

end Stylesheet
