import Stylesheet.Proofs.Output.Kept
import Stylesheet.Proofs.Path.Seen
import Stylesheet.Proofs.Text.Boundary

/-!
# The entries of a map

A map is built of mappings, looked up and found from where the output is by packages of their own.
What is documented of these (`Packages.Documented`) is enough to know where a map leads: from the
place where a node starts to where the node comes from (`MapPlan.leads_of_startsAt`). A map that was
read leads there as well (`PreviousMap.trace?_eq_some`), as long as its written form says the same
(`Packages.Keeps`).

The packages that stand in for them do what is documented (`Packages.documented_standard`). For them
a map without sections is read by reading its entries, when those are in order
(`Packages.keeps_of_plainFields`).
-/

namespace Stylesheet

/-- One place stands in front of another one. -/
def placeLt (a b : Nat × Nat) : Prop :=
  a.1 < b.1 ∨ a.1 = b.1 ∧ a.2 < b.2

instance : DecidableRel placeLt := fun a b =>
  inferInstanceAs (Decidable (a.1 < b.1 ∨ a.1 = b.1 ∧ a.2 < b.2))

/-- The entries have different places, and are in the order of these. -/
def SourceMap.Strict (m : SourceMap) : Prop :=
  m.entries.Pairwise fun a b => placeLt a.place b.place

instance (m : SourceMap) : Decidable m.Strict :=
  inferInstanceAs (Decidable (m.entries.Pairwise fun a b => placeLt a.place b.place))

namespace Packages

variable (k : Packages)

/-- In the map, an entry leads where it was handed over to lead. -/
structure Shows (m : SourceMap) (x : NamedEntry) (e : MapEntry) : Prop where
  place : e.place = x.place
  origin : ∃ o, e.origin = some o ∧ o.line = x.sourceLine ∧ o.column = x.sourceColumn ∧
    k.source? m o.source = some x.source

/-- What is documented of the packages that build a map, look a place up in it, and find the way
from a directory to a path. -/
structure Documented : Prop where
  /-- A map has the entries that it is built of, when they are in order. -/
  builds : ∀ d : MapDraft, (d.entries.Pairwise fun a b => placeLt a.place b.place) →
    List.Forall₂ (k.Shows (k.buildMap d)) d.entries (k.buildMap d).entries
  /-- Looking up a place finds the last entry that does not stand behind it. -/
  looksUp : ∀ m : SourceMap, m.Strict → ∀ line column,
    k.lookup? m line column =
      (m.entries.takeWhile fun e => placeLe e.place (line, column)).getLast?
  /-- The way from a directory to a path below it is what the path says behind the directory. -/
  leadsDown : ∀ rooted directory names, (∀ name ∈ directory ++ names, Path.isName name = true) →
    k.way? (Path.ofParts rooted (directory ++ names)) (Path.ofParts rooted directory) =
      some (Path.ofParts false names)

/-- Two maps have the same entries and the same names of sources. -/
structure SaySame (m m' : SourceMap) : Prop where
  entries : m'.entries = m.entries
  sources : k.sourceNames m' = k.sourceNames m

/-- The text is the written form of a map, and what is read of it says the same. -/
structure Keeps (m : SourceMap) (text : String) : Prop where
  written : k.mapText m = .ok text
  read : ∃ j m', k.readJson? text = some j ∧ looksLikeMap j = true ∧
    k.decodeMap text = .ok (.plain m') ∧ k.SaySame m m'

/-- At a place the map has an entry, which leads to a place of a source. -/
def Leads (m : SourceMap) (spot : Spot) (source : String) (origin : Spot) : Prop :=
  ∃ e ∈ m.entries, e.place = (spot.line, spot.column) ∧ ∃ o ∈ e.origin,
    k.source? m o.source = some source ∧ o.line = origin.line ∧ o.column = origin.column

instance (m : SourceMap) (spot : Spot) (source : String) (origin : Spot) :
    Decidable (k.Leads m spot source origin) :=
  inferInstanceAs (Decidable (∃ e ∈ m.entries, e.place = (spot.line, spot.column) ∧
    ∃ o ∈ e.origin, k.source? m o.source = some source ∧
      o.line = origin.line ∧ o.column = origin.column))

variable {k}

/-- What is written is read. -/
theorem Keeps.parseMap_eq_ok {m : SourceMap} {text : String} (h : k.Keeps m text) :
    ∃ m', parseMap k text = .ok m' ∧ k.SaySame m m' := by
  obtain ⟨j, m', hj, hmap, hdecode, hsame⟩ := h.read
  refine ⟨m', ?_, hsame⟩
  rw [parseMap, hj]
  dsimp only
  rw [if_pos hmap, hdecode]
  rfl

end Packages

/-! ### Looking up -/

theorem placeLe_iff_not_placeLt {a b : Nat × Nat} : placeLe a b = true ↔ ¬ placeLt b a := by
  rw [Mapping.placeLe_iff, placeLt]
  omega

namespace SourceMap

/-- An entry is the last one up to its place. -/
theorem Strict.getLast?_takeWhile {m : SourceMap} (h : m.Strict) {e : MapEntry}
    (he : e ∈ m.entries) :
    (m.entries.takeWhile fun a => placeLe a.place e.place).getLast? = some e := by
  obtain ⟨front, behind, hsplit⟩ := List.append_of_mem he
  rw [Strict, hsplit, List.pairwise_append, List.pairwise_cons] at h
  obtain ⟨-, ⟨hbehind, -⟩, hfront⟩ := h
  have hle : ∀ a ∈ front ++ [e], placeLe a.place e.place = true := by
    intro a ha
    rw [Mapping.placeLe_iff]
    rcases List.mem_append.mp ha with ha | ha
    · have := hfront a ha e List.mem_cons_self
      unfold placeLt at this
      omega
    · rw [List.mem_singleton.mp ha]
      omega
  -- What stands behind it has a later place.
  have hstop : behind.takeWhile (fun a => placeLe a.place e.place) = [] := by
    cases behind with
    | nil => rfl
    | cons b behind =>
      rw [List.takeWhile_cons_of_neg]
      rw [placeLe_iff_not_placeLt, not_not]
      exact hbehind b List.mem_cons_self
  rw [hsplit, ← List.singleton_append, ← List.append_assoc, List.takeWhile_append_of_pos hle, hstop,
    List.append_nil, List.getLast?_concat]

/-! ### Numbers of texts -/

theorem prefix_intern (texts : List String) (text : String) : texts <+: (intern texts text).1 := by
  unfold intern
  split
  · exact List.prefix_rfl
  · exact List.prefix_append _ _

/-- A text has the number that it is given. -/
theorem getElem?_intern (texts : List String) (text : String) :
    (intern texts text).1[(intern texts text).2]? = some text := by
  unfold intern
  split
  · next n hn =>
    obtain ⟨hlt, htext, -⟩ := List.findIdx?_eq_some_iff_getElem.mp hn
    rw [List.getElem?_eq_getElem hlt, beq_iff_eq.mp htext]
  · exact List.getElem?_concat_length

/-! ### Entry by entry -/

theorem source?_standard {m : SourceMap} (hroot : m.sourceRoot = none) (n : Nat) :
    Packages.standard.source? m n = m.sources[n]? := by
  show m.sourceNames[n]? = _
  rw [sourceNames, hroot]

theorem shows_mono {m m' : SourceMap} {x : NamedEntry} {e : MapEntry}
    (h : Packages.standard.Shows m x e) (hroot : m.sourceRoot = none)
    (hroot' : m'.sourceRoot = none) (hsources : m.sources <+: m'.sources) :
    Packages.standard.Shows m' x e := by
  obtain ⟨o, ho, hline, hcolumn, hsource⟩ := h.origin
  obtain ⟨more, hmore⟩ := hsources
  refine ⟨h.place, o, ho, hline, hcolumn, ?_⟩
  rw [source?_standard hroot] at hsource
  rw [source?_standard hroot', ← hmore,
    List.getElem?_append_left (List.getElem?_eq_some_iff.mp hsource).1]
  exact hsource

theorem sources_addEntry (m : SourceMap) (x : NamedEntry) :
    (m.addEntry x).sources = (intern m.sources x.source).1 := by
  rw [addEntry]
  cases x.name <;> rfl

theorem sourceRoot_addEntry (m : SourceMap) (x : NamedEntry) :
    (m.addEntry x).sourceRoot = m.sourceRoot := by
  rw [addEntry]
  cases x.name <;> rfl

/-- One more entry comes to stand at the end. -/
theorem entries_addEntry {m : SourceMap} (hroot : m.sourceRoot = none) (x : NamedEntry) :
    ∃ e, (m.addEntry x).entries = m.entries ++ [e] ∧
      Packages.standard.Shows (m.addEntry x) x e := by
  have hsource := getElem?_intern m.sources x.source
  rw [← sources_addEntry, ← source?_standard (by rw [sourceRoot_addEntry, hroot])] at hsource
  rw [addEntry] at hsource ⊢
  cases hname : x.name with
  | none =>
    rw [hname] at hsource
    exact ⟨_, rfl, rfl, _, rfl, rfl, rfl, hsource⟩
  | some name =>
    rw [hname] at hsource
    exact ⟨_, rfl, rfl, _, rfl, rfl, rfl, hsource⟩

/-- What was handed over are the entries, one by one. -/
theorem shows_foldl {m : SourceMap} {xs : List NamedEntry}
    (h : List.Forall₂ (Packages.standard.Shows m) xs m.entries) (hroot : m.sourceRoot = none)
    (ys : List NamedEntry) :
    List.Forall₂ (Packages.standard.Shows (ys.foldl addEntry m)) (xs ++ ys)
        (ys.foldl addEntry m).entries ∧
      (ys.foldl addEntry m).sourceRoot = none := by
  induction ys generalizing m xs with
  | nil => rw [List.append_nil]; exact ⟨h, hroot⟩
  | cons y ys ih =>
    obtain ⟨e, hentries, hshows⟩ := entries_addEntry hroot y
    have hroot' : (m.addEntry y).sourceRoot = none := by rw [sourceRoot_addEntry, hroot]
    have hold : List.Forall₂ (Packages.standard.Shows (m.addEntry y)) xs m.entries :=
      h.imp fun x e hx =>
        shows_mono hx hroot hroot' (by rw [sources_addEntry]; exact prefix_intern _ _)
    have hnext : List.Forall₂ (Packages.standard.Shows (m.addEntry y)) (xs ++ [y])
        (m.addEntry y).entries := by
      rw [hentries]
      exact List.rel_append hold (List.Forall₂.cons hshows List.Forall₂.nil)
    have := ih hnext hroot'
    rwa [List.append_assoc, List.singleton_append] at this

theorem shows_build (d : MapDraft) :
    List.Forall₂ (Packages.standard.Shows (build d)) d.entries (build d).entries := by
  obtain ⟨hshows, hroot⟩ := shows_foldl (m := { file := d.file }) List.Forall₂.nil rfl d.entries
  rw [List.nil_append] at hshows
  exact hshows.imp fun x e hx => @shows_mono _ (build d) x e hx hroot hroot List.prefix_rfl

theorem lookup?_of_strict {m : SourceMap} (h : m.Strict) (line column : Nat) :
    m.lookup? line column =
      (m.entries.takeWhile fun e => placeLe e.place (line, column)).getLast? := by
  rw [lookup?]
  cases hfind : m.entries.find? fun e => e.place == (line, column) with
  | none => rfl
  | some e =>
    have hplace : e.place = (line, column) := by simpa using List.find?_some hfind
    rw [← hplace]
    exact (h.getLast?_takeWhile (List.mem_of_find?_eq_some hfind)).symm

end SourceMap

/-- What stands in for the packages does what is documented of them. -/
theorem Packages.documented_standard : Packages.standard.Documented where
  builds d _ := SourceMap.shows_build d
  looksUp _ h := SourceMap.lookup?_of_strict h
  leadsDown rooted _ _ h := Path.relativeTo?_append rooted h

/-! ### The map of an output -/

/-- Each of the mappings that are left stands in front of the next one. -/
theorem Mapping.strict_settled (ms : List Mapping) :
    (settled ms).Pairwise fun a b => placeLt a.place b.place := by
  have hsub : (settled ms).Sublist (ms.mergeSort fun a b => placeLe a.place b.place) := by
    rw [settled]
    cases ms.mergeSort fun a b => placeLe a.place b.place with
    | nil => exact .slnil
    | cons m rest => exact (firstsAfter_sublist m rest).cons_cons m
  have hsorted := (List.pairwise_mergeSort placeLe_trans placeLe_total ms).sublist hsub
  refine (hsorted.and (nodup_settled ms)).imp fun {a b} hab => ?_
  rw [Mapping.placeLe_iff] at hab
  obtain ⟨hle, hne⟩ := hab
  rw [Ne, Prod.ext_iff] at hne
  unfold placeLt
  omega

namespace MapPlan

variable {p : MapPlan} {t : Tree}

/-- The map of a tree that is printed. -/
def mapOf (p : MapPlan) (t : Tree) : SourceMap :=
  p.buildMap t (Mapping.settled (p.generateString t).2)

/-- The mappings are the entries of the map, one by one. -/
theorem shows_mapOf (h : p.packages.Documented) (t : Tree) :
    List.Forall₂ (fun x e => p.packages.Shows (p.mapOf t) (entryOf x) e)
      (Mapping.settled (p.generateString t).2) (p.mapOf t).entries :=
  List.forall₂_map_left_iff.mp
    (h.builds (p.draft t _) (List.pairwise_map.mpr (Mapping.strict_settled _)))

theorem strict_mapOf (h : p.packages.Documented) (t : Tree) : (p.mapOf t).Strict := by
  have hplaces : (Mapping.settled (p.generateString t).2).map Mapping.place =
      (p.mapOf t).entries.map MapEntry.place := by
    rw [← List.forall₂_eq_eq_eq, List.forall₂_map_left_iff, List.forall₂_map_right_iff]
    exact (p.shows_mapOf h t).imp fun x e hx => hx.place.symm
  rw [SourceMap.Strict, ← List.pairwise_map, ← hplaces, List.pairwise_map]
  exact Mapping.strict_settled _

/-- A mapping that is left is an entry of the map. -/
theorem exists_shows (h : p.packages.Documented) {x : Mapping}
    (hx : x ∈ Mapping.settled (p.generateString t).2) :
    ∃ e ∈ (p.mapOf t).entries, p.packages.Shows (p.mapOf t) (entryOf x) e := by
  obtain ⟨n, hn, rfl⟩ := List.getElem_of_mem hx
  have hshows := p.shows_mapOf h t
  exact ⟨_, List.getElem_mem (hshows.length_eq ▸ hn), hshows.get hn (hshows.length_eq ▸ hn)⟩

/-- The map of a tree with firm chunks leads from where a node starts to where it comes from. -/
theorem leads_of_startsAt (h : p.packages.Documented) (hinputs : t.KnowsInputs)
    (hfirm : ∀ c ∈ t.chunks Tree.rootId, c.Firm t) {x : NodeId} {n : Node} (hn : t.get? x = some n)
    {place : Draft.Place} (hstarts : Chunk.StartsAt "" (t.chunks Tree.rootId) x place)
    {o : MapOrigin} (ho : (p.origins t n).1 = some o) :
    p.packages.Leads (p.mapOf t) (Spot.behind place.front) o.source ⟨o.line, o.column⟩ := by
  have hfirst := p.find?_settled hinputs hfirm hn hstarts
  rw [ho, Option.getD_some] at hfirst
  obtain ⟨e, he, hshows⟩ := exists_shows h (List.mem_of_find?_eq_some hfirst)
  obtain ⟨eo, heo, hline, hcolumn, hsource⟩ := hshows.origin
  exact ⟨e, he, hshows.place, eo, heo, hsource, hline, hcolumn⟩

/-! ### Names of sources -/

/-- A name in the current directory is the path to it from there. -/
theorem relative_name {e : Environment} (h : e.packages.Documented) {name : String}
    (hname : Path.isName name = true) :
    e.relative "" name = name ∧
      e.relative "" ((Path.absolute? e.directory name).getD name) = name := by
  have hnames : ∀ part ∈ Path.namesOf e.directory ++ [name], Path.isName part = true := by
    intro part hpart
    rcases List.mem_append.mp hpart with hpart | hpart
    · exact Path.isName_of_mem_namesOf part hpart
    · rwa [List.mem_singleton.mp hpart]
  have hway := h.leadsDown e.directory.isSome _ _ hnames
  rw [Path.ofParts_singleton] at hway
  constructor <;> rw [Environment.relative]
  · rw [Path.resolve_name _ hname, Path.resolve_empty, hway, Option.getD_some]
  · rw [Path.resolve_absolute_name _ hname, Path.resolve_name _ hname, Path.resolve_empty, hway,
      Option.getD_some]

/-- The current directory is where it is seen from. -/
theorem relative_empty {e : Environment} (h : e.packages.Documented) : e.relative "" "" = "" := by
  have hway := h.leadsDown e.directory.isSome (Path.namesOf e.directory) []
    (by rw [List.append_nil]; exact Path.isName_of_mem_namesOf)
  rw [List.append_nil] at hway
  rw [Environment.relative, Path.resolve_empty, hway]
  rfl

end MapPlan

/-! ### Maps that are read again -/

/-- A map that came with a stylesheet leads where the map leads that was written, when the two say
the same. -/
theorem PreviousMap.trace?_eq_some {k : Packages} (hk : k.Documented) {previous : PreviousMap}
    {m : SourceMap} {spot origin : Spot} {source : String} (h : k.Leads m spot source origin)
    (hstrict : m.Strict) (hsame : k.SaySame m previous.map) :
    ∃ name, previous.trace? k spot.line spot.column =
      some ⟨source, origin.line, origin.column, name⟩ := by
  obtain ⟨e, he, hplace, o, ho, hsource, hline, hcolumn⟩ := h
  have hlookup : k.lookup? previous.map spot.line spot.column = some e := by
    rw [hk.looksUp _ (by rw [SourceMap.Strict, hsame.entries]; exact hstrict), hsame.entries,
      ← hplace]
    exact hstrict.getLast?_takeWhile he
  have hline' : e.line = spot.line := congrArg Prod.fst hplace
  rw [Packages.source?, ← hsame.sources] at hsource
  refine ⟨o.name.bind (previous.map.names[·]?), ?_⟩
  rw [trace?, hlookup]
  simp [hline', Option.mem_def.mp ho, Packages.source?, hsource, hline, hcolumn]

theorem Packages.readJson?_standard : Packages.standard.readJson? = Json.parse? := rfl

theorem Packages.decodeMap_standard : Packages.standard.decodeMap = SourceMap.ofText := rfl

/-- The fields that a text says, when it is a map without sections. -/
def plainFields? (text : String) : Option SourceMap.Fields := do
  let w ← Json.Written.ofText? text
  let j ← w.value?
  let .plain f ← SourceMap.Layout.ofWritten? w | none
  if (j.get? "mappings").any Json.isStr && !f.scopes then some f else none

/-- A map is read as it was, when its written form has its fields and the entries are in order. -/
theorem Packages.keeps_of_plainFields {m : SourceMap} {f : SourceMap.Fields}
    (hf : plainFields? m.render = some f)
    (hread : SourceMap.readLines f.sources.length f.names.length 0 {}
      (Text.pieces ';' f.mappings.toList) = .ok m.entries)
    (hsorted : m.entries.Pairwise fun a b => placeLe a.place b.place = true)
    (hm : ⟨f.file, m.entries, f.names, f.sources, f.contents, f.sourceRoot⟩ = m) :
    Packages.standard.Keeps m m.render ∧ parseMap .standard m.render = .ok m := by
  obtain ⟨w, hw, j, hj, layout, hlayout, hplain⟩ := by
    simpa only [plainFields?, Option.bind_eq_bind, Option.bind_eq_some_iff] using hf
  cases layout with
  | sections file parts => cases hplain
  | plain g =>
    dsimp only at hplain
    split at hplain
    · rename_i hkind
      obtain rfl := Option.some.inj hplain
      obtain ⟨hmappings, hscopes⟩ := Bool.and_eq_true_iff.mp hkind
      have hfields : SourceMap.ofFields g = .ok m := by
        rw [SourceMap.ofFields, hread]
        show Except.ok _ = _
        rw [SourceMap.sorted, List.mergeSort_of_pairwise hsorted, hm]
      -- Four facts about the text: it is JSON, it looks like a map, it has one layout, and its
      -- entries are in order.
      have hlooks : looksLikeMap j = true := by
        rw [looksLikeMap, hmappings, Bool.true_or]
      have hvalue : Packages.standard.readJson? m.render = some j := by
        rw [readJson?_standard, Json.parse?, hw]
        exact hj
      have hdecode : Packages.standard.decodeMap m.render = .ok (.plain m) := by
        rw [decodeMap_standard, SourceMap.ofText, hw]
        dsimp only
        rw [SourceMap.ofWritten, hlayout]
        simp only [SourceMap.Layout.decode, hfields]
        show (if g.scopes = true then _ else _) = _
        rw [if_neg (by simpa using hscopes)]
      refine ⟨⟨?_, j, m, hvalue, hlooks, hdecode, ⟨rfl, rfl⟩⟩, ?_⟩
      · have hwritten : Packages.standard.writeMap m = .ok (Text.utf8 m.render) := rfl
        rw [mapText, hwritten]
        show Except.bind (.ok _) _ = _
        rw [Except.bind, Text.ofUtf8?_utf8]
      · rw [parseMap, hvalue]
        dsimp only
        rw [if_pos hlooks, hdecode]
        rfl
    · cases hplain

end Stylesheet
