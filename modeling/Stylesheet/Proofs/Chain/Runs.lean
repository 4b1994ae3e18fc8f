import Stylesheet.Proofs.Chain.Again
import Stylesheet.Proofs.Chain.Comment

/-!
# Maps over two runs

A stylesheet `a.css` is written as `b.css`, and that as `c.css`, without plugins and each time with
a map of its own. The second run is given the map of the first one, so that its map leads back to
`a.css` (`leads_of_runs`), with the exception of declarations with a mark of old browsers: those are
printed behind their mark, where the map of the first run has them, and read from the mark on
(`runs_of_mark`).
-/

namespace Stylesheet

open Text

/-! ### Runs without plugins -/

/-- Options for writing one file as another one, with a map of its own. -/
def ProcessOptions.between (source target : String) (prev : Option GivenMap := none) :
    ProcessOptions where
  source := some source
  target := some target
  map := .enabled { inline := some false, prev }

/-! ### Names of files -/

/-- A file that is named as it is, without a directory. -/
structure IsPlainFile (name : String) : Prop where
  isName : Path.isName name = true
  noBracket : name.startsWith "<" = false
  noUrl : Path.isUrl name = false

theorem isPlainFile_a : IsPlainFile "a.css" := by
  constructor <;> decide +kernel

theorem isPlainFile_b : IsPlainFile "b.css" := by
  constructor <;> decide +kernel

/-- The map of an output without a directory names files as they are, however the paths to them are
given. -/
theorem MapPlan.path_file {p : MapPlan} (hk : p.packages.Documented)
    (habsolute : p.mapOptions.absolute = false) (hbase : p.base = "") {name : String}
    (h : IsPlainFile name) :
    p.path name = name ∧ p.path (Input.resolveFile p.environment.directory name) = name := by
  obtain ⟨hplain, hresolved⟩ := MapPlan.relative_name hk h.isName
  have hfile : Input.resolveFile p.environment.directory name =
      (Path.absolute? p.environment.directory name).getD name := by
    rw [Input.resolveFile, h.noBracket, h.noUrl]
    rfl
  -- A resolved name is absolute, and absolute paths are neither addresses nor bracketed names.
  have hquiet : Path.isUrl (Input.resolveFile p.environment.directory name) = false ∧
      (Input.resolveFile p.environment.directory name).startsWith "<" = false := by
    rw [hfile]
    cases hfound : Path.absolute? p.environment.directory name with
    | none => exact ⟨h.noUrl, h.noBracket⟩
    | some file => exact Path.isUrl_of_isAbsolute (Path.isAbsolute_of_absolute? hfound)
  constructor
  · rw [path, habsolute, h.noBracket, h.noUrl, hbase]
    exact hplain
  · rw [path, habsolute, hquiet.1, hquiet.2, hbase, hfile]
    exact hresolved

/-! ### The first run -/

/-- The comment that names the map of the first run, with either line break. -/
def mapComment (crlf : Bool) : Trailer where
  lineEnd := if crlf then "\r\n" else "\n"
  body := "# sourceMappingURL=b.css.map "
  isLine := startsLine_lineEnd crlf
  isSpace := isSpace_lineEnd crlf
  isBody := by decide +kernel

section

variable {e : Environment} (hk : e.packages.Documented)

include hk

theorem outputFile_first :
    (MapPlan.mk e (.external (some "a.css") (some "b.css") {}) []).outputFile = "b.css" := by
  refine (MapPlan.path_file (p := ⟨e, .external (some "a.css") (some "b.css") {}, []⟩) hk rfl ?_
    isPlainFile_b).1
  show Path.dirname "b.css" = ""
  decide +kernel

theorem fileFits_first :
    ProcessOptions.FileFits e (.external (some "a.css") (some "b.css") {}) := by
  rw [ProcessOptions.FileFits, outputFile_first hk]
  decide +kernel

theorem trailer_first (crlf : Bool) :
    ProcessOptions.trailer (fileFits_first hk) crlf = mapComment crlf := by
  simp only [ProcessOptions.trailer, mapComment, Trailer.mk.injEq, true_and]
  rw [outputFile_first hk]
  decide +kernel

/-- The first run prints the text that was read and puts the comment behind it. -/
theorem generate_first {i : Input} {b : Draft} (hb : outlineText i.position i.css = .ok b)
    (hmap : i.map = none)
    (hlinks : ∀ x ∈ (Tree.ofDraft i b).children Tree.rootId,
      (Tree.ofDraft i b).namesMap x = false) :
    ∃ crlf, (Tree.ofDraft i b).generate e (.between "a.css" "b.css") =
      (.ok ⟨i.css ++ (mapComment crlf).text,
        some ((MapPlan.ofTree e (Tree.ofDraft i b) (.between "a.css" "b.css")).mapOf
          (Tree.ofDraft i b))⟩, Tree.ofDraft i b) := by
  obtain ⟨hcaptured, -, htext⟩ := outlineText_eq_ok hb
  set t := Tree.ofDraft i b with ht
  have hself := Tree.withoutLinks_eq_self hlinks
  have hprint : Chunk.textOf (t.chunks Tree.rootId) = i.css :=
    (Tree.chunks_ofDraft i hcaptured).1.trans htext
  have hmaps : ∀ i' ∈ t.inputs, i'.map = none := by
    intro i' hi'
    rw [Array.mem_singleton.mp hi']
    exact hmap
  obtain ⟨crlf, hgenerate⟩ := exists_generate_external (fileFits_first hk) hmaps
  rw [hself, hprint, trailer_first hk] at hgenerate
  exact ⟨crlf, hgenerate⟩

end

/-! ### The second run -/

/-- The map that is given to the second run, as it comes with a text. -/
def PreviousMap.given (css text : String) (m : SourceMap) : PreviousMap where
  text
  link := findLink? css
  inline := (findLink? css).any (·.startsWith "data:")
  file := some "b.css"
  root := some (Path.dirname "b.css")
  map := m

theorem load_second (e : Environment) (css : String) {text : String} {m : SourceMap}
    (h : parseMap e.packages text = .ok m) :
    PreviousMap.load e css
      (ProcessOptions.between "b.css" "c.css" (some (.json text))).forParsing =
        .ok (some (.given css text m)) := by
  have henabled : (ProcessOptions.between "b.css" "c.css" (some (.json text))).forParsing.map ≠
      .disabled := by
    intro h
    cases h
  rw [PreviousMap.load, if_neg henabled]
  show (parseMap e.packages text).map _ = _
  rw [h]
  rfl

/-- The map of a run is no part of its text, so that nothing has to be written for it. -/
theorem Tree.exists_generate_between (e : Environment) (t : Tree) (source target : String)
    (prev : Option GivenMap) : ∃ css, t.generate e (.between source target prev) =
      (.ok ⟨css, some ((MapPlan.ofTree e t (.between source target prev)).mapOf t.withoutLinks)⟩,
        t.withoutLinks) := by
  have hgenerate : t.generate e (.between source target prev) =
      ((MapPlan.ofTree e t (.between source target prev)).output t.withoutLinks,
        t.withoutLinks) := rfl
  rw [hgenerate, MapPlan.output_of_separate (by rfl) (by rfl) (by rfl)]
  exact ⟨_, rfl⟩

/-- The plan of the second run sees the sources of the given map from where the output is. -/
theorem previousName_second {e : Environment} (hk : e.packages.Documented) (prev : Option GivenMap)
    (previous : List PreviousMap) {m : PreviousMap} (hroot : m.root = some (Path.dirname "b.css")) :
    (MapPlan.mk e (.between "b.css" "c.css" prev) previous).previousName m "a.css" = "a.css" := by
  have hdirectory : ∀ name : String, name = "b.css" ∨ name = "c.css" → Path.dirname name = "" := by
    rintro name (rfl | rfl) <;> decide +kernel
  have hbase : (MapPlan.mk e (.between "b.css" "c.css" prev) previous).base = "" :=
    hdirectory "c.css" (Or.inr rfl)
  have hpath : (MapPlan.mk e (.between "b.css" "c.css" prev) previous).path "" = "" := by
    have hquiet : ("".startsWith "<" || Path.isUrl "") = false := by decide +kernel
    rw [MapPlan.path, Bool.or_assoc, hquiet, hbase]
    exact MapPlan.relative_empty hk
  rw [MapPlan.previousName, MapPlan.previousRoot, hroot, hdirectory "b.css" (Or.inl rfl)]
  show MapPlan.joinRoot (MapPlan.urlOf ((MapPlan.mk e _ previous).path "")) "a.css" = "a.css"
  rw [hpath]
  decide +kernel

/-- A text that is read with a map and a path. -/
theorem parse_of_load {w : Workspace} {css source : String} {map : MapSetting}
    {previous : Option PreviousMap} {b : Draft}
    (hbom : Input.stripBom css = (css, false))
    (hload : PreviousMap.load w.toEnvironment css ⟨some source, map⟩ = .ok previous)
    (hb : outlineText (Input.assemble css false (some (Input.resolveFile w.directory source)) none
      previous).position css = .ok b) :
    (parse w css ⟨some source, map⟩).1 = .ok (Tree.ofDraft (Input.assemble css false
      (some (Input.resolveFile w.directory source)) none previous) b) := by
  rw [parse, Input.create, hbom]
  dsimp only [Option.map_some]
  rw [hload]
  dsimp only
  rw [Input.tree, show (Input.assemble css false _ none previous).css = css from rfl, hb]

/-- What a text with a path is read into. -/
theorem exists_of_parse {w : Workspace} {css source : String} {map : MapSetting} {t : Tree}
    (h : (parse w css ⟨some source, map⟩).1 = .ok t) :
    ∃ previous b, t = Tree.ofDraft (Input.assemble (Input.stripBom css).1 (Input.stripBom css).2
        (some (Input.resolveFile w.directory source)) none previous) b ∧
      outlineText (Input.assemble (Input.stripBom css).1 (Input.stripBom css).2
        (some (Input.resolveFile w.directory source)) none previous).position
          (Input.stripBom css).1 = .ok b := by
  obtain ⟨input, w', b, hcreate, hb, rfl⟩ := parse_eq_ofDraft h
  rw [Input.create] at hcreate
  dsimp only [Option.map_some] at hcreate
  split at hcreate
  · cases hcreate
  · rename_i previous hload
    cases hcreate
    exact ⟨previous, b, rfl, hb⟩

/-! ### Both runs -/

/-- The map of the second run leads from where the nodes are printed to where they start in `css`.
A node that is printed behind its mark has an entry as well. -/
structure Tree.MapsBack (k : Packages) (t : Tree) (m : SourceMap) (source css : String) :
    Prop where
  starts : ∀ x, t.Attached x → x ≠ Tree.rootId → ∃ front columns,
    t.PrintedFrom css x front columns ∧
    (∃ source origin, k.Leads m ((Spot.behind front).right columns) source origin) ∧
    (columns = 0 → k.Leads m (Spot.behind front) source (Spot.behind front))

section

variable {p : MapPlan} (hk : p.packages.Documented) {i' : Input} {previous : PreviousMap}
  {m : SourceMap} {source : String} (hmap : i'.map = some previous) (hstrict : m.Strict)
  (hsame : p.packages.SaySame m previous.map) (hname : p.previousName previous source = source)

include hk hmap hstrict hsame hname

/-- When the given map leads to a place of a source, a node that was read there comes from it. -/
theorem MapPlan.origin_of_leads {front : String} {origin : Spot}
    (h : p.packages.Leads m (Spot.behind front) source origin) :
    ∃ name, p.origin i' (.behind front) = ⟨source, origin.line, origin.column, name⟩ := by
  obtain ⟨name, htrace⟩ := PreviousMap.trace?_eq_some hk h hstrict hsame
  refine ⟨name, ?_⟩
  rw [MapPlan.origin, hmap]
  show ((previous.trace? p.packages (Spot.behind front).line
    (Spot.behind front).column).map _).getD _ = _
  rw [htrace]
  show MapOrigin.mk (p.previousName previous source) _ _ _ = _
  rw [hname]

/-- A stylesheet that is read again with a map that leads to where its nodes were read first gets
a map that leads there as well. -/
theorem mapsBack_of_rereads {t u : Tree} {i : Input} {r : Trailer} {b : Draft}
    (h : t.Rereads u i' b) (hcss : i'.css = i.css ++ r.text)
    (hfirst : ∀ x n, t.get? x = some n → x ≠ Tree.rootId → ∃ front rest columns,
      i.css = front ++ rest ∧ n.detail.ReadBehind front rest columns ∧
        p.packages.Leads m ((Spot.behind front).right columns) source (Spot.behind front)) :
    u.MapsBack p.packages (p.mapOf u) source i.css := by
  refine ⟨fun x hx hne => ?_⟩
  have hrooted : u.kind? Tree.rootId = some .root := by
    obtain ⟨n, hn, hd, -⟩ := h.holds.holds.get?_eq
    rw [Tree.kind?, hn]
    exact congrArg some ((congrArg Detail.kind hd).trans h.holds.root)
  obtain ⟨n, hn⟩ := hx.exists_get? hrooted
  obtain ⟨n₁, hn₁, hlike⟩ := h.nodes x n hn hx hne
  obtain ⟨front, rest, columns, hsplit, hread₁, hleads₁⟩ := hfirst x n₁ hn₁ hne
  obtain ⟨front', rest', columns', hsplit', hread, hprinted, hleads⟩ :=
    p.leads_of_reread hk h.holds h.places h.input hx hne hn
  -- Both times the node was read at one place.
  have htext : front ++ (rest ++ r.text) = front' ++ rest' := by
    rw [← hsplit', hcss, hsplit, String.append_assoc]
  obtain ⟨rfl, rfl⟩ := hlike.place_eq (hread₁.append r.startsLine_text) hread htext
  refine ⟨front', columns', ⟨⟨n, rest, hn, hsplit, hread.source, ?_⟩, hprinted.printed⟩,
    ⟨_, _, hleads⟩, ?_⟩
  · exact (hlike.shift_iff rest columns').mpr hread₁.shift
  · rintro rfl
    obtain ⟨name, horigin⟩ := MapPlan.origin_of_leads hk hmap hstrict hsame hname hleads₁
    rw [horigin] at hleads
    exact hleads

end

/-- The text of the first run is processed again, with a map that leads to where its nodes were
read. -/
theorem mapsBack_second {σ : Type} {steps : Nat} (hsteps : 0 < steps) (awaits : Bool)
    {e : Environment} {s : Workspace × σ} (he : s.1.toEnvironment = e)
    (hk : e.packages.Documented) {i : Input} {b : Draft}
    (hlines : i.lines = LineIndex.ofText i.css.toList)
    (hb : outlineText i.position i.css = .ok b) (hbom : (Input.stripBom i.css).2 = false)
    (hlinks : ∀ x ∈ (Tree.ofDraft i b).children Tree.rootId, (Tree.ofDraft i b).namesMap x = false)
    {m : SourceMap} (hstrict : m.Strict) {text : String} (hkeeps : e.packages.Keeps m text)
    (hfirst : ∀ x n, (Tree.ofDraft i b).get? x = some n → x ≠ Tree.rootId →
      ∃ front rest columns, i.css = front ++ rest ∧ n.detail.ReadBehind front rest columns ∧
        e.packages.Leads m ((Spot.behind front).right columns) "a.css" (Spot.behind front))
    (crlf : Bool) :
    ∃ r m₂ s₂, ((Deferred.ofInput ([] : List (Plugin σ)) (.text (i.css ++ (mapComment crlf).text))
        (.between "b.css" "c.css" (some (.json text)))).finish steps awaits).run s =
          (.ok r, s₂) ∧
      r.map = some m₂ ∧ r.tree.MapsBack e.packages m₂ "a.css" i.css := by
  subst he
  obtain ⟨m', hparse, hsame⟩ := hkeeps.parseMap_eq_ok
  have hload := load_second s.1.toEnvironment (i.css ++ (mapComment crlf).text) hparse
  set previous := PreviousMap.given (i.css ++ (mapComment crlf).text) text m' with hprevious
  set i' := Input.assemble (i.css ++ (mapComment crlf).text) false
    (some (Input.resolveFile s.1.directory "b.css")) none (some previous) with hi'
  have hlines' : i'.lines = LineIndex.ofText i'.css.toList := rfl
  have hcss : i'.css = i.css ++ (mapComment crlf).text := rfl
  obtain ⟨b', hb', hextends⟩ :=
    outlineText_append (mapComment crlf) (Input.agreeOn hlines hlines' hcss) hb
  have hparse' := parse_of_load (Input.stripBom_append hbom (mapComment crlf)) hload hb'
  set t := Tree.ofDraft i' b' with ht
  set options := ProcessOptions.between "b.css" "c.css" (some (.json text)) with hoptions
  have hrun := Deferred.run_finish_of_no_plugins hsteps awaits s hparse'
  obtain ⟨printed, hgenerate⟩ := t.exists_generate_between s.1.toEnvironment "b.css" "c.css"
    (some (.json text))
  rw [Result.printed, hgenerate] at hrun
  refine ⟨_, (MapPlan.ofTree s.1.toEnvironment t options).mapOf t.withoutLinks, _, hrun, rfl, ?_⟩
  show t.withoutLinks.MapsBack _ _ _ _
  have hcomment : (trimmed (mapComment crlf).body).startsWith "# sourceMappingURL=" = true := by
    show (trimmed "# sourceMappingURL=b.css.map ").startsWith _ = true
    decide +kernel
  -- The comment is taken out again, unless the text in front of it takes it in.
  rcases Tree.rereads_of_extends hlines hlines' hcss hb hb' hextends hcomment hlinks with
    ⟨c, hrereads⟩ | hempty
  · have hname : (MapPlan.ofTree s.1.toEnvironment t options).previousName previous "a.css" =
        "a.css" := previousName_second hk _ _ rfl
    have hmap : i'.map = some previous := rfl
    exact mapsBack_of_rereads (p := MapPlan.ofTree s.1.toEnvironment t options) hk hmap hstrict
      hsame hname hrereads rfl hfirst
  · exact ⟨fun x hx hne => absurd (hempty x hx) hne⟩

/-! ### Maps that are computed -/

/-- The mappings of a tree are found in order, and are the map. -/
def MapPlan.Gives (p : MapPlan) (t : Tree) (m : SourceMap) : Prop :=
  (p.generateString t).2.Pairwise Mapping.InOrder ∧
    p.buildMap t (Mapping.firsts (p.generateString t).2) = m

instance (p : MapPlan) (t : Tree) (m : SourceMap) : Decidable (p.Gives t m) :=
  inferInstanceAs (Decidable (_ ∧ _))

theorem MapPlan.Gives.mapOf_eq {p : MapPlan} {t : Tree} {m : SourceMap} (h : p.Gives t m) :
    p.mapOf t = m := by
  rw [mapOf, Mapping.settled_of_inOrder h.1, h.2]

/-- A run on a text whose tree is known. -/
theorem run_between {source target : String} {prev : Option GivenMap} {s : Workspace × Unit}
    {css : String} {t : Tree} {m : SourceMap}
    (hparse : (parse s.1 css (ProcessOptions.between source target prev).forParsing).1 = .ok t)
    (hgives : (MapPlan.ofTree s.1.toEnvironment t (.between source target prev)).Gives
      t.withoutLinks m) :
    ∃ r s', ((Deferred.ofInput [] (.text css) (.between source target prev)).finish 1 true).run s =
        (.ok r, s') ∧ s'.1.toEnvironment = s.1.toEnvironment ∧
      r.tree = t.withoutLinks ∧ r.map = some m ∧
      (t.generate s.1.toEnvironment (.between source target prev)).1.map Output.css =
        .ok r.css := by
  have hrun := Deferred.run_finish_of_no_plugins Nat.one_pos true s hparse
  obtain ⟨printed, hgenerate⟩ :=
    t.exists_generate_between s.1.toEnvironment source target prev
  rw [Result.printed, hgenerate] at hrun
  refine ⟨_, _, hrun, toEnvironment_parse .., rfl, congrArg some hgives.mapOf_eq, ?_⟩
  rw [hgenerate]
  rfl

/-! ### Two runs -/

/-- A stylesheet that came without a map, and in which no comment names one, is processed twice,
without plugins. Both runs give a result, and the map of the second one leads back to the
stylesheet, when it is given a written form of the map of the first one that keeps the entries. The
packages are assumed to do what is documented of them. A run takes a byte order mark away, so a
second mark would be lost in between. -/
theorem leads_of_runs {σ : Type} {steps : Nat} (hsteps : 0 < steps) (awaits : Bool)
    (s : Workspace × σ) (hk : s.1.packages.Documented) {css : String} {t : Tree}
    (h : (parse s.1 css (ProcessOptions.between "a.css" "b.css").forParsing).1 = .ok t)
    (hmaps : ∀ i ∈ t.inputs, i.map = none)
    (hlinks : ∀ x ∈ t.children Tree.rootId, t.namesMap x = false)
    (hbom : (Input.stripBom (Input.stripBom css).1).2 = false) :
    ∃ r₁ m₁ s₁, ((Deferred.ofInput ([] : List (Plugin σ)) (.text css)
        (.between "a.css" "b.css")).finish steps awaits).run s = (.ok r₁, s₁) ∧
      r₁.map = some m₁ ∧ ∀ text, s.1.packages.Keeps m₁ text →
        ∃ r₂ m₂ s₂, ((Deferred.ofInput ([] : List (Plugin σ)) (.text r₁.css)
            (.between "b.css" "c.css" (some (.json text)))).finish steps awaits).run s₁ =
              (.ok r₂, s₂) ∧
          r₂.map = some m₂ ∧
          r₂.tree.MapsBack s.1.packages m₂ "a.css" (Input.stripBom css).1 := by
  obtain ⟨previous, b, rfl, hb⟩ := exists_of_parse h
  set i := Input.assemble (Input.stripBom css).1 (Input.stripBom css).2
    (some (Input.resolveFile s.1.directory "a.css")) none previous with hi
  have hmap : i.map = none := hmaps i (by simp [Tree.ofDraft])
  obtain ⟨crlf, hgenerate⟩ := generate_first hk hb hmap hlinks
  set t := Tree.ofDraft i b with ht
  set p := MapPlan.ofTree s.1.toEnvironment t (.between "a.css" "b.css") with hp
  have hname : p.sourceName i = "a.css" := by
    have hbase : p.base = "" := by
      show Path.dirname "b.css" = ""
      decide +kernel
    show MapPlan.urlOf (p.path (Input.resolveFile p.environment.directory "a.css")) = "a.css"
    rw [(MapPlan.path_file (p := p) hk rfl hbase isPlainFile_a).2]
    decide +kernel
  have hrun := Deferred.run_finish_of_no_plugins hsteps awaits s h
  rw [Result.printed, hgenerate] at hrun
  refine ⟨_, p.mapOf t, _, hrun, rfl, fun text hkeeps => ?_⟩
  -- The second run starts with the text of the first one, and what it depends on is the same.
  have hsame := toEnvironment_parse s.1 css (ProcessOptions.between "a.css" "b.css").forParsing
  refine mapsBack_second hsteps awaits hsame hk rfl hb hbom hlinks
    (MapPlan.strict_mapOf (p := p) hk t) hkeeps (fun x n hn hne => ?_) crlf
  rw [← hname]
  exact p.leads_of_read hk rfl hb hmap hn hne

/-! ### A declaration with a mark -/

/-- A map of a file with one rule whose entries lead to `a.css`. -/
def markedMap (file : String) (entries : List MapEntry) : SourceMap where
  file := some file
  entries
  sources := ["a.css"]
  contents := [some "a\x7b*b:c\x7d"]

/-- The map of the first run. -/
def firstMap : SourceMap :=
  markedMap "b.css"
    [⟨0, 0, some ⟨0, 0, 0, none⟩⟩, ⟨0, 3, some ⟨0, 0, 2, none⟩⟩, ⟨0, 6, some ⟨0, 0, 6, none⟩⟩]

/-- The map of the second run. -/
def secondMap : SourceMap :=
  markedMap "c.css"
    [⟨0, 0, some ⟨0, 0, 0, none⟩⟩, ⟨0, 3, some ⟨0, 0, 0, none⟩⟩, ⟨0, 6, some ⟨0, 0, 6, none⟩⟩]

/-- What the first run prints. -/
def firstText : String :=
  "a\x7b*b:c\x7d\n/*# sourceMappingURL=b.css.map */"

/-- What the second run reads. -/
def secondInput : Input :=
  .assemble firstText false (some (Input.resolveFile (some .top) "b.css")) none
    (some (.given firstText firstMap.render firstMap))

theorem parse_marked :
    ∃ t, (parse {} "a\x7b*b:c\x7d" (ProcessOptions.between "a.css" "b.css").forParsing).1 = .ok t ∧
      (∀ i ∈ t.inputs, i.map = none) ∧
      (∀ x ∈ t.children Tree.rootId, t.namesMap x = false) ∧
      ((t.generate {} (.between "a.css" "b.css")).1.map Output.css).toOption = some firstText ∧
      (t.withoutLinks.detail ⟨2⟩).source.bind Source.start = some (.behind "a\x7b") ∧
      (MapPlan.ofTree {} t (.between "a.css" "b.css")).Gives t.withoutLinks firstMap := by
  have hread : ∃ t ∈ (parse {} "a\x7b*b:c\x7d"
      (ProcessOptions.between "a.css" "b.css").forParsing).1.toOption,
      (∀ i ∈ t.inputs, i.map = none) ∧
      (∀ x ∈ t.children Tree.rootId, t.namesMap x = false) ∧
      ((t.generate {} (.between "a.css" "b.css")).1.map Output.css).toOption = some firstText ∧
      (t.withoutLinks.detail ⟨2⟩).source.bind Source.start = some (.behind "a\x7b") ∧
      (MapPlan.ofTree {} t (.between "a.css" "b.css")).Gives t.withoutLinks firstMap := by
    decide +kernel
  obtain ⟨t, ht, hrest⟩ := hread
  exact ⟨t, eq_ok_of_mem_toOption ht, hrest⟩

theorem keeps_firstMap : Packages.standard.Keeps firstMap firstMap.render ∧
    parseMap .standard firstMap.render = .ok firstMap := by
  have hfields : plainFields? firstMap.render = some
      ⟨some "b.css", ["a.css"], none, [some "a\x7b*b:c\x7d"], [], "AAAA,GAAE,GAAI", false⟩ := by
    decide +kernel
  exact Packages.keeps_of_plainFields hfields (by decide +kernel) (by decide +kernel) rfl

/-- Both runs on the declaration, with packages that do what is documented. -/
theorem leads_of_runs_marked :
    ∃ r₁ m₁ s₁ r₂ m₂ s₂, ((Deferred.ofInput [] (.text "a\x7b*b:c\x7d")
        (.between "a.css" "b.css")).finish 1 true).run (({}, ()) : Workspace × Unit) =
          (.ok r₁, s₁) ∧
      r₁.map = some m₁ ∧
      ((Deferred.ofInput [] (.text r₁.css)
        (.between "b.css" "c.css" (some (.json m₁.render)))).finish 1 true).run s₁ =
          (.ok r₂, s₂) ∧
      r₂.map = some m₂ ∧ r₂.tree.MapsBack .standard m₂ "a.css" "a\x7b*b:c\x7d" := by
  obtain ⟨t, hparse, hmaps, hlinks, -, -, hgives⟩ := parse_marked
  obtain ⟨r₁, m₁, s₁, hrun, hmap, hsecond⟩ := leads_of_runs Nat.one_pos true ({}, ())
    Packages.documented_standard hparse hmaps hlinks (by decide +kernel)
  obtain ⟨r, s', hrun', -, -, hmap', -⟩ := run_between (s := ({}, ())) hparse hgives
  obtain rfl := Except.ok.inj (Prod.mk.inj (hrun.symm.trans hrun')).1
  have hkeeps : Packages.standard.Keeps m₁ m₁.render := by
    obtain rfl := Option.some.inj (hmap.symm.trans hmap')
    exact keeps_firstMap.1
  obtain ⟨r₂, m₂, s₂, hrun₂, hmap₂, hback⟩ := hsecond m₁.render hkeeps
  exact ⟨r₁, m₁, s₁, r₂, m₂, s₂, hrun, hmap, hrun₂, hmap₂, hback⟩

/-- The declaration is printed behind its mark. The map of the second run does not lead from there
to where the declaration starts, but to the rule. -/
theorem runs_of_mark :
    ∃ r₁ m₁ s₁ r₂ m₂ s₂, ((Deferred.ofInput [] (.text "a\x7b*b:c\x7d")
        (.between "a.css" "b.css")).finish 1 true).run (({}, ()) : Workspace × Unit) =
          (.ok r₁, s₁) ∧
      r₁.map = some m₁ ∧ Packages.standard.Keeps m₁ m₁.render ∧
      ((Deferred.ofInput [] (.text r₁.css)
        (.between "b.css" "c.css" (some (.json m₁.render)))).finish 1 true).run s₁ =
          (.ok r₂, s₂) ∧
      r₂.map = some m₂ ∧ ∃ x ∈ r₂.tree.children ⟨1⟩,
        (r₁.tree.detail x).source.bind Source.start = some (.behind "a\x7b") ∧
        (r₂.tree.detail x).source.bind Source.start = some (.behind "a\x7b") ∧
        Chunk.textOf ((r₂.tree.chunks Tree.rootId).takeWhile (·.part.map Prod.fst ≠ some x)) =
          "a\x7b*" ∧
        Packages.standard.Leads m₂ (Spot.behind "a\x7b*") "a.css" (Spot.behind "") ∧
        ¬ Packages.standard.Leads m₂ (Spot.behind "a\x7b*") "a.css" (Spot.behind "a\x7b") := by
  obtain ⟨t, hparse, -, -, hcss, hfrom, hgives⟩ := parse_marked
  obtain ⟨r₁, s₁, hrun₁, hsame, htree₁, hmap₁, hcss₁⟩ := run_between (s := ({}, ())) hparse hgives
  change s₁.1.toEnvironment = {} at hsame
  have htext : r₁.css = firstText := by
    rw [show (({}, ()) : Workspace × Unit).1.toEnvironment = {} from rfl] at hcss₁
    rw [hcss₁] at hcss
    exact Option.some.inj hcss
  -- The second run is evaluated with its input given; that it reads this input is shown after it.
  have hreread : ∃ b ∈ (outlineText secondInput.position firstText).toOption,
      (MapPlan.ofTree {} (.ofDraft secondInput b)
        (.between "b.css" "c.css" (some (.json firstMap.render)))).Gives
          (Tree.ofDraft secondInput b).withoutLinks secondMap ∧
      Chunk.textOf (((Tree.ofDraft secondInput b).withoutLinks.chunks Tree.rootId).takeWhile
        (·.part.map Prod.fst ≠ some ⟨2⟩)) = "a\x7b*" ∧
      ((Tree.ofDraft secondInput b).withoutLinks.detail ⟨2⟩).source.bind Source.start =
        some (.behind "a\x7b") ∧
      (Tree.ofDraft secondInput b).withoutLinks.children ⟨1⟩ = [⟨2⟩] := by
    decide +kernel
  obtain ⟨b, hb, hgives₂, hplace, hstart, hchild⟩ := hreread
  -- The map of the first run is loaded as it was written, so the inputs are the same.
  have hreparse : (parse s₁.1 firstText (ProcessOptions.between "b.css" "c.css"
      (some (.json firstMap.render))).forParsing).1 = .ok (.ofDraft secondInput b) := by
    have hload := load_second {} firstText keeps_firstMap.2
    rw [← hsame] at hload
    have hdirectory := congrArg Environment.directory hsame
    change s₁.1.directory = some .top at hdirectory
    have hinput : secondInput = .assemble firstText false
        (some (Input.resolveFile s₁.1.directory "b.css")) none
        (some (.given firstText firstMap.render firstMap)) := by
      rw [hdirectory, secondInput]
    rw [hinput] at hb ⊢
    exact parse_of_load (by decide +kernel) hload (eq_ok_of_mem_toOption hb)
  rw [← hsame] at hgives₂
  obtain ⟨r₂, s₂, hrun₂, -, htree₂, hmap₂, -⟩ := run_between (s := s₁) hreparse hgives₂
  refine ⟨r₁, firstMap, s₁, r₂, secondMap, s₂, hrun₁, hmap₁, keeps_firstMap.1, ?_, hmap₂, ⟨2⟩, ?_,
    ?_, ?_, ?_, by decide +kernel, by decide +kernel⟩
  · rw [htext]
    exact hrun₂
  · rw [htree₂, hchild]
    exact List.mem_singleton_self _
  · rw [htree₁, hfrom]
  · rw [htree₂, hstart]
  · rw [htree₂, hplace]

end Stylesheet
