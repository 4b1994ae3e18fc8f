import Stylesheet.Proofs.Outline.Details
import Stylesheet.Proofs.Tree.Retells

/-!
# The output for a tree that was written and read

The JSON of a tree keeps of a map that came with an input only its text. Whether the map was part of
the stylesheet, whether a comment named it and where it was found is not written. What the options
leave open follows just that, so the output for the tree that is read can be another one
(`reload_of_inline_map`).

It is the output for what is written of the tree (`Tree.asWritten`), and the one for the tree itself
as long as nothing of what is lost counts (`MapPlan.Keeps`). Both are `generate_of_reload`, and both
come from one comparison of plans (`MapPlan.Forgets`) and of trees (`Tree.Retells.generate_eq`).
-/

namespace Stylesheet

namespace MapPlan

/-- The options alone say whether the map is part of the output. -/
def fixesInline (p : MapPlan) : Bool :=
  p.mapOptions.inline.isSome ||
    match p.mapOptions.link with
    | none | some (.enabled true) => false
    | some _ => true

/-- The options alone say whether a comment names the map, if they say whether it is part of the
output. -/
def fixesLink (p : MapPlan) : Bool :=
  p.mapOptions.inline == some true || p.mapOptions.link.isSome

/-- Nothing that the output depends on is lost of a map that came with an input, when only its text
is known. -/
structure Keeps (p : MapPlan) (i : Input) (m : PreviousMap) : Prop where
  inline : p.fixesInline = true ∨ m.inline = false
  link : p.fixesLink = true ∨ m.link = none
  root : p.previousRoot (i.rereadMap m) = p.previousRoot m

instance (p : MapPlan) (i : Input) (m : PreviousMap) : Decidable (p.Keeps i m) :=
  decidable_of_iff ((p.fixesInline = true ∨ m.inline = false) ∧
      (p.fixesLink = true ∨ m.link = none) ∧ p.previousRoot (i.rereadMap m) = p.previousRoot m)
    ⟨fun ⟨hinline, hlink, hroot⟩ => ⟨hinline, hlink, hroot⟩,
      fun ⟨hinline, hlink, hroot⟩ => ⟨hinline, hlink, hroot⟩⟩

end MapPlan

namespace Tree

/-- The inputs in use that came with a map, with their maps. -/
def mapsInUse (t : Tree) : List (Input × PreviousMap) :=
  t.inputsInUse.filterMap fun i => i.map.map (i, ·)

end Tree

namespace MapPlan

variable {p q : MapPlan} {maps : List (Input × PreviousMap)}

theorem previous_ofTree (e : Environment) (t : Tree) (options : ProcessOptions) :
    (ofTree e t options).previous = t.mapsInUse.map Prod.snd := by
  rw [ofTree, Tree.mapsInUse, List.map_filterMap]
  refine congrArg (List.filterMap · _) (funext fun i => ?_)
  rw [Option.map_map]
  exact Option.map_id'.symm

/-- The same options, and maps of which only the texts are known. -/
structure Forgets (p q : MapPlan) (maps : List (Input × PreviousMap)) : Prop where
  environment : q.environment = p.environment
  options : q.options = p.options
  previous : p.previous = maps.map Prod.snd
  previous' : q.previous = maps.map fun (i, m) => i.rereadMap m
  keeps : ∀ x ∈ maps, p.Keeps x.1 x.2

namespace Forgets

variable (h : p.Forgets q maps)
include h

theorem eq : q = { p with previous := maps.map fun (i, m) => i.rereadMap m } := by
  obtain ⟨environment, options, previous⟩ := q
  obtain ⟨rfl, rfl, -, rfl, -⟩ := h
  rfl

theorem packages_eq : q.packages = p.packages := by
  rw [packages, h.environment]
  rfl

theorem mapOptions_eq : q.mapOptions = p.mapOptions := by
  rw [mapOptions, h.options]
  rfl

theorem isEmpty_eq : q.previous.isEmpty = p.previous.isEmpty := by
  rw [h.previous, h.previous', List.isEmpty_map, List.isEmpty_map]

theorem wantsMap_eq : q.wantsMap = p.wantsMap := by
  rw [wantsMap, wantsMap, h.options, h.isEmpty_eq]

/-- Without a word in the options, no map is known to be part of its stylesheet. -/
theorem any_inline_eq (hfixes : p.fixesInline = false) :
    q.previous.any (·.inline) = p.previous.any (·.inline) := by
  have hnone : p.previous.any (·.inline) = false := by
    rw [h.previous, List.any_map, List.any_eq_false]
    intro x hx
    have := (h.keeps x hx).inline.resolve_left (by rw [hfixes]; exact Bool.false_ne_true)
    simp [this]
  rw [hnone, h.previous', List.any_map, List.any_eq_false]
  exact fun x _ => Bool.false_ne_true

/-- Without a word in the options, no map is known to be named in its stylesheet. -/
theorem any_link_eq (hfixes : p.fixesLink = false) :
    q.previous.any (·.link.isSome) = p.previous.any (·.link.isSome) := by
  have hnone : p.previous.any (·.link.isSome) = false := by
    rw [h.previous, List.any_map, List.any_eq_false]
    intro x hx
    have := (h.keeps x hx).link.resolve_left (by rw [hfixes]; exact Bool.false_ne_true)
    simp [this]
  rw [hnone, h.previous', List.any_map, List.any_eq_false]
  exact fun x _ => Bool.false_ne_true

theorem isInline_eq : q.isInline = p.isInline := by
  have hany := h.any_inline_eq
  rw [fixesInline] at hany
  rw [isInline, isInline, h.mapOptions_eq, h.isEmpty_eq]
  -- Whether an input was inline is asked only when the options leave it open.
  cases hinline : p.mapOptions.inline with
  | some inline => rfl
  | none =>
    rw [hinline] at hany
    cases hlink : p.mapOptions.link with
    | none => rw [hany (by rw [hlink]; rfl)]
    | some link =>
      cases link with
      | path url => rfl
      | enabled on =>
        cases on with
        | true => rw [hany (by rw [hlink]; rfl)]
        | false => rfl

theorem isLinked_eq : q.isLinked = p.isLinked := by
  have hany := h.any_link_eq
  rw [fixesLink] at hany
  rw [isLinked, isLinked, h.isInline_eq, h.mapOptions_eq, h.isEmpty_eq]
  cases hlink : p.mapOptions.link with
  | some link => cases link <;> rfl
  | none =>
    rw [hlink] at hany
    cases hinline : p.mapOptions.inline == some true with
    | false => rw [hany (by rw [hinline]; rfl)]
    | true =>
      have : p.isInline = true := by rw [isInline, beq_iff_eq.mp hinline]
      rw [this, Bool.true_or, Bool.true_or]

theorem holdsTexts_eq : q.holdsTexts = p.holdsTexts := by
  rw [holdsTexts, holdsTexts, h.mapOptions_eq, h.isEmpty_eq, h.previous, h.previous']
  simp [List.any_map, Function.comp_def, Input.rereadMap]

/-! ### Origins and texts -/

theorem sourceName_eq (i : Input) : q.sourceName i.reread = p.sourceName i := by
  rw [h.eq]
  rfl

theorem previousName_eq {i : Input} {m : PreviousMap} (hm : p.Keeps i m) (source : String) :
    q.previousName (i.rereadMap m) source = p.previousName m source := by
  have hroot : q.previousRoot (i.rereadMap m) = p.previousRoot m := by
    rw [← hm.root, h.eq]
    rfl
  rw [previousName, previousName, hroot]

/-- A place that is read has the same origin. -/
theorem origin_eq {i : Input} (hi : ∀ m ∈ i.map, p.Keeps i m) (position : Position) :
    q.origin i.reread position = p.origin i position := by
  have hmap : i.reread.map = i.map.map i.rereadMap := rfl
  have htrace : ∀ (k : Packages) (m : PreviousMap) (line column : Nat),
      (i.rereadMap m).trace? k line column = m.trace? k line column := fun _ _ _ _ => rfl
  rw [origin, origin, h.sourceName_eq, h.packages_eq, hmap]
  congr 1
  cases hm : i.map with
  | none => rw [Option.map_none, Option.bind_none, Option.bind_none]
  | some m =>
    simp only [Option.map_some, Option.bind_some, htrace, h.previousName_eq (hi m hm)]

theorem knownTexts_eq {t u : Tree} (hinputs : u.inputsInUse = t.inputsInUse.map Input.reread) :
    q.knownTexts u = p.knownTexts t := by
  have hcss : ∀ i : Input, i.reread.css = i.css := fun _ => rfl
  rw [knownTexts, knownTexts, h.mapOptions_eq, h.holdsTexts_eq, h.packages_eq, h.previous,
    h.previous', hinputs, List.flatMap_map, List.flatMap_map, List.map_map]
  refine congrArg₂ (· ++ ·) (congrArg List.reverse ?_) ?_
  · split_ifs
    · rfl
    · refine List.flatMap_congr fun x hx => ?_
      have hmap : (x.1.rereadMap x.2).map = x.2.map := rfl
      dsimp only
      simp only [h.previousName_eq (h.keeps x hx), hmap]
  · simp only [Function.comp_def, h.sourceName_eq, hcss]

end Forgets

end MapPlan

/-- The recorded lines and columns are numbers of 32 bits. -/
def Detail.IsNarrow (d : Detail) : Prop :=
  d.Placed fun p => p.narrow = p

namespace Tree.Retells

variable {ρ : NodeId → NodeId} {used : List Nat} {t u : Tree} {x : NodeId} {p q : MapPlan}
  {maps : List (Input × PreviousMap)}

/-! ### Mappings -/

section

variable (h : t.Retells ρ used u) (hplans : p.Forgets q maps)
  (hkeeps : ∀ i ∈ t.inputs, ∀ m ∈ i.map, p.Keeps i m)
  (hnarrow : ∀ x, (t.detail x).IsNarrow)
include h

/-- A node ends open in both trees. -/
theorem endsOpen_eq (hx : t.Attached x) {n n' : Node} (hn : t.get? x = some n)
    (hmirror : n.Mirror ρ n') :
    MapPlan.endsOpen u (ρ x) n' = MapPlan.endsOpen t x n := by
  rw [MapPlan.endsOpen, MapPlan.endsOpen, hmirror.kind, hmirror.container, hmirror.parent]
  cases hparent : n.parent with
  | none => rfl
  | some y =>
    have hup : t.parent? x = some y := by rw [parent?, hn]; exact hparent
    have hy := h.mirror.attached_parent hx hup
    obtain ⟨m, m', hm, hm', hsame⟩ := h.mirror.node y hy
    rw [Option.map_some, Option.bind_some, Option.bind_some, hm, hm']
    dsimp only
    -- The map between the trees is injective on attached nodes, so it keeps being the last child.
    have hlast : (m'.children.getLast? == some (ρ x)) = (m.children.getLast? == some x) := by
      rw [hsame.children, List.getLast?_map, Bool.eq_iff_iff, beq_iff_eq, beq_iff_eq]
      cases hlast : m.children.getLast? with
      | none => simp
      | some c =>
        have hc : t.Attached c := by
          refine hy.child h.consistent ?_
          rw [Tree.children, hm]
          exact List.mem_of_getLast? hlast
        rw [Option.map_some, Option.some.injEq, Option.some.injEq]
        exact ⟨h.distinct c x hc hx, congrArg ρ⟩
    rw [hlast, hsame.raws]

include hplans hkeeps hnarrow

theorem origins_eq (hx : t.Attached x) {n n' : Node} (hn : t.get? x = some n)
    (hn' : u.get? (ρ x) = some n') : q.origins u n' = p.origins t n := by
  have hdetail := h.detail x hx
  have hplaces := hnarrow x
  have hused := h.known x hx
  rw [detail_of_get? hn] at hdetail hplaces hused
  rw [detail_of_get? hn'] at hdetail
  have hsource : n'.source = n.source.map (Source.renumber used) := by
    rw [Node.source, hdetail]
    rfl
  rw [MapPlan.origins, MapPlan.origins, hsource]
  cases hs : n.source with
  | none => rfl
  | some s =>
    have hinput : u.inputs[(s.renumber used).input]? = (t.inputs[s.input]?).map Input.reread :=
      h.inputs s.input (hused s hs)
    rw [Option.map_some]
    dsimp only
    rw [hinput]
    cases hi : t.inputs[s.input]? with
    | none => rfl
    | some i =>
      have horigin := hplans.origin_eq (hkeeps i (Array.mem_of_getElem? hi))
      -- Positions are written with 32 bits; those of this tree fit.
      have hpositions : ∀ o : Option Position, (∀ p ∈ o, p.narrow = p) →
          (o.map Position.narrow).map (q.origin i.reread) = o.map (p.origin i) := by
        intro o ho
        rw [Option.map_map]
        refine Option.map_congr fun position hposition => ?_
        rw [Function.comp_apply, ho position hposition, horigin]
      rw [Option.map_some]
      exact Prod.ext (hpositions s.start (hplaces s hs).1) (hpositions s.stop (hplaces s hs).2)

theorem chunkMappings_eq {c c' : Chunk} (hc : Chunk.Mirror ρ t u c c') (before after : Spot) :
    q.chunkMappings u before after c' = p.chunkMappings t before after c := by
  rw [MapPlan.chunkMappings, MapPlan.chunkMappings, hc.part]
  cases hpart : c.part with
  | none => rfl
  | some part =>
    obtain ⟨x, phase⟩ := part
    have hx := hc.attached x phase hpart
    obtain ⟨n, n', hn, hn', hmirror⟩ := h.mirror.node x hx
    rw [Option.map_some]
    dsimp only
    rw [hn, hn']
    dsimp only
    rw [h.origins_eq hplans hkeeps hnarrow hx hn hn', h.endsOpen_eq hx hn hmirror]

theorem mappingsFrom_eq {cs cs' : List Chunk} (hcs : MirrorAll ρ t u cs cs') (s : Spot) :
    q.mappingsFrom u s cs' = p.mappingsFrom t s cs := by
  induction hcs generalizing s with
  | nil => rfl
  | cons hc _ ih =>
    have htext := hc.text fun x _ _ _ hx => h.content?_eq hx
    rw [MapPlan.mappingsFrom, MapPlan.mappingsFrom, htext,
      h.chunkMappings_eq hplans hkeeps hnarrow hc, ih]

/-! ### Outputs -/

theorem generateString_eq : q.generateString u = p.generateString t := by
  rw [MapPlan.generateString, MapPlan.generateString, MapPlan.mappings, MapPlan.mappings,
    h.mappingsFrom_eq hplans hkeeps hnarrow h.mirror.chunks_alike]
  exact Prod.ext (h.mirror.print_eq fun x hx => h.content?_eq hx) rfl

theorem output_eq : q.output u = p.output t := by
  have hfile : q.outputFile = p.outputFile := by rw [hplans.eq]; rfl
  have hbuild : ∀ ms, q.buildMap u ms = p.buildMap t ms := by
    intro ms
    rw [MapPlan.buildMap, MapPlan.buildMap, MapPlan.draft, MapPlan.draft, hplans.packages_eq, hfile,
      hplans.knownTexts_eq h.inputsInUse_eq]
  have hlinked : q.linked = p.linked := by
    funext css m
    rw [MapPlan.linked, MapPlan.linked, MapPlan.mapUrl, MapPlan.mapUrl, hplans.isLinked_eq,
      hplans.isInline_eq, hplans.mapOptions_eq, hplans.packages_eq, hfile]
  rw [MapPlan.output, MapPlan.output, hplans.wantsMap_eq, hplans.isInline_eq,
    h.generateString_eq hplans hkeeps hnarrow, hlinked,
    h.mirror.print_eq fun x hx => h.content?_eq hx]
  simp only [hbuild]

end

/-- The plans for both trees. -/
theorem forgets (h : t.Retells ρ used u) {e : Environment} {options : ProcessOptions}
    (hkeeps : ∀ i ∈ t.inputs, ∀ m ∈ i.map, (MapPlan.ofTree e t options).Keeps i m) :
    (MapPlan.ofTree e t options).Forgets (MapPlan.ofTree e u options) t.mapsInUse where
  environment := rfl
  options := rfl
  previous := MapPlan.previous_ofTree e t options
  previous' := by
    rw [MapPlan.ofTree, h.inputsInUse_eq, mapsInUse, List.filterMap_map, List.map_filterMap]
    refine congrArg (List.filterMap · _) (funext fun i => ?_)
    rw [Option.map_map]
    rfl
  keeps := by
    rintro ⟨i, m⟩ hmem
    obtain ⟨j, hj, hm⟩ := List.mem_filterMap.mp hmem
    obtain ⟨m', hm', heq⟩ := Option.map_eq_some_iff.mp hm
    cases heq
    obtain ⟨k, -, hk⟩ := List.mem_filterMap.mp hj
    exact hkeeps i (Array.mem_of_getElem? hk) m hm'

/-- The output is the same when nothing that it depends on is lost. -/
theorem generate_eq (h : t.Retells ρ used u) {e : Environment} {options : ProcessOptions}
    (hkeeps : ∀ i ∈ t.inputs, ∀ m ∈ i.map, (MapPlan.ofTree e t options).Keeps i m)
    (hnarrow : ∀ x, (t.detail x).IsNarrow) :
    (u.generate e options).1 = (t.generate e options).1 := by
  have hplans := h.forgets hkeeps
  have hlinks : (MapPlan.ofTree e u options).keepsLinks =
      (MapPlan.ofTree e t options).keepsLinks := rfl
  rw [Tree.generate, Tree.generate]
  dsimp only
  rw [hlinks]
  split_ifs
  · exact h.output_eq hplans hkeeps hnarrow
  · refine h.withoutLinks.output_eq hplans ?_ fun x s hs => ?_
    · rwa [inputs_withoutLinks]
    · rw [source_withoutLinks] at hs
      exact hnarrow x s hs

/-- Without a map, the output is the text of the tree. -/
theorem generate_eq_of_disabled (h : t.Retells ρ used u) {e : Environment}
    {options : ProcessOptions} (hmap : options.map = .disabled) :
    (u.generate e options).1 = (t.generate e options).1 := by
  have houtput : ∀ v v' : Tree, (MapPlan.ofTree e v options).output v' = .ok ⟨v'.print, none⟩ := by
    intro v v'
    have hwants : (MapPlan.ofTree e v options).wantsMap = false := by
      rw [MapPlan.wantsMap, MapPlan.ofTree, hmap]
    rw [MapPlan.output, hwants]
    rfl
  have hlinks : (MapPlan.ofTree e u options).keepsLinks =
      (MapPlan.ofTree e t options).keepsLinks := rfl
  rw [Tree.generate, Tree.generate]
  dsimp only
  rw [hlinks, houtput, houtput]
  split_ifs
  · rw [h.mirror.print_eq fun x hx => h.content?_eq hx]
  · rw [h.withoutLinks.mirror.print_eq fun x hx => h.withoutLinks.content?_eq hx]

end Tree.Retells

/-! ### What is written of a tree -/

theorem Position.narrow_narrow (p : Position) : p.narrow.narrow = p.narrow := by
  rw [narrow, narrow]
  dsimp only
  rw [Nat.mod_mod, Nat.mod_mod]

/-- The place with lines and columns of 32 bits. -/
def Source.narrow (s : Source) : Source :=
  { s with start := s.start.map Position.narrow, stop := s.stop.map Position.narrow }

theorem Source.renumber_narrow (used : List Nat) (s : Source) :
    s.narrow.renumber used = s.renumber used := by
  have hposition : Position.narrow ∘ Position.narrow = Position.narrow :=
    funext Position.narrow_narrow
  rw [renumber, renumber, narrow]
  dsimp only
  rw [Option.map_map, Option.map_map, hposition]

/-- The details with lines and columns of 32 bits. -/
def Detail.narrow (d : Detail) : Detail :=
  { d with source := d.source.map Source.narrow }

theorem Detail.renumber_narrow (used : List Nat) (d : Detail) :
    d.narrow.renumber used = d.renumber used := by
  have hsource : Source.renumber used ∘ Source.narrow = Source.renumber used :=
    funext (Source.renumber_narrow used)
  rw [renumber, renumber, narrow]
  dsimp only
  rw [Option.map_map, hsource]

theorem Detail.isNarrow_narrow (d : Detail) : d.narrow.IsNarrow := by
  intro s hs
  obtain ⟨s', -, rfl⟩ := Option.map_eq_some_iff.mp hs
  have hpositions : ∀ o : Option Position, ∀ p ∈ o.map Position.narrow, p.narrow = p := by
    intro o p hp
    obtain ⟨p', -, rfl⟩ := Option.map_eq_some_iff.mp hp
    exact p'.narrow_narrow
  exact ⟨hpositions s'.start, hpositions s'.stop⟩

theorem Input.reread_reread (i : Input) : i.reread.reread = i.reread := by
  rw [reread, reread, assemble, assemble]
  dsimp only
  rw [Option.map_map]
  rfl

namespace Tree

variable {t u : Tree} {ρ : NodeId → NodeId} {used : List Nat}

/-- The tree as far as it is written: its lines and columns are numbers of 32 bits, and nothing but
their texts is known of the maps of its inputs. -/
def asWritten (t : Tree) : Tree where
  nodes := t.nodes.map fun n => { n with detail := n.detail.narrow }
  inputs := t.inputs.map Input.reread

theorem get?_asWritten (t : Tree) (x : NodeId) :
    t.asWritten.get? x = (t.get? x).map fun n => { n with detail := n.detail.narrow } :=
  Array.getElem?_map ..

theorem links_asWritten (t : Tree) : t.asWritten.links = t.links := by
  funext x
  rw [links, links, get?_asWritten, Option.map_map]
  rfl

theorem detail_asWritten (t : Tree) (x : NodeId) :
    t.asWritten.detail x = (t.detail x).narrow := by
  rw [detail, detail, get?_asWritten]
  cases t.get? x <;> rfl

/-- The maps of the inputs are already without what is lost. -/
theorem keeps_asWritten (p : MapPlan) : ∀ i ∈ t.asWritten.inputs, ∀ m ∈ i.map, p.Keeps i m := by
  intro i hi m hm
  obtain ⟨j, -, rfl⟩ := Array.mem_map.mp hi
  obtain ⟨m', -, rfl⟩ := Option.map_eq_some_iff.mp hm
  exact ⟨Or.inr rfl, Or.inr rfl, rfl⟩

/-- What is read retells what is written. -/
theorem Retells.asWritten (h : t.Retells ρ used u) : t.asWritten.Retells ρ used u := by
  have hparent : t.asWritten.parent? = t.parent? := by
    funext x
    rw [parent?_eq_links, parent?_eq_links, links_asWritten]
  -- Writing changes details alone, so all links are the same.
  have hattached : t.asWritten.Attached = t.Attached := by
    have hunder : t.asWritten.Under = t.Under := by
      funext x y
      rw [Under, Under, hparent]
    funext x
    rw [Attached, Attached, hunder]
  have hchildren : t.asWritten.children = t.children := by
    funext x
    rw [children_eq_links, children_eq_links, links_asWritten]
  refine
    { consistent := h.consistent.of_links_eq t.links_asWritten
      consistent' := h.consistent'
      rooted := by rw [kind?_eq_links, links_asWritten, ← kind?_eq_links]; exact h.rooted
      root := h.root
      distinct := hattached ▸ h.distinct
      contains := hattached ▸ h.contains
      parent := by rw [hattached, hparent]; exact h.parent
      children := by rw [hattached, hchildren]; exact h.children
      detail := fun x hx => ?_
      known := fun x hx s hs => ?_
      inputs := fun k hk => ?_ }
  · rw [detail_asWritten, Detail.renumber_narrow]
    exact h.detail x (hattached ▸ hx)
  · rw [detail_asWritten] at hs
    obtain ⟨s', hs', rfl⟩ := Option.map_eq_some_iff.mp hs
    exact h.known x (hattached ▸ hx) s' hs'
  · have hreread : Input.reread ∘ Input.reread = Input.reread := funext Input.reread_reread
    rw [h.inputs k hk, Tree.asWritten, Array.getElem?_map, Option.map_map, hreread]

end Tree

/-! ### Reloading -/

/-- The output for a stylesheet that was written and read is the one for what is written of it. It
is the output for the stylesheet itself when there is no map, or when nothing that the options leave
open follows what is lost of the maps that came with it. -/
theorem generate_of_reload {w : Workspace} {css : String} {reading : ParseOptions} {t : Tree}
    (h : (parse w css reading).1 = .ok t) {e : Environment} (he : w.packages = e.packages)
    (options : ProcessOptions) :
    ∃ u, Tree.ofJson e t.toJson = .ok u ∧
      (u.generate e options).1 = (t.asWritten.generate e options).1 ∧
      (options.map = .disabled ∨ css.utf8ByteSize + 1 < UInt32.size ∧
          (∀ i ∈ t.inputs, ∀ m ∈ i.map, (MapPlan.ofTree e t options).Keeps i m) →
        (u.generate e options).1 = (t.generate e options).1) := by
  have hgrown : t.Grown e.packages := Tree.Grown.parse he h
  have hconsistent := hgrown.orderly.consistent
  have hroot := hgrown.orderly.rooted
  have hretells := Tree.retells_reread hconsistent hroot hgrown.legible.lt_of_mem_usedInputs
  refine ⟨t.reread, hgrown.legible.ofJson_toJson hconsistent hroot, ?_, ?_⟩
  · refine hretells.asWritten.generate_eq (Tree.keeps_asWritten _) fun x => ?_
    rw [Tree.detail_asWritten]
    exact (t.detail x).isNarrow_narrow
  -- The trees differ in what is lost when inputs are written: their maps, and large positions.
  · rintro (hdisabled | ⟨hsize, hkeeps⟩)
    · exact hretells.generate_eq_of_disabled hdisabled
    · refine hretells.generate_eq hkeeps fun x => ?_
      cases hn : t.get? x with
      | none =>
        rw [Tree.detail, hn]
        intro s hs
        cases hs
      | some n =>
        rw [Tree.detail_of_get? hn]
        refine (placed_of_parse h hn).mono fun p hp => ?_
        rw [Position.narrow, Nat.mod_eq_of_lt (hp.1.trans_lt hsize),
          Nat.mod_eq_of_lt (hp.2.trans_lt hsize)]

/-- The options give a map without entries. -/
def givenMap : ParseOptions :=
  ⟨none, .enabled { prev := some (.json "\x7b\"mappings\":\"\"\x7d") }⟩

/-- A map that the options gave and that no comment names: nothing is lost that counts. -/
theorem generate_of_reload_given :
    ∃ t u, (parse {} "a\x7b\x7d" givenMap).1 = .ok t ∧
      Tree.ofJson {} t.toJson = .ok u ∧ (u.generate {} {}).1 = (t.generate {} {}).1 ∧
      ((t.generate {} {}).1.toOption.bind Output.map).isSome = true := by
  have hread : (parse {} "a\x7b\x7d" givenMap).1.toOption.any (fun t =>
      decide (∀ i ∈ t.inputs, ∀ m ∈ i.map, (MapPlan.ofTree {} t {}).Keeps i m) &&
        ((t.generate {} {}).1.toOption.bind Output.map).isSome) = true := by
    decide +kernel
  cases ht : (parse {} "a\x7b\x7d" givenMap).1 with
  | error e => rw [ht] at hread; cases hread
  | ok t =>
    rw [ht] at hread
    obtain ⟨hkeeps, hmap⟩ := Bool.and_eq_true_iff.mp hread
    obtain ⟨u, hu, -, hsame⟩ := @generate_of_reload _ _ _ _ ht {} rfl {}
    exact ⟨t, u, rfl, hu, hsame (Or.inr ⟨by decide +kernel, of_decide_eq_true hkeeps⟩), hmap⟩

/-- The map is part of the output for the stylesheet. Read from what was written of it, the
stylesheet gets a map of its own, which nothing in the output names. -/
theorem reload_of_inline_map :
    (parse {} "a\x7b\x7d/*# sourceMappingURL=data:application/json,\x7b\"mappings\":\"\"\x7d*/"
      {}).1.toOption.bind (fun t => (Tree.ofJson {} t.toJson).toOption.bind fun u =>
        (t.generate {} {}).1.toOption.bind fun first =>
          (u.generate {} {}).1.toOption.map fun second =>
            (first.map.isSome, second.map.isSome, second.css)) =
      some (false, true, "a\x7b\x7d") := by
  decide +kernel

end Stylesheet
