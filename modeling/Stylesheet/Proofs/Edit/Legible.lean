import Stylesheet.Proofs.Edit.Details
import Stylesheet.Proofs.Tree.Written

/-!
# Edits keep trees legible

A tree that is written as JSON is read again when every node that opens a block has one and every
input that a node names is there (`Tree.Legible`). This holds of the empty tree and of stylesheets
that were read, and every edit keeps it, whether it fails or not (`Edit.legible_run`).

It is a condition on single nodes that outlives what edits do to them (`Detail.lasting_known`).
-/

namespace Stylesheet

/-! ### Single nodes -/

namespace Detail.Known

variable {count : Nat} {d d' : Detail}

theorem default : (default : Detail).Known count :=
  ⟨fun _ => rfl, nofun⟩

/-- Captured formatting makes no difference. -/
theorem congr (h : d.Known count) (hcontent : d'.content = d.content) (hblock : d'.block = d.block)
    (hsource : d'.source = d.source) : d'.Known count where
  block := by rw [hcontent, hblock]; exact h.block
  source := by rw [hsource]; exact h.source

theorem mono (h : d.Known count) {count' : Nat} (hle : count ≤ count') : d.Known count' :=
  ⟨h.block, fun s hs => Nat.lt_of_lt_of_le (h.source s hs) hle⟩

theorem dropSource (h : d.Known count) (count' : Nat) : (Tree.dropSource d).Known count' :=
  ⟨h.block, nofun⟩

/-- Inputs that are there get numbers of inputs that are there. -/
theorem renumberInput (h : d.Known count) {count' : Nat} {f : Nat → Nat}
    (hf : ∀ i < count, f i < count') : (Tree.renumberInput f d).Known count' := by
  refine ⟨h.block, fun s hs => ?_⟩
  obtain ⟨s', hs', rfl⟩ := Option.map_eq_some_iff.mp hs
  exact hf _ (h.source s' hs')

/-- Other contents of the same kind. -/
theorem withContent (h : d.Known count) {new : Content} (hkind : new.kind = d.content.kind) :
    Known count { d with content := new } := by
  refine ⟨fun hopens => h.block ?_, h.source⟩
  cases hd : d.content <;> cases new <;> rw [hd] at hkind <;>
    first | rfl | exact hopens | cases hkind

end Detail.Known

/-- That the input of a node is known outlives edits. -/
theorem Detail.lasting_known : Detail.Lasting fun count d => d.Known count where
  default _ := .default
  mono hle h := h.mono hle
  around h _ _ _ _ := h.congr rfl rfl rfl
  withContent h _ hkind := h.withContent hkind
  openBlock h := ⟨fun _ => rfl, h.source⟩
  dropSource h := h.dropSource
  renumberInput h := h.renumberInput

namespace Tree

variable {k : Packages} {t : Tree}

/-- Legible trees are those in which a lasting condition holds of every node. -/
theorem legible_iff_throughout :
    t.Legible k ↔ t.Throughout (fun count d => d.Known count) (Input.Legible k) :=
  ⟨fun h => ⟨h.detail, h.inputs⟩, fun h => ⟨h.detail, h.inputs⟩⟩

theorem legible_empty : Tree.empty.Legible k :=
  legible_iff_throughout.mpr (throughout_empty Detail.lasting_known ⟨fun _ => rfl, nofun⟩)

end Tree

/-! ### Trees to start with -/

/-- A map that was loaded is what its text says. -/
theorem PreviousMap.load_eq_ok {e : Environment} {css : String} {options : ParseOptions}
    {m : PreviousMap} (h : PreviousMap.load e css options = .ok (some m)) :
    parseMap e.packages m.text = .ok m.map := by
  rw [load] at h
  -- Of all the ways through, one alone ends with a map: a text was found, and it parsed.
  split_ifs at h
  · cases h
  · dsimp only at h
    split at h
    · cases h
    · cases h
    · rename_i text path hfind
      cases hmap : parseMap e.packages text with
      | error error => rw [hmap] at h; cases h
      | ok map => rw [hmap] at h; cases h; exact hmap

/-- Inputs are legible when they are made: their maps came out of text. -/
theorem Input.legible_of_create {w w' : Workspace} {css : String} {options : ParseOptions}
    {i : Input} (h : Input.create w css options = (.ok i, w')) : i.Legible w.packages := by
  obtain ⟨_, _, map, hload, rfl⟩ := create_eq_ok h
  intro m hm
  obtain rfl : map = some m := hm
  exact PreviousMap.load_eq_ok hload

/-- So trees that were read are legible. -/
theorem Tree.legible_of_parse {w : Workspace} {css : String} {options : ParseOptions} {t : Tree}
    (h : (parse w css options).1 = .ok t) : t.Legible w.packages := by
  rw [legible_iff_throughout]
  refine throughout_of_parse Detail.lasting_known h (fun input b hinput hb d hd => ?_)
    fun input hinput => Input.legible_of_create (Prod.ext hinput rfl)
  have hlines : input.lines = Text.LineIndex.ofText input.css.toList := by
    obtain ⟨_, _, _, -, rfl⟩ := create_eq_ok (Prod.ext hinput rfl)
    rfl
  -- Every node of the draft has a place, where it was read from the only input.
  rw [← Draft.detail_places "" false b] at hd
  obtain ⟨p, hp, hpn⟩ := List.mem_map.mp hd
  have hread := outlineText_read (Input.position_zero hlines) hb p hp
  obtain ⟨_, _, -, ⟨stop, hsource⟩, -⟩ := hread.starts
  rw [← hpn]
  refine ⟨hread.block, fun s hs => ?_⟩
  rw [hsource] at hs
  cases hs
  exact Nat.zero_lt_one

/-! ### Edits -/

namespace BagFields

/-- A node that a bag describes comes from no input. -/
theorem known_of_detail? {b : BagFields} {hasList : Bool} {d : Detail}
    (h : b.detail? hasList = .ok d) (count : Nat) : d.Known count := by
  rw [detail?] at h
  cases hc : b.content? with
  | error e => rw [hc] at h; cases h
  | ok content =>
    rw [hc] at h
    cases h
    refine ⟨fun hopens => ?_, fun _ h => by cases h⟩
    cases content <;> first | exact hopens | cases hopens

end BagFields

/-- Another tree that is inserted is legible. -/
def Material.Legible (k : Packages) : Material → Prop
  | .tree other _ => other.Legible k
  | _ => True

/-- Material that is legible meets the condition on what is put in. -/
theorem Material.Legible.meets {k : Packages} {m : Material} (h : m.Legible k) :
    m.Meets (fun count d => d.Known count) (Input.Legible k) := by
  have hbag : ∀ bag : Bag, bag.Describes fun d => ∀ count, d.Known count :=
    Bag.describes fun _ _ _ => BagFields.known_of_detail?
  cases m with
  | node id => trivial
  | nodes ids => trivial
  | bag bag => exact hbag bag
  | bags bags => exact fun bag _ => hbag bag
  -- For a text the condition is a theorem; for a tree it is the hypothesis.
  | text css =>
    intro w other hparse
    exact ⟨(Tree.legible_of_parse hparse).detail, fun _ _ => trivial⟩
  | tree other shared => exact Tree.legible_iff_throughout.mp h

namespace Edit

variable {k : Packages}

/-- Another tree that is inserted is legible. -/
def Legible (k : Packages) (e : Edit) : Prop :=
  ∀ m ∈ e.material?, m.Legible k

theorem Legible.meets {e : Edit} (h : e.Legible k) :
    e.Meets (fun count d => d.Known count) (Input.Legible k) where
  material m hm := (h m hm).meets
  raws _ _ _ _ _ hd := hd.congr rfl rfl rfl

/-- Every edit keeps a tree legible, whether it fails or not. -/
theorem legible_run {e : Edit} (he : e.Legible k) {d : Desk} (hd : d.tree.Legible k) :
    (e.run d).2.tree.Legible k :=
  Tree.legible_iff_throughout.mpr
    (throughout_run Detail.lasting_known he.meets (Tree.legible_iff_throughout.mp hd))

end Edit

end Stylesheet
