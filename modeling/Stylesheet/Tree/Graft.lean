import Stylesheet.Tree.Basic

/-!
# Branches in and out of a tree

A branch of details is put into the store of a tree as new nodes, and a node of a tree with all that
is below it is taken out as such a branch. Copying a node is both.
-/

namespace Stylesheet

/-- A node that is not in a tree yet. -/
abbrev Draft := Branch Detail

namespace Tree

mutual

/-- The nodes of a branch whose top node gets the number `base`, in the order of their numbers. -/
def layout (base : Nat) (parent : Option NodeId) : Draft → List Node
  | .node detail kids =>
    { detail, parent, children := numbers (base + 1) kids } ::
      layoutAll (base + 1) (some ⟨base⟩) kids

/-- The nodes of several branches, the first of which gets the number `base`. -/
def layoutAll (base : Nat) (parent : Option NodeId) : List Draft → List Node
  | [] => []
  | b :: bs => layout base parent b ++ layoutAll (base + b.size) parent bs

/-- The numbers of the top nodes of several branches, the first of which gets the number `base`. -/
def numbers (base : Nat) : List Draft → List NodeId
  | [] => []
  | b :: bs => ⟨base⟩ :: numbers (base + b.size) bs

end

/-- The tree with a branch put into its store, detached, and the number of its top node. -/
def graft (t : Tree) (b : Draft) : NodeId × Tree :=
  (⟨t.nodes.size⟩, { t with nodes := t.nodes ++ (layout t.nodes.size none b).toArray })

/-- The tree with several branches put into its store, and the numbers of their top nodes. -/
def graftAll (t : Tree) : List Draft → List NodeId × Tree
  | [] => ([], t)
  | b :: bs =>
    let (id, t) := t.graft b
    let (ids, t) := t.graftAll bs
    (id :: ids, t)

/-- The tree of a branch that was read from one input. -/
def ofDraft (input : Input) (b : Draft) : Tree where
  nodes := (layout 0 none b).toArray
  inputs := #[input]

/-- The details of a node. -/
def detail (t : Tree) (id : NodeId) : Detail :=
  ((t.get? id).map Node.detail).getD default

/-- A node with all that is below it, as a branch of details. -/
def draft (t : Tree) (id : NodeId) : Draft :=
  (t.shape id).map t.detail

/-- A deep copy of a node, detached, and its number. -/
def copy (t : Tree) (id : NodeId) : NodeId × Tree :=
  t.graft (t.draft id)

/-- The details without the place where the node was read. -/
def dropSource (d : Detail) : Detail :=
  { d with source := none }

/-- The details with another number for the input. -/
def renumberInput (f : Nat → Nat) (d : Detail) : Detail :=
  { d with source := d.source.map fun s => { s with input := f s.input } }

/-- The children of the root of another tree as branches, without where they were read. -/
def textDrafts (other : Tree) : List Draft :=
  (other.children rootId).map fun id => (other.draft id).map dropSource

/-- Puts the children of the root of another tree into the store, without where they were read. -/
def importText (t other : Tree) : List NodeId × Tree :=
  t.graftAll other.textDrafts

/-- The number that an input of another tree gets in a tree. `shared` says which inputs both trees
have in common, by their numbers in the other tree and in this one; all others get numbers behind
those of this one. -/
def inputNumber (t other : Tree) (shared : List (Nat × Nat)) (i : Nat) : Nat :=
  match shared.lookup i with
  | some j => if j < t.inputs.size ∧ t.inputs[j]? = other.inputs[i]? then j else i + t.inputs.size
  | none => i + t.inputs.size

/-- Puts the children of the root of another tree into the store, with where they were read. -/
def importTree (t other : Tree) (shared : List (Nat × Nat)) : List NodeId × Tree :=
  let drafts := (other.children rootId).map fun id =>
    (other.draft id).map (renumberInput (t.inputNumber other shared))
  ({ t with inputs := t.inputs ++ other.inputs }).graftAll drafts

theorem inputNumber_lt (t other : Tree) (shared : List (Nat × Nat)) {i : Nat}
    (h : i < other.inputs.size) :
    t.inputNumber other shared i < t.inputs.size + other.inputs.size := by
  unfold inputNumber
  split
  · split <;> omega
  · omega

end Tree

end Stylesheet
