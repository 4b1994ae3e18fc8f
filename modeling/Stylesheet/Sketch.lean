import Stylesheet.Json.Fields

/-!
# Sketches

A sketch describes a node and, when it has a list of children, each of them. Unlike a branch it
tells a node without a list from one whose list is empty. Sketches are what nested JSON objects are
read into: a record in which the field `nodes` holds records of the same form.
-/

namespace Stylesheet

/-- A description of a node, with those of its children if it has a list of them. -/
inductive Sketch (α : Type)
  | node (label : α) (children : Option (List (Sketch α)))
deriving Repr, Inhabited

namespace Sketch

/-- The description of the node on top. -/
def label : Sketch α → α
  | .node a _ => a

/-- The descriptions of the children. -/
def children : Sketch α → Option (List (Sketch α))
  | .node _ cs => cs

/-- Reads a record with the given fields, and those in its field `nodes`. -/
def ofJson? (names : List String) (read : Json → Option α) (j : Json) : Option (Sketch α) :=
  match hr : j.record? names with
  | none => none
  | some r => do
    let a ← read r
    match hn : r.get? "nodes" with
    | none | some .null => some (.node a none)
    | some (.arr items) =>
      let children ← items.attach.mapM fun ⟨item, hi⟩ =>
        have : sizeOf item < sizeOf j := by
          have h1 := List.sizeOf_lt_of_mem hi
          have h2 := Json.sizeOf_lt_of_record? hr hn
          simp only [Json.arr.sizeOf_spec] at h2
          omega
        ofJson? names read item
      some (.node a (some children))
    | some _ => none
termination_by sizeOf j

end Sketch

end Stylesheet
