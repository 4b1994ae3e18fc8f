import Stylesheet.Edit.Material

/-!
# Edits of lists

Inserting, removing, moving and copying nodes.
-/

namespace Stylesheet

namespace Editing

/-! ### Insertion -/

/-- Makes detached nodes without inserting them. -/
def create (material : Material) : Editing (List NodeId) :=
  materialize none material

/-- Makes sure that a node has a block. An at-rule gets one. -/
def openBlock (parent : NodeId) : Editing Unit := do
  let n ← node parent
  match n.kind with
  | .declaration => throw (.notAContainer .declaration)
  | .comment => throw (.notAContainer .comment)
  | _ => change (·.modify parent (·.withDetail fun d => { d with block := true }))

/-- Inserts at the end of a container. -/
def append (parent : NodeId) (material : Material) : Editing (List NodeId) := do
  openBlock parent
  let ids ← materialize (some parent) material
  change (·.insertLast parent ids)
  return ids

/-- Inserts at the beginning of a container. -/
def prepend (parent : NodeId) (material : Material) : Editing (List NodeId) := do
  openBlock parent
  let ids ← materialize (some parent) material
  change (·.insertFirst parent ids)
  return ids

/-- The container of a node and the place of the node in its list. -/
def placeOf (id : NodeId) : Editing (NodeId × Nat) := do
  let t ← tree
  match t.parent? id with
  | none => throw .notAChild
  | some parent =>
    match t.indexIn? parent id with
    | none => throw .notAChild
    | some i => return (parent, i)

/-- Inserts in front of a node. -/
def insertBefore (exist : NodeId) (material : Material) : Editing (List NodeId) := do
  let (parent, i) ← placeOf exist
  let ids ← materialize (some parent) material
  change (·.insertInFront parent exist i ids)
  return ids

/-- Inserts behind a node. -/
def insertAfter (exist : NodeId) (material : Material) : Editing (List NodeId) := do
  let (parent, i) ← placeOf exist
  let ids ← materialize (some parent) material
  change (·.insertBehind parent exist i ids)
  return ids

/-! ### Removal -/

/-- Takes a child out of the list of a container. It stays in the store. -/
def removeChild (parent child : NodeId) : Editing Unit := do
  match (← tree).indexIn? parent child with
  | none => throw .notAChild
  | some i => change (·.removeAt parent child i)

/-- Detaches a node. A node that is detached stays so. -/
def remove (id : NodeId) : Editing Unit := do
  match (← node id).parent with
  | some parent => removeChild parent id
  | none => return

/-- Takes all children out of the list of a container. -/
def removeAll (parent : NodeId) : Editing Unit := do
  let _ ← node parent
  change (·.removeChildren parent)

/-! ### Replacement, moves and copies -/

/-- Puts something in the place of a node. A detached node has no place. -/
def replaceWith (id : NodeId) (material : Material) : Editing (List NodeId) := do
  if (← node id).parent.isNone then return []
  let ids ← insertBefore id material
  remove id
  return ids

/-- Moves a node to the end of a container. -/
def moveTo (id parent : NodeId) : Editing Unit := do
  remove id
  let _ ← append parent (.node id)

/-- Moves a node in front of another one. -/
def moveBefore (id target : NodeId) : Editing Unit := do
  remove id
  let _ ← insertBefore target (.node id)

/-- Moves a node behind another one. -/
def moveAfter (id target : NodeId) : Editing Unit := do
  remove id
  let _ ← insertAfter target (.node id)

/-- A detached deep copy. What stood in front of the node and between its parts is left out, so
that the copy fits where it is put. -/
def cloneNode (id : NodeId) : Editing NodeId := do
  let _ ← node id
  let copy ← changeGet (·.copy id)
  change (·.modify copy (·.withRaws fun r => { r with before := none, between := none }))
  return copy

/-- Puts a copy of a node in front of it. -/
def cloneBefore (id : NodeId) : Editing NodeId := do
  let copy ← cloneNode id
  let _ ← insertBefore id (.node copy)
  return copy

/-- Puts a copy of a node behind it. -/
def cloneAfter (id : NodeId) : Editing NodeId := do
  let copy ← cloneNode id
  let _ ← insertAfter id (.node copy)
  return copy

end Editing

end Stylesheet
