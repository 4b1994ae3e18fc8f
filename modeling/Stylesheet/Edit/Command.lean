import Stylesheet.Edit.Fields
import Stylesheet.Edit.Structure

/-!
# Edits as data

Every edit of a tree with its arguments, so that a sequence of edits is a list.
-/

namespace Stylesheet

/-- One edit of a tree. -/
inductive Edit
  | create (material : Material)
  | append (parent : NodeId) (material : Material)
  | prepend (parent : NodeId) (material : Material)
  | insertBefore (exist : NodeId) (material : Material)
  | insertAfter (exist : NodeId) (material : Material)
  | replaceWith (id : NodeId) (material : Material)
  | remove (id : NodeId)
  | removeChild (parent child : NodeId)
  | removeAll (parent : NodeId)
  | moveTo (id parent : NodeId)
  | moveBefore (id target : NodeId)
  | moveAfter (id target : NodeId)
  | cloneNode (id : NodeId)
  | cloneBefore (id : NodeId)
  | cloneAfter (id : NodeId)
  | setProp (id : NodeId) (new : String)
  | setValue (id : NodeId) (new : String)
  | setImportant (id : NodeId) (new : Bool)
  | setSelector (id : NodeId) (new : String)
  | setName (id : NodeId) (new : String)
  | setParams (id : NodeId) (new : String)
  | setText (id : NodeId) (new : String)
  | setSelectors (id : NodeId) (values : List String)
  | cleanRaws (id : NodeId) (keepBetween : Bool)
  | setRaws (id : NodeId) (raws : Raws)
  | dropSource (id : NodeId)
  | markDirty (id : NodeId)

namespace Edit

/-- An edit that makes and inserts nothing. -/
def silently (e : Editing Unit) : Editing (List NodeId) := do
  e
  return []

/-- An edit that makes one node. -/
def single (e : Editing NodeId) : Editing (List NodeId) :=
  return [← e]

/-- Does the edit. The result is the nodes that were made or inserted. -/
def perform : Edit → Editing (List NodeId)
  | create material => Editing.create material
  | append parent material => Editing.append parent material
  | prepend parent material => Editing.prepend parent material
  | insertBefore exist material => Editing.insertBefore exist material
  | insertAfter exist material => Editing.insertAfter exist material
  | replaceWith id material => Editing.replaceWith id material
  | remove id => silently (Editing.remove id)
  | removeChild parent child => silently (Editing.removeChild parent child)
  | removeAll parent => silently (Editing.removeAll parent)
  | moveTo id parent => silently (Editing.moveTo id parent)
  | moveBefore id target => silently (Editing.moveBefore id target)
  | moveAfter id target => silently (Editing.moveAfter id target)
  | cloneNode id => single (Editing.cloneNode id)
  | cloneBefore id => single (Editing.cloneBefore id)
  | cloneAfter id => single (Editing.cloneAfter id)
  | setProp id new => silently (Editing.setProp id new)
  | setValue id new => silently (Editing.setValue id new)
  | setImportant id new => silently (Editing.setImportant id new)
  | setSelector id new => silently (Editing.setSelector id new)
  | setName id new => silently (Editing.setName id new)
  | setParams id new => silently (Editing.setParams id new)
  | setText id new => silently (Editing.setText id new)
  | setSelectors id values => silently (Editing.setSelectors id values)
  | cleanRaws id keepBetween => silently (Editing.cleanRaws id keepBetween)
  | setRaws id raws => silently (Editing.setRaws id raws)
  | dropSource id => silently (Editing.dropSource id)
  | markDirty id => silently (Editing.markDirty id)

/-- Does the edit on a desk. -/
def run (e : Edit) (d : Desk) : Except Error (List NodeId) × Desk :=
  e.perform.runOn d

/-- Does edits one after the other, whether they fail or not. -/
def runAll (edits : List Edit) (d : Desk) : Desk :=
  edits.foldl (fun d e => (e.run d).2) d

end Edit

end Stylesheet
