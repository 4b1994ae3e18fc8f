import Stylesheet.Json.Written

/-!
# What written JSON says

`Written.read?` turns a written value into a value. A form says which parts of it are asked for,
and parts that nobody asks for may say nothing at all, such as a number that is too large.

Arrays and objects may be nested 127 deep, not counting the parts that are left out.

* `Json.parse?` reads a text in full.
-/

namespace Stylesheet.Json

/-- Which parts of a value are asked for. -/
inductive Form
  /-- All of it. -/
  | full
  /-- An array whose items have a form. -/
  | list (item : Form)
  /-- A record: an object with the given fields, or an array of just as many items. Other fields are
  left out. -/
  | record (fields : List (String × Form))
  /-- An object with the given fields. Other fields have to say something, and are left out then. -/
  | object (fields : List (String × Form))
deriving Repr, Inhabited

namespace Form

/-- The forms of `n` items of an array, if it can have that many. -/
def items? (form : Form) (n : Nat) : Option (List Form) :=
  match form with
  | .full => some (List.replicate n .full)
  | .list item => some (List.replicate n item)
  | .record fields => if fields.length = n then some (fields.map (·.2)) else none
  | .object _ => none

/-- The form of a field of an object, if it is asked for. -/
def field? (form : Form) (name : String) : Option Form :=
  match form with
  | .full => some .full
  | .list _ => none
  | .record fields => fields.lookup name
  | .object fields => some ((fields.lookup name).getD .full)

/-- An array with the given items. That of a record is an object with its fields. -/
def ofItems (form : Form) (items : List Json) : Json :=
  match form with
  | .record fields => .obj ((fields.map (·.1)).zip items)
  | _ => .arr items

/-- An object with the given fields. No known field may be there twice. -/
def ofFields? (form : Form) (fields : List (String × Json)) : Option Json :=
  match form with
  | .full => some (.obj fields)
  | .list _ => none
  | .record known | .object known =>
    let kept := fields.filter fun field => (known.lookup field.1).isSome
    if (kept.map (·.1)).Nodup then some (.obj kept) else none

end Form

namespace Written

mutual

/-- The value that a written one says, in the parts that a form asks for. `depth` says how deep
arrays and objects may still be. -/
def read? (form : Form) (depth : Nat) : Written → Option Json
  | .null => some .null
  | .bool b => some (.bool b)
  | .number n => n.value?
  | .text ps => (Piece.text? ps).map fun cs => .str (String.ofList cs)
  | .arr items =>
    if depth ≤ 1 then none
    else
      match form.items? items.length with
      | some forms => (readItems forms (depth - 1) items).map form.ofItems
      | none => none
  | .obj fields =>
    if depth ≤ 1 then none else (readFields form (depth - 1) fields).bind form.ofFields?

/-- The values of the items of an array. -/
def readItems : List Form → Nat → List Written → Option (List Json)
  | form :: forms, depth, item :: items => do
    let value ← read? form depth item
    let values ← readItems forms depth items
    some (value :: values)
  | _, _, _ => some []

/-- The values of the fields of an object that are asked for. -/
def readFields (form : Form) (depth : Nat) :
    List (List Piece × Written) → Option (List (String × Json))
  | [] => some []
  | (key, written) :: fields => do
    let name := String.ofList (← Piece.text? key)
    let more ← readFields form depth fields
    match form.field? name with
    | none => some more
    | some part =>
      let value ← read? part depth written
      some ((name, value) :: more)

end

/-- How deep arrays and objects may be nested, and one more. -/
def depthLimit : Nat := 128

/-- The value that a written one says. -/
def value? (w : Written) : Option Json :=
  w.read? .full depthLimit

end Written

/-- The value that a whole text says, if it says one. -/
def parse? (s : String) : Option Json :=
  (Written.ofText? s).bind Written.value?

end Stylesheet.Json
