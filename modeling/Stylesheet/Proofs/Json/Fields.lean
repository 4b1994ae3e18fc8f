import Mathlib.Data.Option.Basic
import Stylesheet.Sketch

/-!
# Records that were written

An object is written as parts put together, where a part is missing when it has no value. The lemmas
here say what is read from such an object, field by field.

* `Json.get?_append`, `Json.get?_cons` and `Json.get?_fieldIfSome`: the value of a field.
* `Json.optional_of_get?`: a field that was written when it had a value is read when it
  had one.
* `Sketch.ofJson?_leaf` and `Sketch.ofJson?_nodes`: a record without records in its field `nodes`,
  and with them.
-/

namespace Stylesheet

namespace Json

variable {α β : Type} {name : String}

/-! ### Fields of an object -/

@[simp]
theorem get?_nil : (obj []).get? name = none :=
  rfl

@[simp]
theorem get?_append (as bs : List (String × Json)) :
    (obj (as ++ bs)).get? name = ((obj bs).get? name).or ((obj as).get? name) := by
  simp only [get?, List.reverse_append, List.find?_append]
  cases bs.reverse.find? (·.1 == name) <;> rfl

theorem get?_singleton (field : String) (j : Json) :
    (obj [(field, j)]).get? name = if field = name then some j else none := by
  rw [get?, List.reverse_singleton, List.find?_singleton]
  by_cases h : field = name
  · rw [if_pos (beq_iff_eq.mpr h), if_pos h]
    rfl
  · rw [if_neg (mt beq_iff_eq.mp h), if_neg h]
    rfl

@[simp]
theorem get?_cons (field : String) (j : Json) (fields : List (String × Json)) :
    (obj ((field, j) :: fields)).get? name =
      ((obj fields).get? name).or (if field = name then some j else none) := by
  rw [← List.singleton_append, get?_append, get?_singleton]

@[simp]
theorem get?_fieldIfSome (field : String) (value : Option Json) :
    (obj (fieldIfSome field value)).get? name = if field = name then value else none := by
  cases value with
  | none => exact (ite_self none).symm
  | some j => exact get?_singleton field j

@[simp]
theorem get?_ite (c : Prop) [Decidable c] (as bs : List (String × Json)) :
    (obj (if c then as else bs)).get? name =
      if c then (obj as).get? name else (obj bs).get? name :=
  apply_ite (fun fields => (obj fields).get? name) c as bs

/-! ### Reading a field -/

theorem need_of_get? {read : Json → Option α} {record j : Json} {a : α}
    (hget : record.get? name = some j) (hread : read j = some a) :
    need read name record = some a := by
  rw [need, hget]
  exact hread

/-- A field that was written when it had a value is read when it had one. -/
theorem optional_of_get? {read : Json → Option α} {write : β → Json} {f : β → α} {record : Json}
    {value : Option β} (hget : record.get? name = value.map write)
    (hnull : ∀ b, write b ≠ .null) (hread : ∀ b, read (write b) = some (f b)) :
    optional read name record = some (value.map f) := by
  rw [optional, withDefault, hget]
  cases value with
  | none => rfl
  | some b =>
    have hsome : readOption read (write b) = (read (write b)).map some := by
      rw [readOption]
      exact hnull b
    show readOption read (write b) = _
    rw [hsome, hread b]
    rfl

/-- A field that was written when it had a value is read as it was. -/
theorem optional_of_get?_same {read : Json → Option α} {write : α → Json} {record : Json}
    {value : Option α} (hget : record.get? name = value.map write)
    (hnull : ∀ a, write a ≠ .null) (hread : ∀ a, read (write a) = some a) :
    optional read name record = some value := by
  have h := optional_of_get? (f := id) hget hnull hread
  rwa [Option.map_id] at h

theorem withDefault_of_get? {read : Json → Option α} {default a : α} {record j : Json}
    (hget : record.get? name = some j) (hread : read j = some a) :
    withDefault default read name record = some a := by
  rw [withDefault, hget]
  exact hread

theorem withDefault_of_none {read : Json → Option α} {default : α} {record : Json}
    (hget : record.get? name = none) : withDefault default read name record = some default := by
  rw [withDefault, hget]

theorem readNat64_nat (n : Nat) : readNat64 (.nat n) = some n := by
  rw [nat, readNat64, if_pos (Int.natCast_nonneg n), Int.toNat_natCast]

theorem readNat32_nat {n : Nat} (h : n < UInt32.size) : readNat32 (.nat n) = some n := by
  rw [readNat32, readNat64_nat, Option.filter_some, if_pos (decide_eq_true h)]

end Json

/-! ### Records in records -/

namespace Sketch

variable {α : Type} {names : List String} {read : Json → Option α}

/-- A record without a list of children. -/
theorem ofJson?_leaf {fields : List (String × Json)} {a : α} (ha : read (.obj fields) = some a)
    (hnodes : (Json.obj fields).get? "nodes" = none) :
    ofJson? names read (.obj fields) = some (.node a none) := by
  rw [ofJson?]
  simp only [Json.record?]
  rw [ha]
  simp only [Option.bind_eq_bind, Option.bind_some]
  split
  · rfl
  · rfl
  next h =>
    rw [hnodes] at h
    cases h
  next h =>
    rw [hnodes] at h
    cases h

/-- A record with a list of children, which are records of the same form. -/
theorem ofJson?_nodes {fields : List (String × Json)} {a : α} {items : List Json}
    {children : List (Sketch α)} (ha : read (.obj fields) = some a)
    (hnodes : (Json.obj fields).get? "nodes" = some (.arr items))
    (hchildren : items.mapM (ofJson? names read) = some children) :
    ofJson? names read (.obj fields) = some (.node a (some children)) := by
  rw [ofJson?]
  simp only [Json.record?]
  rw [ha]
  simp only [Option.bind_eq_bind, Option.bind_some]
  split
  next h =>
    rw [hnodes] at h
    cases h
  next h =>
    rw [hnodes] at h
    cases h
  next items' h =>
    obtain rfl : items = items' := Json.arr.inj (Option.some.inj (hnodes.symm.trans h))
    rw [List.mapM_subtype fun _ _ => rfl, List.unattach_attach, hchildren]
    rfl
  next other _ harr h =>
    exact absurd (Option.some.inj (h.symm.trans hnodes)) (harr items)

end Sketch

end Stylesheet
