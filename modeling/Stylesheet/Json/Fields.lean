import Stylesheet.Json.Basic

/-!
# Reading records from JSON

A record is written as an object with its fields by name, or as an array with its fields in order.
Fields that are not known are ignored. A reader is a function to an option; it fails on a value of
another form.
-/

namespace Stylesheet.Json

/-- Reads a text. -/
def readStr : Json → Option String :=
  str?

/-- Reads a truth value. -/
def readBool : Json → Option Bool
  | .bool b => some b
  | _ => none

/-- Reads a natural number of 64 bits. A text with a whole number past 64 bits is read as a number
with a fraction, so that there is no bound to check here. -/
def readNat64 : Json → Option Nat
  | .int n => if 0 ≤ n then some n.toNat else none
  | _ => none

/-- Reads a natural number of 32 bits. -/
def readNat32 (j : Json) : Option Nat :=
  (readNat64 j).filter (· < UInt32.size)

/-- Reads a value that may be null. -/
def readOption (read : Json → Option α) : Json → Option (Option α)
  | .null => some none
  | j => (read j).map some

/-- Reads the items of an array. -/
def readList (read : Json → Option α) : Json → Option (List α)
  | .arr items => items.mapM read
  | _ => none

/-- Pairs names with the items of an array, as far as there are items. -/
def byOrder : List String → List Json → List (String × Json)
  | name :: names, item :: items => (name, item) :: byOrder names items
  | _, _ => []

/-- The fields of a record with the given names. An array that is too long is no record. -/
def record? (names : List String) : Json → Option Json
  | .obj fields => some (.obj fields)
  | .arr items => if items.length ≤ names.length then some (.obj (byOrder names items)) else none
  | _ => none

/-- Reads a field that has to be there. -/
def need (read : Json → Option α) (name : String) (record : Json) : Option α :=
  (record.get? name).bind read

/-- Reads a field, with a value for when it is not there. -/
def withDefault (default : α) (read : Json → Option α) (name : String) (record : Json) :
    Option α :=
  match record.get? name with
  | none => some default
  | some j => read j

/-- Reads a field that may be missing or null. -/
def optional (read : Json → Option α) : String → Json → Option (Option α) :=
  withDefault none (readOption read)

theorem sizeOf_lt_of_mem_byOrder {names : List String} {items : List Json} {field : String × Json}
    (h : field ∈ byOrder names items) : sizeOf field.2 < sizeOf items := by
  induction names generalizing items with
  | nil => simp [byOrder] at h
  | cons name names ih =>
    cases items with
    | nil => simp [byOrder] at h
    | cons item items =>
      simp only [byOrder, List.mem_cons] at h
      rcases h with rfl | h
      · simp only [List.cons.sizeOf_spec]
        omega
      · have := ih h
        simp only [List.cons.sizeOf_spec]
        omega

theorem sizeOf_lt_of_get? {name : String} {j field : Json} (h : j.get? name = some field) :
    sizeOf field < sizeOf j := by
  cases j with
  | obj fields =>
    obtain ⟨pair, hfind, rfl⟩ := Option.map_eq_some_iff.1 h
    have hmem := List.sizeOf_lt_of_mem (List.mem_reverse.1 (List.mem_of_find?_eq_some hfind))
    have : sizeOf pair = 1 + sizeOf pair.1 + sizeOf pair.2 := by cases pair; rfl
    simp only [obj.sizeOf_spec]
    omega
  | _ => simp [get?] at h

/-- A field of an item of a field that is an array is smaller. -/
theorem sizeOf_lt_of_item {name inner : String} {j item field : Json} {items : List Json}
    (hj : j.get? name = some (.arr items)) (hitem : item ∈ items)
    (hfield : item.get? inner = some field) : sizeOf field < sizeOf j := by
  have h1 := sizeOf_lt_of_get? hfield
  have h2 := List.sizeOf_lt_of_mem hitem
  have h3 := sizeOf_lt_of_get? hj
  simp only [arr.sizeOf_spec] at h3
  omega

/-- A field of a record is smaller than the record, so that records can hold records. -/
theorem sizeOf_lt_of_record? {names : List String} {name : String} {j r field : Json}
    (hr : j.record? names = some r) (hf : r.get? name = some field) :
    sizeOf field < sizeOf j := by
  cases j with
  | obj fields =>
    simp only [record?, Option.some.injEq] at hr
    subst hr
    exact sizeOf_lt_of_get? hf
  | arr items =>
    simp only [record?] at hr
    split at hr
    · simp only [Option.some.injEq] at hr
      subst hr
      obtain ⟨f, hfind, rfl⟩ := Option.map_eq_some_iff.1 hf
      have := sizeOf_lt_of_mem_byOrder (List.mem_reverse.1 (List.mem_of_find?_eq_some hfind))
      simp only [arr.sizeOf_spec]
      omega
    · cases hr
  | _ => simp [record?] at hr

/-- The name of an alternative and what it holds: a text alone, or an object with one field. -/
def variant? : Json → Option (String × Json)
  | .str name => some (name, .null)
  | .obj [(name, j)] => some (name, j)
  | _ => none

end Stylesheet.Json
