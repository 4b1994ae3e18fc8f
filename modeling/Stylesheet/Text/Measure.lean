/-!
# Measures of a text

A text has a length in bytes of its UTF-8 form, which offsets count, and a length in UTF-16 units,
which columns count. A character beyond the basic plane is two units wide.

`utf8` gives the bytes of a text as a list, and `ofUtf8?` goes back. Bytes that are not the form of
a text can still be read character by character, with gaps.
-/

namespace Stylesheet.Text

/-- Bytes in the UTF-8 form. -/
def bytes (cs : List Char) : Nat :=
  cs.foldr (fun c n => c.utf8Size + n) 0

/-- UTF-16 units of one character. -/
def charUnits (c : Char) : Nat :=
  if c.toNat < 0x10000 then 1 else 2

/-- UTF-16 units of a text. -/
def units (cs : List Char) : Nat :=
  cs.foldr (fun c n => charUnits c + n) 0

@[simp] theorem bytes_nil : bytes [] = 0 := rfl

@[simp] theorem bytes_cons (c : Char) (cs : List Char) :
    bytes (c :: cs) = c.utf8Size + bytes cs := rfl

@[simp] theorem bytes_append (as bs : List Char) : bytes (as ++ bs) = bytes as + bytes bs := by
  induction as with
  | nil => simp
  | cons a as ih => simp [ih, Nat.add_assoc]

theorem utf8ByteSize_ofList (cs : List Char) : (String.ofList cs).utf8ByteSize = bytes cs := by
  induction cs with
  | nil => rfl
  | cons c cs ih =>
    rw [← List.singleton_append, String.ofList_append, String.utf8ByteSize_append, ih]
    simp

theorem utf8ByteSize_eq_bytes (s : String) : s.utf8ByteSize = bytes s.toList := by
  rw [← utf8ByteSize_ofList, String.ofList_toList]

@[simp] theorem units_nil : units [] = 0 := rfl

@[simp] theorem units_cons (c : Char) (cs : List Char) :
    units (c :: cs) = charUnits c + units cs := rfl

@[simp] theorem units_append (as bs : List Char) : units (as ++ bs) = units as + units bs := by
  induction as with
  | nil => simp
  | cons a as ih => simp [ih, Nat.add_assoc]

theorem charUnits_pos (c : Char) : 0 < charUnits c := by
  unfold charUnits
  split <;> decide

/-! ### Bytes of a text -/

/-- The bytes of a text. -/
def utf8 (s : String) : List UInt8 :=
  s.toUTF8.data.toList

/-- The text with the given bytes, when they are the form of one. -/
def ofUtf8? (bs : List UInt8) : Option String :=
  String.fromUTF8? ⟨bs.toArray⟩

/-- The characters that bytes stand for, with a gap for every byte that belongs to none. -/
def legible (bs : List UInt8) : List (Option Char) :=
  match bs with
  | [] => []
  | b :: rest =>
    match ByteArray.utf8DecodeChar? ⟨(b :: rest.take 3).toArray⟩ 0 with
    | some c => some c :: legible (rest.drop (c.utf8Size - 1))
    | none => none :: legible rest
termination_by bs.length

end Stylesheet.Text
