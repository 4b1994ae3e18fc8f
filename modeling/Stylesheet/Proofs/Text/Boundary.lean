import Mathlib.Data.List.Basic
import Mathlib.Order.Bounds.Basic
import Stylesheet.Text.Measure

/-!
# Bytes and characters

An offset into a text is a `Boundary` when a character starts there or the text ends there, which
is when it is the size of a front part (`boundary_iff`); none is inside of a character
(`Boundary.le_or_le`). The bytes of a text are those of its parts, one behind the other
(`utf8_append`), so a part is what stands between its two boundaries (`slice?_part`). A byte of
ASCII is the character with its number, because all bytes of other characters are beyond ASCII
(`ascii_or_of_mem_utf8EncodeChar`); so a byte of a line feed is a line feed (`newline_mem_utf8`).
-/

namespace Stylesheet.Text

theorem eq_nil_of_bytes_eq_zero {cs : List Char} (h : bytes cs = 0) : cs = [] := by
  cases cs with
  | nil => rfl
  | cons c cs =>
    have hpos := c.utf8Size_pos
    rw [bytes_cons] at h
    omega

/-- A character of the text starts at byte `k`, or the text ends there. -/
def Boundary (s : String) (k : Nat) : Prop :=
  (String.Pos.Raw.mk k).IsValid s

instance (s : String) (k : Nat) : Decidable (Boundary s k) :=
  inferInstanceAs (Decidable ((String.Pos.Raw.mk k).IsValid s))

theorem boundary_iff {s : String} {k : Nat} :
    Boundary s k ↔ ∃ front rest : String, s = front ++ rest ∧ k = front.utf8ByteSize := by
  rw [Boundary, String.Pos.Raw.isValid_iff_exists_append]
  simp only [String.Pos.Raw.ext_iff, String.byteIdx_rawEndPos]

theorem boundary_append (front rest : String) : Boundary (front ++ rest) front.utf8ByteSize :=
  boundary_iff.mpr ⟨front, rest, rfl, rfl⟩

/-- No boundary is inside of a character. -/
theorem Boundary.le_or_le {front rest : List Char} {c : Char} {b : Nat}
    (h : Boundary (String.ofList (front ++ c :: rest)) b) :
    b ≤ bytes front ∨ bytes front + c.utf8Size ≤ b := by
  obtain ⟨as, bs, hs, rfl⟩ := boundary_iff.mp h
  have hlist : front ++ c :: rest = as.toList ++ bs.toList := by
    rw [← String.toList_append, ← hs, String.toList_ofList]
  rw [utf8ByteSize_eq_bytes]
  rcases List.append_eq_append_iff.mp hlist with ⟨mid, has, hrest⟩ | ⟨mid, hfront, -⟩
  · rw [has, bytes_append]
    cases mid with
    | nil => exact Or.inl (Nat.le_refl _)
    | cons d mid =>
      obtain ⟨rfl, -⟩ := List.cons.inj hrest
      refine Or.inr ?_
      rw [bytes_cons]
      omega
  · rw [hfront, bytes_append]
    exact Or.inl (Nat.le_add_right _ _)

/-- The last boundary in front of the end of a character is its start. -/
theorem isGreatest_boundary (front rest : List Char) (c : Char) :
    IsGreatest {b | b < bytes front + c.utf8Size ∧
      Boundary (String.ofList (front ++ c :: rest)) b} (bytes front) := by
  refine ⟨⟨Nat.lt_add_of_pos_right c.utf8Size_pos, ?_⟩, fun b ⟨hlt, hb⟩ => ?_⟩
  · rw [String.ofList_append, ← utf8ByteSize_ofList]
    exact boundary_append _ _
  · exact hb.le_or_le.resolve_right (Nat.not_le.mpr hlt)

/-! ### Bytes of parts -/

theorem utf8_eq_flatMap (s : String) : utf8 s = s.toList.flatMap String.utf8EncodeChar := by
  rw [utf8, String.toUTF8_eq_toByteArray, ← String.utf8Encode_toList, List.utf8Encode,
    List.data_toByteArray, List.toList_toArray]

theorem utf8_append (s t : String) : utf8 (s ++ t) = utf8 s ++ utf8 t := by
  rw [utf8_eq_flatMap, utf8_eq_flatMap, utf8_eq_flatMap, String.toList_append, List.flatMap_append]

@[simp] theorem length_utf8 (s : String) : (utf8 s).length = s.utf8ByteSize := by
  rw [utf8, Array.length_toList]
  rfl

/-- Between its two boundaries a part of a text has its own bytes. -/
theorem extract_utf8 (front part rest : String) :
    (utf8 (front ++ part ++ rest)).extract front.utf8ByteSize (front ++ part).utf8ByteSize =
      utf8 part := by
  rw [List.extract_eq_take_drop, utf8_append, utf8_append, List.append_assoc, ← length_utf8 front,
    List.drop_left, ← length_utf8, utf8_append, List.length_append, Nat.add_sub_cancel_left,
    List.take_left]

/-- The bytes of a text are the form of it. -/
theorem ofUtf8?_utf8 (s : String) : ofUtf8? (utf8 s) = some s := by
  have hbytes : (⟨(utf8 s).toArray⟩ : ByteArray) = s.toByteArray := rfl
  rw [ofUtf8?, hbytes, String.fromUTF8?, dif_pos s.isValidUTF8]
  rfl

/-- The text between two byte offsets, when both are boundaries. -/
def slice? (s : String) (start stop : Nat) : Option String :=
  if start ≤ stop ∧ Boundary s start ∧ Boundary s stop then ofUtf8? ((utf8 s).extract start stop)
  else none

theorem slice?_part (front part rest : String) :
    slice? (front ++ part ++ rest) front.utf8ByteSize (front ++ part).utf8ByteSize =
      some part := by
  have hfront : Boundary (front ++ part ++ rest) front.utf8ByteSize := by
    rw [String.append_assoc]
    exact boundary_append _ _
  have hle : front.utf8ByteSize ≤ (front ++ part).utf8ByteSize := by
    rw [String.utf8ByteSize_append]
    exact Nat.le_add_right _ _
  rw [slice?, if_pos ⟨hle, hfront, boundary_append _ _⟩, extract_utf8, ofUtf8?_utf8]

/-! ### Bytes of one character -/

/-- A byte with its highest bit set is beyond ASCII. -/
theorem le_toNat_or {b mark : UInt8} (hmark : mark.toNat.testBit 7 = true) :
    0x80 ≤ (b ||| mark).toNat := by
  refine Nat.ge_two_pow_of_testBit (i := 7) ?_
  rw [UInt8.toNat_or, Nat.testBit_or, hmark, Bool.or_true]

/-- A character of ASCII has one byte, which is its number. All bytes of other characters are beyond
ASCII. -/
theorem ascii_or_of_mem_utf8EncodeChar {c : Char} {b : UInt8}
    (h : b ∈ String.utf8EncodeChar c) :
    (c.toNat < 0x80 ∧ b.toNat = c.toNat) ∨ (0x80 ≤ c.toNat ∧ 0x80 ≤ b.toNat) := by
  by_cases hsize : c.utf8Size = 1
  · left
    rw [String.utf8EncodeChar_eq_singleton hsize, List.mem_singleton] at h
    rw [Char.utf8Size_eq_one_iff, UInt32.le_iff_toNat_le] at hsize
    change c.toNat ≤ 127 at hsize
    refine ⟨Nat.lt_succ_of_le hsize, ?_⟩
    rw [h, UInt32.toNat_toUInt8]
    exact Nat.mod_eq_of_lt (Nat.lt_of_le_of_lt hsize (by decide))
  · refine Or.inr ⟨?_, ?_⟩
    · rw [Char.utf8Size_eq_one_iff, UInt32.le_iff_toNat_le] at hsize
      exact Nat.lt_of_not_le hsize
    -- Every byte of a longer character has its high bit set.
    · rcases c.utf8Size_eq with hone | htwo | hthree | hfour
      · exact absurd hone hsize
      · rw [String.utf8EncodeChar_eq_cons_cons htwo] at h
        simp only [List.mem_cons, List.not_mem_nil, or_false] at h
        rcases h with rfl | rfl <;> exact le_toNat_or (by decide)
      · rw [String.utf8EncodeChar_eq_cons_cons_cons hthree] at h
        simp only [List.mem_cons, List.not_mem_nil, or_false] at h
        rcases h with rfl | rfl | rfl <;> exact le_toNat_or (by decide)
      · rw [String.utf8EncodeChar_eq_cons_cons_cons_cons hfour] at h
        simp only [List.mem_cons, List.not_mem_nil, or_false] at h
        rcases h with rfl | rfl | rfl | rfl <;> exact le_toNat_or (by decide)

section Places

variable {css : String} {front cs : List Char} {c d : Char} {α : Type}

theorem length_flatMap_utf8EncodeChar (cs : List Char) :
    (cs.flatMap String.utf8EncodeChar).length = bytes cs := by
  rw [← utf8ByteSize_ofList, ← length_utf8, utf8_eq_flatMap, String.toList_ofList]

theorem utf8ByteSize_eq (h : css.toList = front ++ cs) :
    css.utf8ByteSize = bytes front + bytes cs := by
  rw [utf8ByteSize_eq_bytes, h, bytes_append]

theorem drop_utf8 (h : css.toList = front ++ cs) :
    (utf8 css).drop (bytes front) = cs.flatMap String.utf8EncodeChar := by
  rw [utf8_eq_flatMap, h, List.flatMap_append, ← length_flatMap_utf8EncodeChar, List.drop_left]

theorem utf8Size_of_ascii (hc : c.toNat < 0x80) : c.utf8Size = 1 := by
  rw [Char.utf8Size_eq_one_iff, UInt32.le_iff_toNat_le]
  exact Nat.le_of_lt_succ hc

/-- The function tells no characters beyond ASCII apart. -/
def AsciiOnly (f : Char → α) : Prop :=
  ∀ c d, 0x80 ≤ c.toNat → 0x80 ≤ d.toNat → f c = f d

/-- Such a function says of each byte of a character what it says of the character. -/
theorem AsciiOnly.of_mem {f : Char → α} (hf : AsciiOnly f) {b : UInt8}
    (h : b ∈ String.utf8EncodeChar c) : f (.ofUInt8 b) = f c := by
  have hbyte : (Char.ofUInt8 b).toNat = b.toNat := UInt8.toNat_toUInt32 b
  rcases ascii_or_of_mem_utf8EncodeChar h with ⟨-, heq⟩ | ⟨hc, hb⟩
  · rw [Char.toNat_inj.mp (hbyte.trans heq)]
  · exact hf _ _ (hbyte.symm ▸ hb) hc

theorem asciiOnly_of_false {q : Char → Bool} (hq : ∀ c, 0x80 ≤ c.toNat → q c = false) :
    AsciiOnly q :=
  fun c d hc hd => (hq c hc).trans (hq d hd).symm

theorem AsciiOnly.not {q : Char → Bool} (hq : AsciiOnly q) : AsciiOnly fun c => !q c :=
  fun c d hc hd => congrArg (!·) (hq c d hc hd)

/-- No character beyond ASCII is a given one of ASCII. -/
theorem beq_of_beyond (hc : 0x80 ≤ c.toNat) (hd : d.toNat < 0x80) : (c == d) = false := by
  rw [beq_eq_false_iff_ne]
  rintro rfl
  omega

theorem asciiOnly_beq (hd : d.toNat < 0x80) : AsciiOnly (· == d) :=
  asciiOnly_of_false fun _ hc => beq_of_beyond hc hd

theorem exists_utf8EncodeChar (c : Char) : ∃ b bs, String.utf8EncodeChar c = b :: bs :=
  List.exists_cons_of_length_pos (by
    rw [String.length_utf8EncodeChar]
    exact c.utf8Size_pos)

/-- The byte at an index inside of a character is one of the character. -/
theorem exists_getElem?_utf8 (h : css.toList = front ++ c :: cs) {k : Nat} (hk : k < c.utf8Size) :
    ∃ b ∈ String.utf8EncodeChar c, (utf8 css)[bytes front + k]? = some b := by
  have hlt : k < (String.utf8EncodeChar c).length := by rwa [String.length_utf8EncodeChar]
  refine ⟨_, List.getElem_mem hlt, ?_⟩
  rw [← List.getElem?_drop, drop_utf8 h, List.flatMap_cons, List.getElem?_append_left hlt,
    List.getElem?_eq_getElem hlt]

/-- The bytes of characters, each as the character with its number. -/
def byteChars (cs : List Char) : List Char :=
  (cs.flatMap String.utf8EncodeChar).map .ofUInt8

theorem any_byteChars {q : Char → Bool} (hq : AsciiOnly q) (cs : List Char) :
    (byteChars cs).any q = cs.any q := by
  rw [byteChars, List.any_map, List.any_flatMap]
  refine List.any_congr rfl fun c => ?_
  obtain ⟨b, bs, hbs⟩ := exists_utf8EncodeChar c
  rw [hbs, Bool.eq_iff_iff, List.any_eq_true]
  constructor
  · rintro ⟨x, hx, hqx⟩
    rwa [← hq.of_mem (hbs ▸ hx)]
  · exact fun hqc => ⟨b, List.mem_cons_self, (hq.of_mem (hbs ▸ List.mem_cons_self)).trans hqc⟩

theorem bytes_concat (front : List Char) (c : Char) :
    bytes (front ++ [c]) = bytes front + c.utf8Size := by
  rw [bytes_append, bytes_cons, bytes_nil, Nat.add_zero]

theorem eq_concat_append (h : css.toList = front ++ c :: cs) :
    css.toList = (front ++ [c]) ++ cs := by
  rw [h, List.append_assoc]
  rfl

end Places

/-! ### Line feeds -/

/-- No other character has the byte of a line feed in its form. -/
theorem newline_mem_utf8EncodeChar {c : Char} : 0x0A ∈ String.utf8EncodeChar c ↔ c = '\n' := by
  constructor
  · intro h
    rcases ascii_or_of_mem_utf8EncodeChar h with ⟨-, hbyte⟩ | ⟨-, hbyte⟩
    · exact Char.toNat_inj.mp hbyte.symm
    · exact absurd hbyte (by decide)
  · rintro rfl
    decide

theorem newline_mem_utf8 {s : String} : 0x0A ∈ utf8 s ↔ '\n' ∈ s.toList := by
  simp [utf8_eq_flatMap, newline_mem_utf8EncodeChar]

/-- A text has as many bytes of line feeds as line feeds. -/
theorem count_newline_utf8 (s : String) : (utf8 s).count 0x0A = s.toList.count '\n' := by
  rw [utf8_eq_flatMap]
  induction s.toList with
  | nil => rfl
  | cons c cs ih =>
    rw [List.flatMap_cons, List.count_append, ih, List.count_cons, Nat.add_comm]
    congr 1
    by_cases hc : c = '\n'
    · rw [hc]
      rfl
    · rw [List.count_eq_zero.mpr (mt newline_mem_utf8EncodeChar.mp hc),
        if_neg (mt beq_iff_eq.mp hc)]

end Stylesheet.Text
