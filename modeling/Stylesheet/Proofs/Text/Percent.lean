import Mathlib.Data.List.Infix
import Stylesheet.Proofs.Text.Boundary
import Stylesheet.Url

/-!
# Paths in URLs

A path written for a URL is read back as it was, and it is made of letters and digits of ASCII, `%`
and the signs that stand for themselves (`decode?_encode`): what is written for one byte is read as
that byte whatever stands behind it (`decodeBytes_encodeByte`).

What written bytes stand for is said without a reader by `Denotes`, and `plainDecode` finds it
(`denotes_iff`). The reader of URLs takes a plus sign in front of one digit for an escape as well.
So it finds what the text stands for in which all these are spelled with a zero, and what the text
itself stands for when there are none (`denotes_decodeBytes_iff`).
-/

namespace Stylesheet.Percent

open Text

/-! ### Digits -/

/-- A digit that is written has its number as its value, and it is no plus sign. -/
theorem hexDigit?_upperHex {n : UInt8} (h : n < 16) :
    hexDigit? (upperHex n) = some n ∧ upperHex n ≠ 43 ∧ isAlphanumeric (upperHex n) = true := by
  have hall : ∀ m : Fin 16, hexDigit? (upperHex (UInt8.ofNat m)) = some (UInt8.ofNat m) ∧
      upperHex (UInt8.ofNat m) ≠ 43 ∧ isAlphanumeric (upperHex (UInt8.ofNat m)) = true := by
    decide
  have hn := hall ⟨n.toNat, UInt8.lt_iff_toNat_lt.mp h⟩
  rwa [UInt8.ofNat_toNat] at hn

/-- A byte is made of its two digits. -/
theorem digits_eq (b : UInt8) : 16 * (b / 16) + b % 16 = b := by
  rw [← UInt8.toNat_inj]
  have hb := b.toNat_lt
  simp only [UInt8.toNat_add, UInt8.toNat_mul, UInt8.toNat_div, UInt8.toNat_mod, UInt8.reduceToNat]
  omega

theorem high_lt (b : UInt8) : b / 16 < 16 := by
  have hb := b.toNat_lt
  rw [UInt8.lt_iff_toNat_lt, UInt8.toNat_div]
  simp only [UInt8.reduceToNat]
  omega

theorem low_lt (b : UInt8) : b % 16 < 16 := by
  rw [UInt8.lt_iff_toNat_lt, UInt8.toNat_mod]
  exact Nat.mod_lt _ (by decide)

theorem escape?_upperHex (b : UInt8) :
    escape? (upperHex (b / 16)) (upperHex (b % 16)) = some b := by
  obtain ⟨hvalue, hplus, -⟩ := hexDigit?_upperHex (high_lt b)
  rw [escape?, if_neg hplus, hvalue, (hexDigit?_upperHex (low_lt b)).1, Option.bind_some,
    Option.map_some, digits_eq]

/-! ### Writing and reading -/

/-- A byte that begins nothing to be read is read as itself. -/
theorem decodeWith_byte {read : UInt8 → UInt8 → Option UInt8} {b : UInt8} {bs : List UInt8}
    (h : ∀ a c rest, b :: bs = 37 :: a :: c :: rest → read a c = none) :
    decodeWith read (b :: bs) = b :: decodeWith read bs := by
  rw [decodeWith.eq_def]
  split
  next heq =>
    rw [h _ _ _ heq]
    obtain ⟨rfl, rfl⟩ := List.cons.inj heq
    rfl
  next heq =>
    obtain ⟨rfl, rfl⟩ := List.cons.inj heq
    rfl
  next heq => exact absurd heq (List.cons_ne_nil b bs)

theorem isSafe_percent : isSafe 37 = false := by decide

/-- What is written for one byte is read as that byte. -/
theorem decodeBytes_encodeByte (b : UInt8) (rest : List UInt8) :
    decodeBytes (encodeByte b ++ rest) = b :: decodeBytes rest := by
  rw [encodeByte]
  split
  next hsafe =>
    refine decodeWith_byte fun _ _ _ heq => ?_
    rw [(List.cons.inj heq).1, isSafe_percent] at hsafe
    exact absurd hsafe (by decide)
  next =>
    rw [List.cons_append, List.cons_append, List.cons_append, List.nil_append, decodeBytes,
      decodeWith, escape?_upperHex]

theorem decodeBytes_encodeBytes (bs : List UInt8) : decodeBytes (encodeBytes bs) = bs := by
  induction bs with
  | nil => rfl
  | cons b bs ih =>
    rw [encodeBytes, List.flatMap_cons, decodeBytes_encodeByte]
    exact congrArg (b :: ·) ih

/-- Only `%` and bytes that stand for themselves are written. -/
theorem eq_or_isSafe_of_mem {bs : List UInt8} {x : UInt8} (h : x ∈ encodeBytes bs) :
    x = 37 ∨ isSafe x = true := by
  obtain ⟨b, -, hx⟩ := List.mem_flatMap.mp h
  have hdigit : ∀ n : UInt8, n < 16 → isSafe (upperHex n) = true := fun n hn => by
    rw [isSafe, (hexDigit?_upperHex hn).2.2, Bool.true_or]
  rw [encodeByte] at hx
  split at hx
  next hsafe =>
    rw [List.mem_singleton.mp hx]
    exact Or.inr hsafe
  next =>
    simp only [List.mem_cons, List.not_mem_nil, or_false] at hx
    rcases hx with rfl | rfl | rfl
    · exact Or.inl rfl
    · exact Or.inr (hdigit _ (high_lt b))
    · exact Or.inr (hdigit _ (low_lt b))

/-- Letters, digits, `%` and the signs that stand for themselves, as characters. -/
def IsWritten (c : Char) : Prop :=
  c.isAlphanum = true ∨ c = '%' ∨ c ∈ ";,/:@&=+$-_.!~*'()".toList

instance (c : Char) : Decidable (IsWritten c) :=
  inferInstanceAs (Decidable (_ ∨ _ ∨ _))

/-- What is written is a character of one byte. -/
theorem isWritten_ofNat {x : UInt8} (h : x = 37 ∨ isSafe x = true) :
    IsWritten (Char.ofNat x.toNat) ∧ String.utf8EncodeChar (Char.ofNat x.toNat) = [x] := by
  have hall : ∀ m : Fin 256, UInt8.ofNat m = 37 ∨ isSafe (UInt8.ofNat m) = true →
      IsWritten (Char.ofNat m) ∧ String.utf8EncodeChar (Char.ofNat m) = [UInt8.ofNat m] := by
    decide +kernel
  have hx := hall ⟨x.toNat, x.toNat_lt⟩
  rw [UInt8.ofNat_toNat] at hx
  exact hx h

theorem utf8_encode (s : String) : utf8 (encode s) = encodeBytes (utf8 s) := by
  have hmap : ∀ {bs : List UInt8}, (∀ x ∈ bs, x = 37 ∨ isSafe x = true) →
      (bs.map fun b => Char.ofNat b.toNat).flatMap String.utf8EncodeChar = bs := by
    intro bs h
    induction bs with
    | nil => rfl
    | cons x bs ih =>
      rw [List.map_cons, List.flatMap_cons, (isWritten_ofNat (h x List.mem_cons_self)).2,
        ih fun y hy => h y (List.mem_cons_of_mem x hy), List.singleton_append]
  rw [utf8_eq_flatMap, encode, String.toList_ofList]
  exact hmap fun _ => eq_or_isSafe_of_mem

/-- A path is read back from how it is written, which has only letters and digits of ASCII, `%` and
the signs that stand for themselves. No two paths are written alike. -/
theorem decode?_encode :
    (∀ s, decode? (encode s) = some s ∧ ∀ c ∈ (encode s).toList, IsWritten c) ∧
      Function.Injective encode := by
  have hread : ∀ s, decode? (encode s) = some s := fun s => by
    rw [decode?, utf8_encode, decodeBytes_encodeBytes, ofUtf8?_utf8]
  refine ⟨fun s => ⟨hread s, fun c hc => ?_⟩, fun s t h => ?_⟩
  · rw [encode, String.toList_ofList] at hc
    obtain ⟨x, hx, rfl⟩ := List.mem_map.mp hc
    exact (isWritten_ofNat (eq_or_isSafe_of_mem hx)).1
  · have hboth := hread s
    rw [h, hread t] at hboth
    exact (Option.some.inj hboth).symm

/-! ### What written bytes stand for -/

/-- The bytes begin with `%` and two hexadecimal digits. -/
def EscapeAhead (bs : List UInt8) : Prop :=
  ∃ a b rest, bs = 37 :: a :: b :: rest ∧ (hexDigit? a).isSome ∧ (hexDigit? b).isSome

/-- What written bytes stand for: `%` and two hexadecimal digits for the byte with that number, and
every other byte for itself. -/
inductive Denotes : List UInt8 → List UInt8 → Prop
  | nil : Denotes [] []
  | escape {a b high low : UInt8} {bs out : List UInt8} (ha : hexDigit? a = some high)
      (hb : hexDigit? b = some low) (rest : Denotes bs out) :
      Denotes (37 :: a :: b :: bs) ((16 * high + low) :: out)
  | byte {b : UInt8} {bs out : List UInt8} (plain : ¬EscapeAhead (b :: bs))
      (rest : Denotes bs out) : Denotes (b :: bs) (b :: out)

theorem isSome_pair {a b : UInt8} :
    (((hexDigit? a).bind fun high => (hexDigit? b).map fun low => 16 * high + low).isSome = true) ↔
      (hexDigit? a).isSome ∧ (hexDigit? b).isSome := by
  cases hexDigit? a <;> cases hexDigit? b <;> simp

/-- Bytes are read in turn: an escape and what stands behind it, or one byte and the rest. -/
theorem decodeWith_induction {motive : List UInt8 → Prop} (read : UInt8 → UInt8 → Option UInt8)
    (nil : motive [])
    (escape : ∀ {a b byte : UInt8} {bs : List UInt8}, read a b = some byte → motive bs →
      motive (37 :: a :: b :: bs))
    (byte : ∀ {b : UInt8} {bs : List UInt8},
      (∀ a c rest, b :: bs = 37 :: a :: c :: rest → read a c = none) → motive bs →
      motive (b :: bs))
    (bs : List UInt8) : motive bs := by
  induction bs using decodeWith.induct read with
  | case1 a b bs v hv ih => exact escape hv ih
  | case2 a b bs hnone ih =>
    refine byte (fun _ _ _ heq => ?_) ih
    simp only [List.cons.injEq, true_and] at heq
    obtain ⟨rfl, rfl, -⟩ := heq
    exact hnone
  | case3 b bs hplain ih =>
    refine byte (fun a c rest heq => ?_) ih
    obtain ⟨rfl, rfl⟩ := List.cons.inj heq
    exact absurd rfl (hplain a c rest rfl)
  | case4 => exact nil

theorem denotes_plainDecode (bs : List UInt8) : Denotes bs (plainDecode bs) := by
  rw [plainDecode]
  -- The induction follows the decoder: an escape takes three bytes, anything else one.
  induction bs using decodeWith_induction (fun a b =>
    (hexDigit? a).bind fun high => (hexDigit? b).map fun low => 16 * high + low) with
  | nil => exact .nil
  | escape hv ih =>
    rw [decodeWith, hv]
    obtain ⟨high, ha, hlow⟩ := Option.bind_eq_some_iff.mp hv
    obtain ⟨low, hb, rfl⟩ := Option.map_eq_some_iff.mp hlow
    exact .escape ha hb ih
  | byte hnone ih =>
    rw [decodeWith_byte hnone]
    refine .byte ?_ ih
    rintro ⟨a, c, rest, heq, hdigits⟩
    have hsome := isSome_pair.mpr hdigits
    rw [hnone a c rest heq] at hsome
    exact absurd hsome (by decide)

/-- Written bytes stand for one thing. -/
theorem Denotes.unique {bs out other : List UInt8} (h : Denotes bs out) (h' : Denotes bs other) :
    out = other := by
  induction h generalizing other with
  | nil =>
    cases h'
    rfl
  | escape ha hb _ ih =>
    cases h' with
    | escape ha' hb' rest' =>
      rw [ha] at ha'
      rw [hb] at hb'
      rw [Option.some.inj ha', Option.some.inj hb', ih rest']
    | byte plain' _ => exact absurd ⟨_, _, _, rfl, ha ▸ rfl, hb ▸ rfl⟩ plain'
  | byte plain _ ih =>
    cases h' with
    | escape ha' hb' _ => exact absurd ⟨_, _, _, rfl, ha' ▸ rfl, hb' ▸ rfl⟩ plain
    | byte _ rest' => rw [ih rest']

/-- Reading escapes of two digits finds what written bytes stand for, and nothing else. -/
theorem denotes_iff {bs out : List UInt8} : Denotes bs out ↔ out = plainDecode bs :=
  ⟨fun h => h.unique (denotes_plainDecode bs), fun h => h ▸ denotes_plainDecode bs⟩

theorem plainDecode_escape {a b high low : UInt8} (ha : hexDigit? a = some high)
    (hb : hexDigit? b = some low) (bs : List UInt8) :
    plainDecode (37 :: a :: b :: bs) = (16 * high + low) :: plainDecode bs :=
  (denotes_iff.mp (.escape ha hb (denotes_plainDecode bs))).symm

theorem plainDecode_byte {b : UInt8} {bs : List UInt8} (h : ¬EscapeAhead (b :: bs)) :
    plainDecode (b :: bs) = b :: plainDecode bs :=
  (denotes_iff.mp (.byte h (denotes_plainDecode bs))).symm

/-! ### A plus sign in an escape -/

/-- What the reader of URLs takes for an escape. -/
theorem escape?_eq_some {a b v : UInt8} (h : escape? a b = some v) :
    (a = 43 ∧ hexDigit? b = some v) ∨
      ∃ high low, hexDigit? a = some high ∧ hexDigit? b = some low ∧ 16 * high + low = v := by
  rw [escape?] at h
  split at h
  next hplus => exact Or.inl ⟨hplus, h⟩
  next =>
    obtain ⟨high, ha, hlow⟩ := Option.bind_eq_some_iff.mp h
    obtain ⟨low, hb, hv⟩ := Option.map_eq_some_iff.mp hlow
    exact Or.inr ⟨high, low, ha, hb, hv⟩

/-- Neither `%` nor a plus sign is a digit. -/
theorem ne_of_isSome {b : UInt8} (h : (hexDigit? b).isSome) : b ≠ 37 ∧ b ≠ 43 := by
  constructor <;> rintro rfl <;> exact absurd h (by decide)

theorem not_escapeAhead {bs : List UInt8}
    (h : ∀ a c rest, bs = 37 :: a :: c :: rest → escape? a c = none) : ¬EscapeAhead bs := by
  rintro ⟨a, c, rest, heq, ha, hc⟩
  have hnone := h a c rest heq
  rw [escape?, if_neg (ne_of_isSome ha).2] at hnone
  have hsome := isSome_pair.mpr ⟨ha, hc⟩
  rw [hnone] at hsome
  exact absurd hsome (by decide)

/-- The value of one digit is small. -/
theorem lt_of_hexDigit? {b v : UInt8} (h : hexDigit? b = some v) : v < 16 := by
  rw [hexDigit?] at h
  -- A digit is at most 9, and a letter at most 5 behind the one that stands for 10.
  split_ifs at h <;> obtain rfl := Option.some.inj h <;> grind

/-- The bytes with a zero for every plus sign between `%` and a hexadecimal digit. -/
def zeroed : List UInt8 → List UInt8
  | 37 :: 43 :: d :: bs =>
    if (hexDigit? d).isSome then 37 :: 48 :: d :: zeroed bs else 37 :: zeroed (43 :: d :: bs)
  | b :: bs => b :: zeroed bs
  | [] => []

/-- A byte stays that no plus sign and digit stand behind, or that is no `%`. -/
theorem zeroed_byte {b : UInt8} {bs : List UInt8}
    (h : ∀ d rest, b :: bs = 37 :: 43 :: d :: rest → hexDigit? d = none) :
    zeroed (b :: bs) = b :: zeroed bs := by
  rw [zeroed.eq_def]
  split
  next d rest heq =>
    rw [if_neg (by rw [h d rest heq]; decide)]
    obtain ⟨rfl, rfl⟩ := List.cons.inj heq
    rfl
  next heq =>
    obtain ⟨rfl, rfl⟩ := List.cons.inj heq
    rfl
  next heq => exact absurd heq (List.cons_ne_nil b bs)

theorem zeroed_cons_of_ne {b : UInt8} (h : b ≠ 37) (bs : List UInt8) :
    zeroed (b :: bs) = b :: zeroed bs :=
  zeroed_byte fun _ _ heq => absurd (List.cons.inj heq).1 h

theorem head?_zeroed (bs : List UInt8) : (zeroed bs).head? = bs.head? := by
  rw [zeroed.eq_def]
  split
  next => split <;> rfl
  next => rfl
  next => rfl

/-- A digit at the start was there before. -/
theorem eq_cons_of_zeroed {a : UInt8} {bs rest : List UInt8} (h : zeroed bs = a :: rest)
    (ha : (hexDigit? a).isSome) : ∃ more, bs = a :: more ∧ rest = zeroed more := by
  have hhead := head?_zeroed bs
  rw [h, List.head?_cons] at hhead
  obtain ⟨more, rfl⟩ := List.head?_eq_some_iff.mp hhead.symm
  rw [zeroed_cons_of_ne (ne_of_isSome ha).1] at h
  exact ⟨more, rfl, (List.cons.inj h).2.symm⟩

theorem escapeAhead_of_zeroed {b : UInt8} {bs : List UInt8} (h : EscapeAhead (b :: zeroed bs)) :
    EscapeAhead (b :: bs) := by
  obtain ⟨a, c, rest, heq, ha, hc⟩ := h
  obtain ⟨rfl, hbs⟩ := List.cons.inj heq
  obtain ⟨more, rfl, hmore⟩ := eq_cons_of_zeroed hbs ha
  obtain ⟨rest, rfl, -⟩ := eq_cons_of_zeroed hmore.symm hc
  exact ⟨a, c, rest, rfl, ha, hc⟩

/-- The reader of URLs finds what the bytes stand for with a zero for every such plus sign. -/
theorem denotes_zeroed (bs : List UInt8) : Denotes (zeroed bs) (decodeBytes bs) := by
  rw [decodeBytes]
  induction bs using decodeWith_induction escape? with
  | nil => exact .nil
  | @escape a b v bs hv ih =>
    rw [decodeWith, hv]
    -- A sign reads as the digit zero; with two digits nothing was replaced.
    rcases escape?_eq_some hv with ⟨rfl, hb⟩ | ⟨high, low, ha, hb, rfl⟩
    · have hzero : Denotes (37 :: 48 :: b :: zeroed bs) ((16 * 0 + v) :: decodeWith escape? bs) :=
        .escape (by decide) hb ih
      rw [zeroed, if_pos (hb ▸ rfl)]
      rwa [UInt8.mul_zero, UInt8.zero_add] at hzero
    · have ha' := ne_of_isSome (ha ▸ rfl : (hexDigit? a).isSome)
      have hb' := ne_of_isSome (hb ▸ rfl : (hexDigit? b).isSome)
      rw [zeroed_byte fun _ _ heq => absurd (List.cons.inj (List.cons.inj heq).2).1 ha'.2,
        zeroed_cons_of_ne ha'.1, zeroed_cons_of_ne hb'.1]
      exact .escape ha hb ih
  | byte hnone ih =>
    rw [decodeWith_byte hnone, zeroed_byte]
    · exact .byte (fun hahead => not_escapeAhead hnone (escapeAhead_of_zeroed hahead)) ih
    · intro d rest heq
      have hread := hnone 43 d rest heq
      rwa [escape?, if_pos rfl] at hread

/-- A plus sign stands between `%` and a hexadecimal digit. -/
def Signed (bs : List UInt8) : Prop :=
  ∃ d, (hexDigit? d).isSome ∧ [37, 43, d] <:+: bs

theorem signed_cons {b : UInt8} {bs : List UInt8}
    (h : ∀ d rest, b :: bs = 37 :: 43 :: d :: rest → hexDigit? d = none) :
    Signed (b :: bs) ↔ Signed bs := by
  refine ⟨fun ⟨d, hd, hinfix⟩ => ⟨d, hd, ?_⟩,
    fun ⟨d, hd, hinfix⟩ => ⟨d, hd, List.infix_cons hinfix⟩⟩
  rcases List.infix_cons_iff.mp hinfix with ⟨rest, hrest⟩ | hinfix
  · rw [h d rest hrest.symm] at hd
    exact absurd hd (by decide)
  · exact hinfix

theorem signed_cons_of_ne {b : UInt8} (h : b ≠ 37) (bs : List UInt8) :
    Signed (b :: bs) ↔ Signed bs :=
  signed_cons fun _ _ heq => absurd (List.cons.inj heq).1 h

/-- Both readers find the same if and only if no plus sign stands between `%` and a digit. -/
theorem decodeBytes_eq_iff (bs : List UInt8) : decodeBytes bs = plainDecode bs ↔ ¬Signed bs := by
  rw [decodeBytes]
  induction bs using decodeWith_induction escape? with
  | nil => exact iff_of_true rfl fun ⟨d, _, hinfix⟩ => absurd (List.infix_nil.mp hinfix) (by simp)
  | @escape a b v bs hv ih =>
    rw [decodeWith, hv]
    rcases escape?_eq_some hv with ⟨rfl, hb⟩ | ⟨high, low, ha, hb, rfl⟩
    · -- the value of one digit stands where the `%` would stay
      refine iff_of_false (fun heq => ?_) fun hnot =>
        hnot ⟨b, hb ▸ rfl, (List.prefix_append [37, 43, b] bs).isInfix⟩
      rw [plainDecode_byte] at heq
      · have hlt := lt_of_hexDigit? hb
        rw [(List.cons.inj heq).1] at hlt
        exact absurd hlt (by decide)
      · rintro ⟨a, c, rest, hcons, ha, -⟩
        rw [← (List.cons.inj (List.cons.inj hcons).2).1] at ha
        exact absurd ha (by decide)
    · have ha' := ne_of_isSome (ha ▸ rfl : (hexDigit? a).isSome)
      have hb' := ne_of_isSome (hb ▸ rfl : (hexDigit? b).isSome)
      rw [plainDecode_escape ha hb,
        signed_cons fun _ _ heq => absurd (List.cons.inj (List.cons.inj heq).2).1 ha'.2,
        signed_cons_of_ne ha'.1, signed_cons_of_ne hb'.1, List.cons.injEq, eq_self, true_and]
      exact ih
  | byte hnone ih =>
    rw [decodeWith_byte hnone, plainDecode_byte (not_escapeAhead hnone), signed_cons,
      List.cons.injEq, eq_self, true_and]
    · exact ih
    · intro d rest heq
      have hread := hnone 43 d rest heq
      rwa [escape?, if_pos rfl] at hread

/-- The reader of URLs finds what the bytes of a text stand for with a zero for every plus sign
between `%` and a digit. That is what the bytes themselves stand for if and only if there is no such
plus sign. -/
theorem denotes_decodeBytes_iff (s : String) :
    Denotes (zeroed (utf8 s)) (decodeBytes (utf8 s)) ∧
      (Denotes (utf8 s) (decodeBytes (utf8 s)) ↔
        ∀ d, (hexDigit? d).isSome → ¬[37, 43, d] <:+: utf8 s) := by
  refine ⟨denotes_zeroed (utf8 s), ?_⟩
  rw [denotes_iff, decodeBytes_eq_iff, Signed]
  simp only [not_exists, not_and]

/-- A plus sign in front of one digit is read as an escape, which it is not. -/
theorem decodeBytes_signed :
    decodeBytes (utf8 "%+5") = [5] ∧ ¬Denotes (utf8 "%+5") (decodeBytes (utf8 "%+5")) := by
  have hbytes : utf8 "%+5" = [37, 43, 53] := by decide
  rw [denotes_iff, hbytes]
  decide

end Stylesheet.Percent
