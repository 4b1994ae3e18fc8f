import Mathlib.Data.List.Induction
import Stylesheet.Proofs.Token.Bytewise
import Stylesheet.Proofs.Token.Parens

/-!
# Places found byte by byte

At a boundary each search on bytes finds the end of the token that is cut off the characters from
there on, and asks for no place outside of the text or inside of a character (`Bytewise.token_eq`).

The bytes of a character beyond ASCII are all beyond ASCII, so a test that tells no such characters
apart says of each byte of a character what it says of the character (`AsciiOnly.of_mem`). So a
search that goes from byte to byte stops at a boundary (`Bytewise.firstFrom_eq`,
`Bytewise.findByte_cons`), and backslashes can be counted backwards on bytes
(`Bytewise.isEscaped_byteChars`).
-/

namespace Stylesheet

open Text

namespace Bytewise

theorem ok_bind {α β : Type} (a : α) (f : α → Bytewise β) : (Except.ok a >>= f) = f a := rfl

/-! ### Characters and their bytes -/

variable {css : String} {front cs part : List Char} {c d : Char}

/-- No character beyond ASCII is white space here, or means anything else to the scan. -/
theorem isSpace_of_beyond (hc : 0x80 ≤ c.toNat) : isSpace c = false := by
  simp (disch := decide) only [isSpace, beq_of_beyond hc, Bool.or_self]

theorem endsAtWord_of_beyond (hc : 0x80 ≤ c.toNat) : endsAtWord c = false := by
  simp (disch := decide) only [endsAtWord, isSpace_of_beyond hc, beq_of_beyond hc, Bool.or_self]

theorem endsWord_of_beyond (hc : 0x80 ≤ c.toNat) : endsWord c = false := by
  simp (disch := decide) only [endsWord, isSpace_of_beyond hc, beq_of_beyond hc, Bool.or_self]

theorem breaksGroup_of_beyond (hc : 0x80 ≤ c.toNat) : breaksGroup c = false := by
  simp (disch := decide) only [breaksGroup, beq_of_beyond hc, Bool.or_self]

theorem isHex_of_beyond (hc : 0x80 ≤ c.toNat) : isHex c = false := by
  have hle : ∀ d : Char, d.toNat < 0x80 → ¬ c ≤ d := fun d hd hcd =>
    absurd (UInt32.le_iff_toNat_le.mp hcd) (Nat.not_le.mpr (Nat.lt_of_lt_of_le hd hc))
  rw [isHex, hexDigit?, if_neg fun h => hle _ (by decide) h.2,
    if_neg fun h => hle _ (by decide) h.2, if_neg fun h => hle _ (by decide) h.2]
  rfl

theorem punctuation?_of_beyond (hc : 0x80 ≤ c.toNat) : punctuation? c = none := by
  unfold punctuation?
  split <;> first | rfl | exact absurd hc (by decide)

/-- Each byte of a character is tested as the character is. -/
theorem passes_eq {q : Char → Bool} (hq : AsciiOnly q) (h : css.toList = front ++ c :: cs)
    {k : Nat} (hk : k < c.utf8Size) : passes css q (bytes front + k) = .ok (q c) := by
  obtain ⟨b, hb, hget⟩ := exists_getElem?_utf8 h hk
  rw [passes, byteAt, hget, ← hq.of_mem hb]
  rfl

/-- What is read at a boundary is taken for the character there. -/
theorem exists_byteAt (h : css.toList = front ++ c :: cs) :
    ∃ e, byteAt css (bytes front) = .ok e ∧
      ∀ {α : Type} {f : Char → α}, AsciiOnly f → f e = f c := by
  obtain ⟨b, hb, hget⟩ := exists_getElem?_utf8 h c.utf8Size_pos
  rw [Nat.add_zero] at hget
  exact ⟨.ofUInt8 b, by rw [byteAt, hget], fun hf => hf.of_mem hb⟩

/-- What an optional test says of the byte at a boundary, it says of the character there. -/
theorem any_byteAt? {q : Char → Bool} (hq : AsciiOnly q) (h : css.toList = front ++ cs) :
    (byteAt? css (bytes front)).any q = cs.head?.any q := by
  cases cs with
  | nil =>
    rw [byteAt?, List.getElem?_eq_none]
    · rfl
    · rw [length_utf8, utf8ByteSize_eq h]
      exact Nat.le_refl _
  | cons c cs =>
    obtain ⟨b, hb, hget⟩ := exists_getElem?_utf8 h c.utf8Size_pos
    rw [Nat.add_zero] at hget
    rw [byteAt?, hget, List.head?_cons]
    exact hq.of_mem hb

/-- A byte of ASCII stands where its character does. -/
theorem byteAt?_beq (hd : d.toNat < 0x80) (h : css.toList = front ++ cs) :
    (byteAt? css (bytes front) == some d) = (cs.head? == some d) := by
  have hbeq : ∀ o : Option Char, (o == some d) = o.any (· == d) := by rintro (_ | _) <;> rfl
  rw [hbeq, hbeq, any_byteAt? (asciiOnly_beq hd) h]

/-! ### Searches and readings -/

/-- The characters in front of the first one that is stopped at, with what stands behind it. -/
def upTo (stops : Char → List Char → Bool) : List Char → List Char
  | [] => []
  | c :: cs => if stops c cs then [] else c :: upTo stops cs

/-- A test of indices says of each byte of a character what is said of the character and what stands
behind it. -/
def Tests (css : String) (p : Nat → Bytewise Bool) (stops : Char → List Char → Bool) : Prop :=
  ∀ front c cs, css.toList = front ++ c :: cs → ∀ k < c.utf8Size,
    p (bytes front + k) = .ok (stops c cs)

/-- A test on bytes is one on characters. -/
theorem tests_passes {q : Char → Bool} (hq : AsciiOnly q) :
    Tests css (passes css q) fun c _ => q c :=
  fun _ _ _ h _ hk => passes_eq hq h hk

/-- The end of a word may need the byte behind it as well. -/
theorem tests_endsWordAt :
    Tests css (endsWordAt css) fun c cs => endsWord c || (c == '/' && cs.head? == some '*') := by
  intro front c cs h k hk
  obtain ⟨b, hb, hget⟩ := exists_getElem?_utf8 h hk
  have hends : endsWord (.ofUInt8 b) = endsWord c :=
    (asciiOnly_of_false fun _ => endsWord_of_beyond).of_mem hb
  have hslash : (Char.ofUInt8 b == '/') = (c == '/') := (asciiOnly_beq (by decide)).of_mem hb
  rw [endsWordAt, byteAt, hget]
  show Except.ok (endsWord (.ofUInt8 b) || (Char.ofUInt8 b == '/' && _)) =
    Except.ok (endsWord c || (c == '/' && _))
  rw [hends, hslash]
  -- Only a slash looks ahead, and that is one byte.
  cases hc : c == '/' with
  | false => rfl
  | true =>
    obtain rfl := beq_iff_eq.mp hc
    obtain rfl : k = 0 := Nat.lt_one_iff.mp hk
    have hnext := byteAt?_beq (d := '*') (by decide)
      (show css.toList = (front ++ ['/']) ++ cs by rw [h, List.append_assoc]; rfl)
    rw [bytes_append] at hnext
    rw [← hnext]
    rfl

/-- A search ends where the test does not fail, -/
theorem firstFrom_of_passes {p : Nat → Bytewise Bool} {i : Nat} (hi : i < css.utf8ByteSize)
    (h : p i = .ok true) : firstFrom css p i = .ok i := by
  rw [firstFrom, if_pos hi, h]
  rfl

/-- and goes on where it fails. -/
theorem firstFrom_skip {p : Nat → Bytewise Bool} {i n : Nat} (hn : i + n ≤ css.utf8ByteSize)
    (h : ∀ k < n, p (i + k) = .ok false) : firstFrom css p i = firstFrom css p (i + n) := by
  induction n generalizing i with
  | zero => rfl
  | succ n ih =>
    have hnext : firstFrom css p i = firstFrom css p (i + 1) := by
      have hfirst : p i = .ok false := h 0 (Nat.succ_pos n)
      rw [firstFrom, if_pos (by omega), hfirst]
      rfl
    rw [hnext, ih (by omega) fun k hk => ?_]
    · congr 1
      omega
    · rw [Nat.add_right_comm]
      exact h (k + 1) (Nat.succ_lt_succ hk)

variable {p : Nat → Bytewise Bool} {stops : Char → List Char → Bool}

/-- From a boundary on, a search stops where the reading of characters does. -/
theorem firstFrom_eq (hp : Tests css p stops) (h : css.toList = front ++ cs) :
    firstFrom css p (bytes front) = .ok (bytes front + bytes (upTo stops cs)) := by
  -- By induction on the characters, though the loop goes by bytes: those in the middle of a
  -- character are passed together with its first.
  induction cs generalizing front with
  | nil =>
    have hsize := utf8ByteSize_eq h
    rw [firstFrom, if_neg (by rw [hsize]; exact Nat.lt_irrefl _), hsize]
    rfl
  | cons c cs ih =>
    have hsize := utf8ByteSize_eq h
    have hpos := c.utf8Size_pos
    rw [bytes_cons] at hsize
    rw [upTo]
    cases hstop : stops c cs with
    | true =>
      have hfirst : p (bytes front) = .ok (stops c cs) := hp front c cs h 0 hpos
      rw [hstop] at hfirst
      rw [firstFrom_of_passes (by omega) hfirst]
      rfl
    | false =>
      have hih := ih (eq_concat_append h)
      rw [bytes_append, bytes_cons, bytes_nil, Nat.add_zero] at hih
      have hpassed : ∀ k < c.utf8Size, p (bytes front + k) = .ok false :=
        fun k hk => by rw [hp front c cs h k hk, hstop]
      rw [firstFrom_skip (by omega) hpassed, hih, Nat.add_assoc]
      rfl

/-- From behind the first byte of a character on, a search passes over the others. -/
theorem firstFrom_behind (hp : Tests css p stops) (h : css.toList = front ++ c :: cs)
    (hc : 0x80 ≤ c.toNat → stops c cs = false) :
    firstFrom css p (bytes front + 1) =
      .ok (bytes front + bytes (c :: upTo stops cs)) := by
  have hpos := c.utf8Size_pos
  have hsize := utf8ByteSize_eq h
  rw [bytes_cons] at hsize
  -- The loop starts one byte on, which may be inside the character; what is left of it is passed.
  have hskip : firstFrom css p (bytes front + 1) =
      firstFrom css p (bytes front + 1 + (c.utf8Size - 1)) := by
    refine firstFrom_skip (by omega) fun k hk => ?_
    have hbeyond : 0x80 ≤ c.toNat := by
      by_contra hascii
      rw [utf8Size_of_ascii (Nat.lt_of_not_le hascii)] at hk
      exact absurd hk (Nat.not_lt_zero k)
    rw [Nat.add_assoc, hp front c cs h (1 + k) (by omega), hc hbeyond]
  have hbehind := firstFrom_eq hp (show css.toList = (front ++ [c]) ++ cs by
    rw [h, List.append_assoc]; rfl)
  rw [bytes_append, bytes_cons, bytes_nil, Nat.add_zero] at hbehind
  rw [hskip, show bytes front + 1 + (c.utf8Size - 1) = bytes front + c.utf8Size by omega, hbehind,
    bytes_cons, Nat.add_assoc]

/-- What is searched through is what would have been taken. -/
theorem upTo_not (q : Char → Bool) (cs : List Char) :
    upTo (fun c _ => !q c) cs = cs.takeWhile q := by
  induction cs with
  | nil => rfl
  | cons c cs ih =>
    rw [upTo, List.takeWhile_cons, ih]
    cases q c <;> rfl

theorem upTo_endsWord (cs : List Char) :
    upTo (fun c cs => endsWord c || (c == '/' && cs.head? == some '*')) cs =
      (cutWord cs).taken := by
  induction cs with
  | nil => rfl
  | cons c cs ih =>
    rw [upTo, cutWord, ih]
    split <;> rfl

/-! ### Slices -/

/-- The bytes between two boundaries are those of the text between them. -/
theorem between_eq (h : css.toList = front ++ (part ++ cs)) :
    between css (bytes front) (bytes front + bytes part) = .ok (byteChars part) := by
  have hle : bytes front + bytes part ≤ css.utf8ByteSize := by
    rw [utf8ByteSize_eq h, bytes_append, ← Nat.add_assoc]
    exact Nat.le_add_right _ _
  rw [between, if_pos ⟨Nat.le_add_right _ _, hle⟩, List.extract_eq_take_drop, drop_utf8 h,
    List.flatMap_append, Nat.add_sub_cancel_left, ← length_flatMap_utf8EncodeChar, List.take_left]
  rfl

/-- A backslash is one byte, and no byte of another character is one. -/
theorem isEscaped_byteChars (cs : List Char) : isEscaped (byteChars cs) = isEscaped cs := by
  induction cs using List.reverseRecOn with
  | nil => rfl
  | append_singleton cs c ih =>
    have hsplit : byteChars (cs ++ [c]) =
        byteChars cs ++ (String.utf8EncodeChar c).map .ofUInt8 := by
      rw [byteChars, List.flatMap_append, List.map_append, List.flatMap_singleton]
      rfl
    rw [hsplit, isEscaped_concat, ← ih]
    by_cases hc : c = '\\'
    · rw [hc, ← isEscaped_concat]
      rfl
    · -- The last byte is no backslash either.
      rcases List.eq_nil_or_concat (String.utf8EncodeChar c) with hnil | ⟨bs, b, hbs⟩
      · obtain ⟨b, bs, hbs⟩ := exists_utf8EncodeChar c
        rw [hnil] at hbs
        cases hbs
      · have hb : (Char.ofUInt8 b == '\\') = (c == '\\') :=
          (asciiOnly_beq (by decide)).of_mem (by rw [hbs]; simp)
        rw [hbs, List.concat_eq_append, List.map_append, List.map_singleton, ← List.append_assoc,
          isEscaped_concat, hb, beq_eq_false_iff_ne.mpr hc, Bool.false_and, Bool.false_and]

/-- The text between the boundaries of a part is the part. -/
theorem slice_eq (h : css.toList = front ++ (part ++ cs)) :
    slice css (bytes front) (bytes front + bytes part) = .ok (String.ofList part) := by
  have hcss : css = String.ofList front ++ String.ofList part ++ String.ofList cs := by
    rw [← String.toList_inj, h, String.toList_append, String.toList_append, String.toList_ofList,
      String.toList_ofList, String.toList_ofList, List.append_assoc]
  have hslice := slice?_part (String.ofList front) (String.ofList part) (String.ofList cs)
  rw [← hcss, String.utf8ByteSize_append, utf8ByteSize_ofList, utf8ByteSize_ofList] at hslice
  rw [slice, hslice]

theorem slice_rest (h : css.toList = front ++ cs) :
    slice css (bytes front) css.utf8ByteSize = .ok (String.ofList cs) := by
  have hslice := slice_eq (show css.toList = front ++ (cs ++ []) by rwa [List.append_nil])
  rwa [← utf8ByteSize_eq h] at hslice

/-- The end of a character is the next boundary. -/
theorem charEnd_eq (h : css.toList = front ++ c :: cs) :
    charEnd css (bytes front) = .ok (bytes front + c.utf8Size) := by
  rw [charEnd, slice_rest h, ok_bind, String.toList_ofList]
  rfl

/-! ### Closing characters -/

/-- A byte is looked for in the bytes of what is left. -/
theorem findByte_eq (h : css.toList = front ++ cs) (d : Char) :
    findByte css d (bytes front) =
      ((cs.flatMap String.utf8EncodeChar).findIdx? fun b => Char.ofUInt8 b == d).map
        (bytes front + ·) := by
  rw [findByte, drop_utf8 h, if_pos (utf8ByteSize_eq h ▸ Nat.le_add_right _ _)]

/-- A byte of ASCII that is looked for is found where its character stands. -/
theorem findByte_cons (hd : d.toNat < 0x80) (h : css.toList = front ++ c :: cs) :
    findByte css d (bytes front) =
      if c == d then some (bytes front) else findByte css d (bytes (front ++ [c])) := by
  -- An ASCII byte is no part of a longer character.
  have hbyte : ∀ b ∈ String.utf8EncodeChar c, (Char.ofUInt8 b == d) = (c == d) :=
    fun b hb => (asciiOnly_beq hd).of_mem hb
  have hnext : css.toList = (front ++ [c]) ++ cs := by rw [h, List.append_assoc]; rfl
  rw [findByte_eq h, findByte_eq hnext, List.flatMap_cons, List.findIdx?_append,
    String.length_utf8EncodeChar]
  cases hc : c == d with
  | true =>
    obtain ⟨b, bs, hbs⟩ := exists_utf8EncodeChar c
    rw [hbs] at hbyte ⊢
    rw [List.findIdx?_cons, hbyte b List.mem_cons_self, hc]
    rfl
  | false =>
    rw [List.findIdx?_eq_none_iff.mpr fun b hb => (hbyte b hb).trans hc, Option.none_or,
      Option.map_map, bytes_append, bytes_cons, bytes_nil]
    refine Option.map_congr fun k _ => ?_
    show bytes front + (k + c.utf8Size) = bytes front + (c.utf8Size + 0) + k
    omega

/-- Backslashes that are counted backwards are those that have been read. -/
theorem escapedAt_eq (h : css.toList = front ++ cs) :
    escapedAt css (bytes front) = .ok (isEscaped front) := by
  have hbetween := between_eq (show css.toList = [] ++ (front ++ cs) from h)
  rw [bytes_nil, Nat.zero_add] at hbetween
  rw [escapedAt, hbetween, ← isEscaped_byteChars]
  rfl

theorem closeFrom_of_none {close : Char} {i : Nat} (h : findByte css close i = none) :
    closeFrom css close i = .ok none := by
  rw [closeFrom]
  split
  next => rfl
  next found hfound => rw [h] at hfound; cases hfound

/-- What is found ends the group unless it is escaped. -/
theorem closeFrom_of_some {close : Char} {i found : Nat} (h : findByte css close i = some found) :
    closeFrom css close i = escapedAt css found >>= fun escaped =>
      if escaped then closeFrom css close (found + 1) else .ok (some found) := by
  rw [closeFrom]
  split
  next hnone => rw [h] at hnone; cases hnone
  next found' hfound =>
    rw [h] at hfound
    cases hfound
    rfl

/-- Where a search begins does not matter when it finds the same place. -/
theorem closeFrom_congr {close : Char} {i j : Nat}
    (h : findByte css close i = findByte css close j) :
    closeFrom css close i = closeFrom css close j := by
  cases hfind : findByte css close j with
  | none => rw [closeFrom_of_none hfind, closeFrom_of_none (h.trans hfind)]
  | some found => rw [closeFrom_of_some hfind, closeFrom_of_some (h.trans hfind)]

/-- The end that is found byte by byte, counting backslashes backwards, is the one that is read. -/
theorem closeFrom_eq {close : Char} (hclose : close.toNat < 0x80) (h : css.toList = front ++ cs) :
    closeFrom css close (bytes front) =
      .ok ((cutClosed close (isEscaped front) cs).map fun cut =>
        bytes front + bytes cut.taken - 1) := by
  induction cs generalizing front with
  | nil => exact closeFrom_of_none (findByte_eq h close)
  | cons c cs ih =>
    have hfind := findByte_cons hclose h
    have hih := ih (eq_concat_append h)
    have hsize : bytes (front ++ [c]) = bytes front + c.utf8Size := by
      rw [bytes_append, bytes_cons, bytes_nil, Nat.add_zero]
    have hmap : ∀ escaped, ((cutClosed close escaped cs).map fun cut =>
        bytes front + c.utf8Size + bytes cut.taken - 1) =
        ((cutClosed close escaped cs).map fun cut => (⟨c :: cut.taken, cut.rest⟩ : Cut)).map
          fun cut => bytes front + bytes cut.taken - 1 := fun escaped => by
      rw [Option.map_map]
      refine Option.map_congr fun cut _ => ?_
      rw [Function.comp_apply, bytes_cons, Nat.add_assoc]
    rw [hsize, isEscaped_concat, hmap] at hih
    rw [cutClosed]
    cases hc : c == close with
    | false =>
      rw [hc, if_neg Bool.false_ne_true, hsize] at hfind
      rw [closeFrom_congr hfind, hih]
      rfl
    | true =>
      obtain rfl := beq_iff_eq.mp hc
      rw [hc, if_pos rfl] at hfind
      rw [closeFrom_of_some hfind, escapedAt_eq h]
      -- The backslashes are counted backwards from here, while the other scan has carried a flag.
      cases hescaped : isEscaped front with
      | false =>
        show Except.ok (some (bytes front)) = .ok (some (bytes front + c.utf8Size - 1))
        rw [utf8Size_of_ascii hclose, Nat.add_sub_cancel]
      | true =>
        rw [utf8Size_of_ascii hclose, hescaped] at hih
        exact hih

/-! ### Escapes -/

/-- One blank behind the digits of a code belongs to it. -/
theorem codeEnd_eq (h : css.toList = front ++ cs) :
    codeEnd css (bytes front) = .ok (bytes front + bytes (cs.takeWhile isHex) +
      if (cs.dropWhile isHex).head? == some ' ' then 1 else 0) := by
  have hstop := firstFrom_eq (tests_passes (asciiOnly_of_false fun _ => isHex_of_beyond).not) h
  rw [upTo_not, ← bytes_append] at hstop
  have hbehind : css.toList = (front ++ cs.takeWhile isHex) ++ cs.dropWhile isHex := by
    rw [h, List.append_assoc, List.takeWhile_append_dropWhile]
  rw [codeEnd, hstop, ← bytes_append]
  show (if _ < _ then _ else _) = _
  -- Behind the digits: the end of the text, or one more byte to look at.
  have hsize := utf8ByteSize_eq hbehind
  cases hrest : cs.dropWhile isHex with
  | nil =>
    rw [hrest, bytes_nil, Nat.add_zero] at hsize
    rw [if_neg (Nat.not_lt_of_le (Nat.le_of_eq hsize))]
    rfl
  | cons d ds =>
    rw [hrest] at hbehind hsize
    have hpos := d.utf8Size_pos
    rw [bytes_cons] at hsize
    obtain ⟨e, hbyte, he⟩ := exists_byteAt hbehind
    have hblank : (e == ' ') = (d == ' ') := he (asciiOnly_beq (by decide))
    rw [if_pos (by omega), hbyte]
    show (if e == ' ' then _ else _) = Except.ok (_ + if d == ' ' then 1 else 0)
    rw [hblank]
    cases d == ' ' <;> rfl

/-- An escape is a code of a few digits with a space, or one character. -/
theorem escapedEnd_eq (h : css.toList = front ++ cs) :
    escapedEnd css (bytes front) = .ok (bytes front + bytes (cutEscaped cs).taken) := by
  have hsize := utf8ByteSize_eq h
  rw [escapedEnd]
  cases cs with
  | nil =>
    rw [if_neg (by rw [hsize]; exact Nat.lt_irrefl _)]
    rfl
  | cons c cs =>
    have hpos := c.utf8Size_pos
    rw [bytes_cons] at hsize
    obtain ⟨e, hbyte, he⟩ := exists_byteAt h
    -- The tests look at the first byte, and tell by it what they would tell of the character.
    have hspace : isSpace e = isSpace c := he (asciiOnly_of_false fun _ => isSpace_of_beyond)
    have hslash : (e == '/') = (c == '/') := he (asciiOnly_beq (by decide))
    have hhex : isHex e = isHex c := he (asciiOnly_of_false fun _ => isHex_of_beyond)
    rw [if_pos (by omega), hbyte]
    show (if isSpace e || e == '/' then _ else if isHex e then _ else _) = _
    rw [hspace, hslash, hhex, cutEscaped]
    split_ifs with hends hcode
    · rfl
    · rw [codeEnd_eq h, List.takeWhile_cons_of_pos hcode, List.dropWhile_cons_of_pos hcode,
        Nat.add_assoc]
      cases cs.dropWhile isHex with
      | nil => rfl
      | cons d ds =>
        show Except.ok (_ + (_ + if d == ' ' then 1 else 0)) = _
        dsimp only
        split_ifs with hd
        · rw [beq_iff_eq.mp hd, bytes_append]
          rfl
        · rfl
    · exact charEnd_eq h

/-- Behind a run of backslashes, the last one escapes when their number is odd. -/
theorem exists_backslashes (h : css.toList = front ++ cs) (odd : Bool) :
    ∃ stop escape, backslashes css (bytes front) odd = .ok (stop, escape) ∧
      (if escape then escapedEnd css stop else .ok stop) =
        .ok (bytes front + bytes (cutBackslashes odd cs).taken) := by
  -- The loop keeps its place and the parity; the escape is read behind it.
  induction cs generalizing front odd with
  | nil =>
    refine ⟨bytes front, odd, ?_, ?_⟩
    · rw [backslashes, if_neg (by rw [utf8ByteSize_eq h]; exact Nat.lt_irrefl _)]
      rfl
    · rw [escapedEnd_eq h]
      cases odd <;> rfl
  | cons c cs ih =>
    have hsize := utf8ByteSize_eq h
    have hpos := c.utf8Size_pos
    rw [bytes_cons] at hsize
    obtain ⟨e, hbyte, he⟩ := exists_byteAt h
    have hback : (e == '\\') = (c == '\\') := he (asciiOnly_beq (by decide))
    rw [backslashes, if_pos (by omega), hbyte, cutBackslashes]
    show ∃ stop escape, (if e == '\\' then _ else _) = _ ∧ _
    rw [hback]
    split_ifs with hc hodd
    · obtain rfl := beq_iff_eq.mp hc
      obtain ⟨stop, escape, hrun, hend⟩ := ih (eq_concat_append h) !odd
      rw [bytes_concat] at hrun hend
      refine ⟨stop, escape, hrun, ?_⟩
      rw [hend, Nat.add_assoc]
      rfl
    · exact ⟨bytes front, odd, rfl, by rw [if_pos hodd, escapedEnd_eq h]⟩
    · exact ⟨bytes front, odd, rfl, by rw [if_neg hodd]; rfl⟩

/-- Two backslashes are a pair; one that is left takes an escape with it. -/
theorem backslash_eq (h : css.toList = front ++ '\\' :: cs) :
    backslash css (bytes front) =
      .ok (.word, bytes front + bytes ('\\' :: (cutBackslashes true cs).taken)) := by
  obtain ⟨stop, escape, hrun, hend⟩ := exists_backslashes (eq_concat_append h) true
  rw [bytes_concat, Nat.add_assoc, ← bytes_cons] at hend
  rw [bytes_concat] at hrun
  rw [backslash, show backslashes css (bytes front + 1) true = _ from hrun, ok_bind]
  cases escape with
  | true =>
    rw [if_pos rfl] at hend
    dsimp only
    rw [if_pos rfl, hend]
    rfl
  | false =>
    obtain rfl := Except.ok.inj hend
    rfl

/-! ### Groups -/

/-- Without a closing parenthesis there is no group. -/
theorem cutGroup_of_not_mem (h : ')' ∉ cs) : cutGroup cs = none := by
  cases hcut : cutGroup cs with
  | none => rfl
  | some cut =>
    obtain ⟨body, -, rfl, -⟩ := cutGroup_eq_some_iff.mp hcut
    exact absurd (by simp) h

/-- A group is one token when nothing in front of its end breaks it. -/
theorem cutGroup_append {body : List Char} (h : ')' ∉ body) (rest : List Char) :
    cutGroup (body ++ ')' :: rest) =
      if body.any breaksGroup then none else some ⟨body ++ [')'], rest⟩ := by
  induction body with
  | nil => rfl
  | cons c body ih =>
    rw [List.mem_cons, not_or] at h
    rw [List.cons_append, cutGroup, if_neg (by simpa using Ne.symm h.1), ih h.2, List.any_cons]
    cases breaksGroup c with
    | true => rfl
    | false => cases body.any breaksGroup <;> rfl

/-- A byte of ASCII that is looked for is found where its character stands first. -/
theorem findByte_append (hd : d.toNat < 0x80) {body : List Char} (hbody : d ∉ body)
    (h : css.toList = front ++ (body ++ cs)) :
    findByte css d (bytes front) = findByte css d (bytes (front ++ body)) := by
  induction body generalizing front with
  | nil => rw [List.append_nil]
  | cons c body ih =>
    rw [List.mem_cons, not_or] at hbody
    have hne : ¬ (c == d) = true := by simpa using Ne.symm hbody.1
    rw [findByte_cons hd h, if_neg hne, ih hbody.2 (eq_concat_append h), List.append_assoc]
    rfl

/-! ### Tokens -/

/-- A token that was cut at a byte offset, as the scan tells it. -/
def told (start : Nat) : Except UnclosedKind Lexeme → Bytewise (TokenKind × Nat)
  | .ok lexeme => .ok (lexeme.kind, start + bytes lexeme.cut.taken)
  | .error what => .error (.unclosed ⟨what, start⟩)

/-- The end of a group behind an opening character, which is no backslash. -/
theorem closeFrom_behind {open' close : Char} (hopen : open'.toNat < 0x80) (hne : open' ≠ '\\')
    (hclose : close.toNat < 0x80) (h : css.toList = front ++ open' :: cs) :
    closeFrom css close (bytes front + 1) =
      .ok ((cutClosed close false cs).map fun cut => bytes front + bytes cut.taken) := by
  have hfound := closeFrom_eq hclose (eq_concat_append h)
  rw [isEscaped_concat, beq_eq_false_iff_ne.mpr hne, Bool.false_and, bytes_concat,
    utf8Size_of_ascii hopen] at hfound
  rw [hfound]
  refine congrArg _ (Option.map_congr fun cut _ => ?_)
  omega

/-- A string ends behind its quote, or nowhere. -/
theorem quoted_eq {quote : Char} (hquote : quote.toNat < 0x80) (hne : quote ≠ '\\')
    (h : css.toList = front ++ quote :: cs) (tolerant : Bool) :
    quoted css tolerant quote (bytes front) =
      told (bytes front) (cutString tolerant quote cs) := by
  rw [quoted, closeFrom_behind hquote hne hquote h, ok_bind, cutString]
  cases hcut : cutClosed quote false cs with
  | none =>
    cases tolerant with
    | false => rfl
    | true =>
      show Except.ok (_, css.utf8ByteSize) = _
      rw [utf8ByteSize_eq h]
      rfl
  | some cut =>
    have hcut' : cutClosed quote (isEscaped []) cs = some cut := hcut
    obtain ⟨body, -, rfl, htaken⟩ := cutClosed_eq_some_iff.mp hcut'
    have hfound := charEnd_eq (show css.toList = (front ++ quote :: body) ++ quote :: cut.rest by
      rw [h, List.append_assoc]; rfl)
    -- The place that was found is that of the closing quote; the token ends one character on.
    have hplace : bytes front + bytes cut.taken = bytes (front ++ quote :: body) := by
      rw [htaken, bytes_concat, bytes_append, bytes_cons]
      omega
    dsimp only [Option.map_some, told]
    rw [hplace, hfound, ok_bind, ← hplace, bytes_cons, Nat.add_right_comm, Nat.add_assoc]
    rfl

/-- A comment ends behind its mark, or nowhere. -/
theorem comment_eq (h : css.toList = front ++ '/' :: '*' :: cs) (tolerant : Bool) :
    comment css tolerant (bytes front) = told (bytes front) (cutComment tolerant cs) := by
  -- The slice begins behind two ASCII characters, so it stands between characters.
  have hrest := slice_rest (eq_concat_append (eq_concat_append h))
  rw [bytes_concat, bytes_concat] at hrest
  rw [comment, show slice css (bytes front + 2) css.utf8ByteSize = _ from hrest, ok_bind,
    String.toList_ofList, cutComment]
  cases splitAt? ['*', '/'] cs with
  | none =>
    cases tolerant with
    | false => rfl
    | true =>
      show Except.ok (_, css.utf8ByteSize) = _
      rw [utf8ByteSize_eq h]
      rfl
  | some parts =>
    obtain ⟨text, rest⟩ := parts
    dsimp only [told]
    rw [List.cons_append, List.cons_append, bytes_cons, bytes_cons, bytes_append, Nat.add_assoc,
      Nat.add_assoc, ← Nat.add_assoc _ _ (bytes text + bytes ['*', '/'])]
    rfl

/-- A group is looked through when its end is found, or read up to what breaks it. -/
theorem group_eq (h : css.toList = front ++ '(' :: cs) :
    group css (bytes front) =
      told (bytes front) (match cutGroup cs with
        | some cut => .ok ⟨.brackets, ⟨'(' :: cut.taken, cut.rest⟩⟩
        | none => .ok ⟨.openParen, ⟨['('], cs⟩⟩) := by
  have hcs := eq_concat_append h
  have hfront : bytes front + 1 = bytes (front ++ ['(']) := (bytes_concat front '(').symm
  rw [group, hfront]
  -- The contents up to the first closing parenthesis are looked through by bytes.
  by_cases hmem : ')' ∈ cs
  · obtain ⟨body, rest, rfl, hbody⟩ := List.eq_append_cons_of_mem hmem
    have hfind := findByte_append (d := ')') (by decide) hbody hcs
    rw [← List.append_assoc] at hcs
    rw [findByte_cons (by decide) hcs, if_pos (beq_self_eq_true ')')] at hfind
    have hbetween := between_eq
      (show css.toList = (front ++ ['(']) ++ ((body ++ [')']) ++ rest) by rw [hcs]; simp)
    have hclose : bytes (front ++ ['(']) + bytes (body ++ [')']) =
        bytes (front ++ ['('] ++ body) + 1 := by
      rw [bytes_append _ body, bytes_concat body, Nat.add_assoc]
      rfl
    have hcontent : (byteChars (body ++ [')'])).any breaksGroup = body.any breaksGroup := by
      rw [any_byteChars (asciiOnly_of_false fun _ => breaksGroup_of_beyond), List.any_append]
      exact Bool.or_false _
    rw [hclose] at hbetween
    rw [hfind]
    dsimp only
    rw [hbetween, ok_bind, hcontent, cutGroup_append hbody]
    cases body.any breaksGroup with
    | true => exact congrArg (fun n => Except.ok (_, n)) hfront.symm
    | false =>
      refine congrArg (fun n => Except.ok (_, n)) ?_
      rw [← hclose, ← hfront, bytes_cons, ← Nat.add_assoc]
      rfl
  · have hfind := findByte_append (d := ')') (by decide) hmem
      (show css.toList = (front ++ ['(']) ++ (cs ++ []) by rw [List.append_nil, hcs])
    have hnone := findByte_eq (show css.toList = ((front ++ ['(']) ++ cs) ++ [] by
      rw [List.append_nil, hcs]) ')'
    rw [hfind, hnone, cutGroup_of_not_mem hmem]
    exact congrArg (fun n => Except.ok (_, n)) hfront.symm

/-- A parenthesis is read by the word in front of it. -/
theorem paren_eq {words : List (Nat × Nat)} {word : String} (hword : topWord css words = .ok word)
    (h : css.toList = front ++ '(' :: cs) (tolerant : Bool) :
    paren css tolerant words (bytes front) =
      told (bytes front) (cutParen tolerant word cs) := by
  -- The byte behind decides whether contents are taken as they are.
  have hnext : ((byteAt? css (bytes front + 1)).any fun c => c == '"' || c == '\'' || isSpace c) =
      cs.head?.any fun c => c == '"' || c == '\'' || isSpace c := by
    have hany := any_byteAt? (q := fun c => c == '"' || c == '\'' || isSpace c)
      (asciiOnly_of_false fun c hc => by
        simp (disch := decide) only [beq_of_beyond hc, isSpace_of_beyond hc, Bool.or_self])
      (eq_concat_append h)
    rwa [bytes_concat] at hany
  rw [paren, hword, ok_bind, cutParen, hnext]
  cases word == "url" && !(cs.head?.any fun c => c == '"' || c == '\'' || isSpace c) with
  | false => exact group_eq h
  | true =>
    rw [closeFrom_behind (by decide) (by decide) (by decide) h]
    cases hcut : cutClosed ')' false cs with
    | none => cases tolerant <;> rfl
    | some cut =>
      refine congrArg (fun n => Except.ok (_, n)) ?_
      rw [bytes_cons, Nat.add_assoc, Nat.add_comm (bytes cut.taken)]
      rfl

/-- The scan at a boundary finds the token that is cut off the characters from there on. -/
theorem token_eq {words : List (Nat × Nat)} {word : String} (hword : topWord css words = .ok word)
    (h : css.toList = front ++ c :: cs) (tolerant : Bool) :
    token css tolerant words (bytes front) =
      told (bytes front) (cutToken tolerant word c cs) := by
  obtain ⟨e, hbyte, he⟩ := exists_byteAt h
  have hpunctuation : punctuation? e = punctuation? c :=
    he fun c d hc hd => (punctuation?_of_beyond hc).trans (punctuation?_of_beyond hd).symm
  have hspace : isSpace e = isSpace c := he (asciiOnly_of_false fun _ => isSpace_of_beyond)
  have hbeq : ∀ d : Char, d.toNat < 0x80 → (e == d) = (c == d) := fun d hd => he (asciiOnly_beq hd)
  -- The byte behind a slash is looked at only there, where it belongs to the next character.
  have hstar : (c == '/' && byteAt? css (bytes front + 1) == some '*') =
      (c == '/' && cs.head? == some '*') := by
    cases hc : c == '/' with
    | false => rfl
    | true =>
      rw [beq_iff_eq.mp hc] at h
      have hnext := byteAt?_beq (d := '*') (by decide) (eq_concat_append h)
      rwa [bytes_concat] at hnext
  rw [token, hbyte, ok_bind, cutToken, hpunctuation]
  cases hkind : punctuation? c with
  | some kind =>
    have hascii : c.toNat < 0x80 := by
      by_contra hbeyond
      rw [punctuation?_of_beyond (Nat.le_of_not_lt hbeyond)] at hkind
      cases hkind
    exact congrArg (fun n => Except.ok (kind, bytes front + n)) (utf8Size_of_ascii hascii).symm
  | none =>
    dsimp only
    rw [hspace, hbeq '(' (by decide), hbeq '"' (by decide), hbeq '\'' (by decide),
      hbeq '@' (by decide), hbeq '\\' (by decide), hbeq '/' (by decide), hstar]
    split_ifs with hisSpace hparen hquote hat hback hcomment
    · have hend := firstFrom_behind
        (tests_passes (asciiOnly_of_false fun _ => isSpace_of_beyond).not) h
        fun _ => congrArg (!·) hisSpace
      rw [hend, upTo_not]
      rfl
    · obtain rfl := beq_iff_eq.mp hparen
      exact paren_eq hword h tolerant
    · obtain ⟨hascii, hne, hec⟩ : c.toNat < 0x80 ∧ c ≠ '\\' ∧ e = c := by
        simp only [Bool.or_eq_true, beq_iff_eq] at hquote
        rcases hquote with rfl | rfl
        · exact ⟨by decide, by decide, beq_iff_eq.mp (hbeq '"' (by decide))⟩
        · exact ⟨by decide, by decide, beq_iff_eq.mp (hbeq '\'' (by decide))⟩
      rw [hec]
      exact quoted_eq hascii hne h tolerant
    · have hend := firstFrom_behind
        (tests_passes (asciiOnly_of_false fun _ => endsAtWord_of_beyond)) h
        fun hc => endsAtWord_of_beyond hc
      have hword := upTo_not (fun c => !endsAtWord c) cs
      simp only [Bool.not_not] at hword
      rw [hend, hword]
      rfl
    · obtain rfl := beq_iff_eq.mp hback
      exact backslash_eq h
    · simp only [Bool.and_eq_true, beq_iff_eq] at hcomment
      obtain ⟨rfl, hhead⟩ := hcomment
      obtain ⟨ds, rfl⟩ := List.head?_eq_some_iff.mp hhead
      exact comment_eq h tolerant
    · have hend := firstFrom_behind tests_endsWordAt h fun hc => by
        rw [endsWord_of_beyond hc, beq_of_beyond hc (by decide)]
        rfl
      rw [hend, upTo_endsWord]
      rfl

end Bytewise

end Stylesheet
