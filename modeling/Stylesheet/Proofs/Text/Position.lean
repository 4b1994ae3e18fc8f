import Mathlib.Data.List.Basic
import Mathlib.Data.List.TakeWhile
import Mathlib.Order.Bounds.Basic
import Stylesheet.Proofs.Text.Boundary
import Stylesheet.Text.LineIndex

/-!
# Positions in a text

The index of the lines of a text finds the line of an offset by the starts of the lines, and the
column from the nearest mark on the line. For any offset, this is what counting line feeds and units
in front of it gives (`LineIndex.position_upTo`, `LineIndex.position_eq_plainPosition`), where a
character that the offset is inside of is not counted. Where the offset is the size of a part
`front` of the text, `front` is what is counted (`LineIndex.position_front`). The numbers are
bounded by the size of the text (`LineIndex.position_le`).

All of this is also told of the bytes of the text (`LineIndex.position_counted`). The offset is
taken down to the end of the last character that ends at or in front of it. The line is one more
than the line feeds in front of that place, and the column one more than the UTF-16 units between
the last of them and that place.
-/

namespace Stylesheet.Text

/-! ### Behind the last line feed -/

/-- The characters behind the last line feed. -/
def lastPart (cs : List Char) : List Char :=
  (cs.reverse.takeWhile (· != '\n')).reverse

theorem forall_bne_of_not_mem {cs : List Char} (h : '\n' ∉ cs) :
    ∀ c ∈ cs.reverse, (c != '\n') = true := by
  intro c hc
  rw [bne_iff_ne]
  rintro rfl
  exact h (List.mem_reverse.mp hc)

/-- What follows without a line feed is behind the last one. -/
theorem lastPart_append_of_not_mem (as : List Char) {bs : List Char} (h : '\n' ∉ bs) :
    lastPart (as ++ bs) = lastPart as ++ bs := by
  rw [lastPart, lastPart, List.reverse_append,
    List.takeWhile_append_of_pos (forall_bne_of_not_mem h), List.reverse_append,
    List.reverse_reverse]

theorem lastPart_of_not_mem {cs : List Char} (h : '\n' ∉ cs) : lastPart cs = cs :=
  lastPart_append_of_not_mem [] h

/-- What stands in front of a line feed makes no difference. -/
theorem lastPart_append_of_mem (as : List Char) {bs : List Char} (h : '\n' ∈ bs) :
    lastPart (as ++ bs) = lastPart bs := by
  rw [lastPart, lastPart, List.reverse_append, List.takeWhile_append, if_neg]
  intro hlen
  have hall := List.takeWhile_eq_self_iff.mp ((List.takeWhile_prefix _).eq_of_length hlen)
  exact absurd (hall '\n' (List.mem_reverse.mpr h)) (by decide)

theorem lastPart_newline (as bs : List Char) : lastPart (as ++ '\n' :: bs) = lastPart bs := by
  rw [lastPart_append_of_mem as List.mem_cons_self]
  by_cases h : '\n' ∈ bs
  · exact lastPart_append_of_mem ['\n'] h
  · rw [← List.singleton_append, lastPart_append_of_not_mem _ h, lastPart_of_not_mem h]
    rfl

/-- A text is cut behind its last line feed. -/
theorem exists_lastPart (cs : List Char) :
    ∃ above, cs = above ++ lastPart cs ∧ (above = [] ∨ ∃ as, above = as ++ ['\n']) ∧
      '\n' ∉ lastPart cs := by
  have hcut := congrArg List.reverse (List.takeWhile_append_dropWhile (p := (· != '\n'))
    (l := cs.reverse))
  rw [List.reverse_append, List.reverse_reverse] at hcut
  refine ⟨(cs.reverse.dropWhile (· != '\n')).reverse, hcut.symm, ?_, fun hmem => ?_⟩
  · have hhead := List.head?_dropWhile_not (· != '\n') cs.reverse
    cases hdrop : cs.reverse.dropWhile (· != '\n') with
    | nil => exact Or.inl rfl
    | cons c ds =>
      rw [hdrop, List.head?_cons] at hhead
      have hc : c = '\n' := by simpa using hhead
      exact Or.inr ⟨ds.reverse, by rw [List.reverse_cons, hc]⟩
  · have hne := List.mem_takeWhile_imp (List.mem_reverse.mp hmem)
    exact absurd hne (by decide)

/-! ### Up to an offset -/

/-- The characters of `front`, which starts at byte `base`, are those that end at or in front of
byte `offset`, when `rest` is what follows. -/
def UpTo (base offset : Nat) (front rest : List Char) : Prop :=
  base + bytes front ≤ offset ∧ ∀ c ∈ rest.head?, offset < base + bytes front + c.utf8Size

theorem upTo_bytes (front rest : List Char) : UpTo 0 (bytes front) front rest := by
  have hzero : 0 + bytes front = bytes front := Nat.zero_add _
  refine ⟨Nat.le_of_eq hzero, fun c _ => ?_⟩
  rw [hzero]
  exact Nat.lt_add_of_pos_right c.utf8Size_pos

/-- `takeBytes` takes the characters up to an offset. -/
theorem upTo_takeBytes (offset : Nat) (cs : List Char) :
    ∃ rest, cs = takeBytes offset cs ++ rest ∧ UpTo 0 offset (takeBytes offset cs) rest := by
  induction cs generalizing offset with
  | nil => exact ⟨[], rfl, Nat.zero_le _, fun _ hc => by cases hc⟩
  | cons c cs ih =>
    rw [takeBytes]
    split_ifs with hlt
    · refine ⟨c :: cs, rfl, Nat.zero_le _, ?_⟩
      simpa using hlt
    · obtain ⟨rest, hcs, hle, hnext⟩ := ih (offset - c.utf8Size)
      refine ⟨rest, congrArg (c :: ·) hcs, ?_, fun d hd => ?_⟩
      · rw [bytes_cons]
        omega
      · have := hnext d hd
        rw [bytes_cons]
        omega

/-! ### Lines -/

/-- The lines below stand behind the part of the text that has no line feed. -/
theorem linesFrom_append {as : List Char} (h : '\n' ∉ as) (start : Nat) (cs : List Char) :
    linesFrom start (as ++ cs) = linesFrom (start + bytes as) cs := by
  induction as generalizing start with
  | nil => rfl
  | cons a as ih =>
    rw [List.mem_cons, not_or] at h
    rw [List.cons_append, linesFrom, if_neg (mt beq_iff_eq.mp (Ne.symm h.1)), ih h.2, bytes_cons,
      Nat.add_assoc]

/-- The lines below start behind the first character. -/
theorem le_start_of_mem_linesFrom {start : Nat} {cs : List Char} {line : Line}
    (h : line ∈ linesFrom start cs) : ∃ c ∈ cs.head?, start + c.utf8Size ≤ line.start := by
  induction cs generalizing start with
  | nil => cases h
  | cons c cs ih =>
    refine ⟨c, rfl, ?_⟩
    have hlater : line ∈ linesFrom (start + c.utf8Size) cs → start + c.utf8Size ≤ line.start :=
      fun h => by
        obtain ⟨d, -, hd⟩ := ih h
        omega
    rw [linesFrom] at h
    split at h
    · rcases List.mem_cons.mp h with rfl | h
      · exact Nat.le_refl _
      · exact hlater h
    · exact hlater h

/-- The line of the offset behind `front`: as many lines stand in front of it as `front` has line
feeds. Those behind it start behind the character that follows. -/
theorem linesFrom_front (front rest : List Char) (start : Nat) :
    ∃ (base : Nat) (above below : List Line),
      Line.ofText start (front ++ rest) :: linesFrom start (front ++ rest) =
        above ++ Line.ofText base (lastPart front ++ rest) :: below ∧
      above.length = front.count '\n' ∧ base + bytes (lastPart front) = start + bytes front ∧
      (∀ line ∈ above, line.start ≤ start + bytes front) ∧
      ∀ line ∈ below, ∃ c ∈ rest.head?, start + bytes front + c.utf8Size ≤ line.start := by
  -- By recursion on the front, one whole line at a time.
  by_cases h : '\n' ∈ front
  · obtain ⟨as, bs, rfl, has⟩ := List.eq_append_cons_of_mem h
    obtain ⟨base, above, below, hlines, hlength, hbase, habove, hbelow⟩ :=
      linesFrom_front bs rest (start + bytes as + 1)
    have hsize : bytes ('\n' :: bs) = 1 + bytes bs := rfl
    have hoffset : start + bytes (as ++ '\n' :: bs) = start + bytes as + 1 + bytes bs := by
      rw [bytes_append, hsize]
      omega
    have hcount : (as ++ '\n' :: bs).count '\n' = bs.count '\n' + 1 := by
      rw [List.count_append, List.count_eq_zero.mpr has, List.count_cons_self, Nat.zero_add]
    have hnext : linesFrom start (as ++ '\n' :: (bs ++ rest)) =
        above ++ Line.ofText base (lastPart bs ++ rest) :: below :=
      (linesFrom_append has start _).trans hlines
    rw [hoffset, lastPart_newline, hcount, List.append_assoc, List.cons_append, hnext]
    refine ⟨base, Line.ofText start _ :: above, below, rfl, congrArg (· + 1) hlength, hbase,
      List.forall_mem_cons.mpr ⟨?_, habove⟩, hbelow⟩
    show start ≤ _
    omega
  · rw [linesFrom_append h, lastPart_of_not_mem h, List.count_eq_zero.mpr h]
    exact ⟨start, [], _, rfl, rfl, rfl, fun _ hline => absurd hline List.not_mem_nil,
      fun _ => le_start_of_mem_linesFrom⟩
termination_by front.length
decreasing_by
  subst_vars
  simp
  omega

/-- The search finds the line of an offset. -/
theorem LineIndex.lineOf_upTo {offset : Nat} {front rest : List Char}
    (h : UpTo 0 offset front rest) :
    ∃ base, UpTo base offset (lastPart front) rest ∧
      ((LineIndex.ofText (front ++ rest)).lineOf offset : Nat) = front.count '\n' ∧
      (LineIndex.ofText (front ++ rest)).lineAt offset =
        Line.ofText base (lastPart front ++ rest) := by
  obtain ⟨base, above, below, hlines, hlength, hbase, habove, hbelow⟩ :=
    linesFrom_front front rest 0
  have hlist : (LineIndex.ofText (front ++ rest)).lines.toList =
    above ++ Line.ofText base (lastPart front ++ rest) :: below := hlines
  have hle := h.1
  -- All lines up to this one start at the offset or before it, and all others behind it.
  have hfound : ((LineIndex.ofText (front ++ rest)).lineOf offset : Nat) = above.length := by
    refine lastNotAbove_eq hlist (fun line hline => ?_) (fun line hline => ?_) _
    · have hstart : line.start ≤ offset := by
        rcases List.mem_append.mp hline with hline | hline
        · exact (habove line hline).trans hle
        · rw [List.mem_singleton.mp hline]
          show base ≤ offset
          omega
      simp [hstart]
    · obtain ⟨c, hc, hstart⟩ := hbelow line hline
      have hlt := h.2 c hc
      simp [show ¬line.start ≤ offset by omega]
  refine ⟨base, ?_, hfound.trans hlength, ?_⟩
  · rwa [UpTo, ← hbase] at h
  · rw [lineAt, Fin.getElem_fin, ← Array.getElem_toList]
    simp only [hlist, hfound]
    rw [List.getElem_append_right (Nat.le_refl _)]
    simp

/-! ### Marks -/

/-- A mark of the line at the front of the given text, which starts at byte `base`. -/
def Mark.On (base : Nat) (text : List Char) (m : Mark) : Prop :=
  ∃ front, text = front ++ m.rest ∧ m.offset = base + bytes front ∧ m.column = units front

theorem on_of_mem_marksFrom {base : Nat} {text front rest : List Char} {left : Nat} {m : Mark}
    (htext : text = front ++ rest)
    (h : m ∈ marksFrom (base + bytes front) (units front) left rest) : m.On base text := by
  induction rest generalizing front left with
  | nil => exact absurd h List.not_mem_nil
  | cons c rest ih =>
    have htext' : text = (front ++ [c]) ++ rest := by rw [htext, List.append_assoc]; rfl
    have hbytes : base + bytes front + c.utf8Size = base + bytes (front ++ [c]) := by
      rw [bytes_append, Nat.add_assoc]
      rfl
    have hunits : units front + charUnits c = units (front ++ [c]) := by
      rw [units_append]
      rfl
    rw [marksFrom, hbytes, hunits] at h
    split_ifs at h
    · cases h
    · rcases List.mem_cons.mp h with rfl | h
      · exact ⟨front ++ [c], htext', rfl, rfl⟩
      · exact ih htext' h
    · exact ih htext' h

theorem on_of_mem_marks {base : Nat} {text : List Char} {m : Mark}
    (h : m ∈ (Line.ofText base text).marks) : m.On base text := by
  rcases List.mem_cons.mp (List.mem_toArray.mp h) with rfl | h
  · exact ⟨[], rfl, rfl, rfl⟩
  · exact on_of_mem_marksFrom (List.nil_append text).symm h

theorem Line.markAtOffset_mem (line : Line) (offset : Nat) :
    line.markAtOffset offset ∈ line.marks :=
  Array.getElem_mem _

/-- The mark that the search finds is not behind the offset when the line starts in front of it. -/
theorem Line.markAtOffset_le {base offset : Nat} (hbase : base ≤ offset) (text : List Char) :
    ((Line.ofText base text).markAtOffset offset).offset ≤ offset := by
  have hturns : Turns (fun m => compare m.offset offset) (Line.ofText base text).marks _ :=
    lastNotAbove_turns (Line.ofText base text).marked (Nat.compare_ne_gt.mpr hbase)
  exact Nat.compare_ne_gt.mp ((forall_mem_getElem? (Fin.isLt _)).mp hturns.1)

theorem columnFrom_upTo {start offset column : Nat} {as bs : List Char}
    (h : UpTo start offset as bs) :
    columnFrom offset start column (as ++ bs) = column + units as := by
  induction as generalizing start column with
  | nil =>
    cases bs with
    | nil => rfl
    | cons b bs => exact if_pos (h.2 b rfl)
  | cons a as ih =>
    have hnext : UpTo (start + a.utf8Size) offset as bs := by
      simpa [UpTo, Nat.add_assoc] using h
    have hle := hnext.1
    rw [List.cons_append, columnFrom, if_neg (by omega), ih hnext, units_cons, Nat.add_assoc]

/-- From a mark in front of the offset, the column is what is counted from the start of the line. -/
theorem Mark.On.columnFrom_eq {base offset : Nat} {as bs : List Char} {m : Mark}
    (h : m.On base (as ++ bs)) (hle : m.offset ≤ offset) (hup : UpTo base offset as bs) :
    columnFrom offset m.offset m.column m.rest = units as := by
  obtain ⟨front, htext, hoffset, hcolumn⟩ := h
  -- The mark stands in front of the offset, so that it divides `as`.
  obtain ⟨mid, rfl, hrest⟩ : ∃ mid, as = front ++ mid ∧ m.rest = mid ++ bs := by
    rcases List.append_eq_append_iff.mp htext with ⟨mid, hfront, hbs⟩ | ⟨mid, has, hrest⟩
    · cases mid with
      | nil => exact ⟨[], by rw [hfront, List.append_nil, List.append_nil], hbs.symm⟩
      | cons c mid =>
        have hlt := hup.2 c (by rw [hbs]; rfl)
        rw [hoffset, hfront, bytes_append, bytes_cons] at hle
        omega
    · exact ⟨mid, has, hrest⟩
  have hmid : UpTo m.offset offset mid bs := by
    rwa [UpTo, bytes_append, ← Nat.add_assoc, ← hoffset] at hup
  rw [hcolumn, hrest, columnFrom_upTo hmid, units_append]

/-- The mark that the search finds leads to the column. -/
theorem columnFrom_markAtOffset {base offset : Nat} {as bs : List Char}
    (h : UpTo base offset as bs) :
    let mark := (Line.ofText base (as ++ bs)).markAtOffset offset
    columnFrom offset mark.offset mark.column mark.rest = units as := by
  have hbase : base ≤ offset := (Nat.le_add_right _ _).trans h.1
  exact (on_of_mem_marks (Line.markAtOffset_mem _ _)).columnFrom_eq
    (Line.markAtOffset_le hbase _) h

/-- Line and column of an offset, from the characters up to it. -/
theorem LineIndex.position_upTo {offset : Nat} {front rest : List Char}
    (h : UpTo 0 offset front rest) :
    (LineIndex.ofText (front ++ rest)).position offset =
      (front.count '\n' + 1, units (lastPart front) + 1) := by
  have hsize : (LineIndex.ofText (front ++ rest)).size = bytes front + bytes rest :=
    bytes_append _ _
  have hmin : UpTo 0 (min offset (LineIndex.ofText (front ++ rest)).size) front rest := by
    have hle := h.1
    exact ⟨by omega, fun c hc => (Nat.min_le_left _ _).trans_lt (h.2 c hc)⟩
  obtain ⟨base, hup, hnumber, hline⟩ := lineOf_upTo hmin
  simp only [position, hnumber, hline]
  exact congrArg (_, · + 1) (columnFrom_markAtOffset hup)

/-- Line and column of the offset behind a part of the text. -/
theorem LineIndex.position_front (front rest : List Char) :
    (LineIndex.ofText (front ++ rest)).position (bytes front) =
      (front.count '\n' + 1, units (lastPart front) + 1) :=
  position_upTo (upTo_bytes front rest)

theorem units_reverse (cs : List Char) : units cs.reverse = units cs := by
  induction cs with
  | nil => rfl
  | cons c cs ih => rw [List.reverse_cons, units_append, ih, units_cons, Nat.add_comm]; rfl

/-- The index finds what counting on the text in front of the offset gives. -/
theorem LineIndex.position_eq_plainPosition (cs : List Char) (offset : Nat) :
    (LineIndex.ofText cs).position offset = plainPosition cs offset := by
  obtain ⟨rest, hcs, hup⟩ := upTo_takeBytes offset cs
  have hposition := position_upTo hup
  rw [← hcs] at hposition
  rw [hposition, plainPosition, lastPart, units_reverse]

/-! ### Bounds -/

theorem units_le_bytes (cs : List Char) : units cs ≤ bytes cs := by
  induction cs with
  | nil => exact Nat.le_refl 0
  | cons c cs ih =>
    have hchar : charUnits c ≤ c.utf8Size := by
      have hval : c.toNat = c.val.toNat := rfl
      simp only [charUnits, Char.utf8Size, hval, UInt32.le_iff_toNat_le,
        UInt32.toNat_ofNatLT]
      split_ifs <;> omega
    rw [units_cons, bytes_cons]
    exact Nat.add_le_add hchar ih

theorem length_le_bytes (cs : List Char) : cs.length ≤ bytes cs := by
  induction cs with
  | nil => exact Nat.le_refl 0
  | cons c cs ih =>
    have hpos := c.utf8Size_pos
    rw [List.length_cons, bytes_cons]
    omega

theorem bytes_lastPart_le (cs : List Char) : bytes (lastPart cs) ≤ bytes cs := by
  obtain ⟨above, hcs, -⟩ := exists_lastPart cs
  calc bytes (lastPart cs) ≤ bytes above + bytes (lastPart cs) := Nat.le_add_left _ _
    _ = bytes cs := by rw [← bytes_append, ← hcs]

/-- Neither lines nor columns are counted beyond the size of the text, whatever the offset is. -/
theorem LineIndex.position_le (cs : List Char) (offset : Nat) :
    ((LineIndex.ofText cs).position offset).1 ≤ bytes cs + 1 ∧
      ((LineIndex.ofText cs).position offset).2 ≤ bytes cs + 1 := by
  obtain ⟨rest, hcs, hup⟩ := upTo_takeBytes offset cs
  generalize takeBytes offset cs = front at hcs hup
  have hfront : bytes front ≤ bytes cs := by
    rw [hcs, bytes_append]
    exact Nat.le_add_right _ _
  rw [hcs, position_upTo hup, ← hcs]
  refine ⟨Nat.succ_le_succ ?_, Nat.succ_le_succ ?_⟩
  · exact (List.count_le_length.trans (length_le_bytes front)).trans hfront
  · exact ((units_le_bytes _).trans (bytes_lastPart_le front)).trans hfront

/-! ### Plain counting -/

/-- Byte `k` is the last boundary of characters at or in front of an offset. -/
def IsFloor (s : String) (offset k : Nat) : Prop :=
  IsGreatest {b | b ≤ min offset s.utf8ByteSize ∧ Boundary s b} k

/-- Byte `start` is where the line of byte `k` starts: behind a line feed, or at the start of the
text. -/
def IsLineStart (s : String) (k start : Nat) : Prop :=
  IsGreatest {b | b ≤ k ∧ (b = 0 ∨ (utf8 s)[b - 1]? = some 0x0A)} start

/-- Line and column of an offset by counting: one more than the bytes of line feeds in front of its
character, and one more than the UTF-16 units between the start of the line and its character. -/
def Counted (s : String) (offset : Nat) (place : Nat × Nat) : Prop :=
  ∃ (k start : Nat) (line : String), IsFloor s offset k ∧ IsLineStart s k start ∧
    utf8 line = (utf8 s).extract start k ∧
    place = (1 + ((utf8 s).take k).count 0x0A, 1 + units line.toList)

/-- The characters up to an offset end at the last boundary. -/
theorem UpTo.isFloor {offset : Nat} {front rest : List Char} (h : UpTo 0 offset front rest) :
    IsFloor (String.ofList (front ++ rest)) offset (bytes front) := by
  have hsize : (String.ofList (front ++ rest)).utf8ByteSize = bytes front + bytes rest := by
    rw [utf8ByteSize_ofList, bytes_append]
  refine ⟨⟨?_, ?_⟩, fun b ⟨hle, hb⟩ => ?_⟩
  · have hoffset := h.1
    omega
  · rw [String.ofList_append, ← utf8ByteSize_ofList]
    exact boundary_append _ _
  · cases rest with
    | nil =>
      rw [bytes_nil] at hsize
      omega
    | cons c rest =>
      have hlt := h.2 c rfl
      have hcases := hb.le_or_le
      omega

/-- A line starts where the part of the text behind the last line feed starts. -/
theorem isLineStart_of_append {above line : String} (rest : String)
    (habove : above = "" ∨ ∃ s, above = s ++ "\n") (hline : '\n' ∉ line.toList) :
    IsLineStart (above ++ line ++ rest) (above ++ line).utf8ByteSize above.utf8ByteSize := by
  refine ⟨⟨?_, ?_⟩, fun b ⟨hle, hb⟩ => Nat.not_lt.mp fun hlt => ?_⟩
  · rw [String.utf8ByteSize_append]
    exact Nat.le_add_right _ _
  · rcases habove with rfl | ⟨s, rfl⟩
    · exact Or.inl rfl
    · refine Or.inr ?_
      have hfeed : utf8 "\n" = [0x0A] := rfl
      have hsize : "\n".utf8ByteSize = 1 := rfl
      rw [utf8_append, utf8_append, utf8_append, hfeed, String.utf8ByteSize_append, hsize,
        Nat.add_sub_cancel, ← length_utf8 s]
      simp
  · have hfeed : (utf8 (above ++ line ++ rest))[b - 1]? = some 0x0A := by
      refine hb.resolve_left ?_
      omega
    rw [String.utf8ByteSize_append] at hle
    rw [utf8_append, utf8_append, List.append_assoc, List.getElem?_append_right (by simp; omega),
      List.getElem?_append_left (by simp; omega)] at hfeed
    exact hline (newline_mem_utf8.mp (List.mem_of_getElem? hfeed))

/-- Counting on the characters up to an offset is counting on the bytes. -/
theorem UpTo.counted {offset : Nat} {front rest : List Char} (h : UpTo 0 offset front rest) :
    Counted (String.ofList (front ++ rest)) offset
      (front.count '\n' + 1, units (lastPart front) + 1) := by
  obtain ⟨above, hfront, habove, hline⟩ := exists_lastPart front
  -- The text is cut in three: the lines above, the line up to the offset, and the rest.
  have hparts : String.ofList above ++ String.ofList (lastPart front) = String.ofList front := by
    rw [← String.ofList_append, ← hfront]
  have hs : String.ofList (front ++ rest) =
      String.ofList above ++ String.ofList (lastPart front) ++ String.ofList rest := by
    rw [hparts, String.ofList_append]
  have hsize :
      bytes front = (String.ofList above ++ String.ofList (lastPart front)).utf8ByteSize := by
    rw [hparts, utf8ByteSize_ofList]
  refine ⟨bytes front, (String.ofList above).utf8ByteSize, String.ofList (lastPart front),
    h.isFloor, ?_, ?_, ?_⟩
  · rw [hs, hsize]
    refine isLineStart_of_append _ ?_ (by rwa [String.toList_ofList])
    rcases habove with rfl | ⟨as, rfl⟩
    · exact Or.inl rfl
    · exact Or.inr ⟨String.ofList as, String.ofList_append⟩
  · rw [hs, hsize, extract_utf8]
  · rw [hs, hsize, ← length_utf8, utf8_append _ (String.ofList rest), List.take_left,
      count_newline_utf8, hparts, String.toList_ofList, String.toList_ofList, Nat.add_comm 1,
      Nat.add_comm 1]

/-- **Positions are counted right.** Line and column that the index of a text finds for an offset
are those of the plain definition, and they fit into 32 bits when the text is shorter than that. -/
theorem LineIndex.position_counted {s : String} (hs : s.utf8ByteSize < UInt32.size - 1)
    (offset : Nat) :
    Counted s offset ((LineIndex.ofText s.toList).position offset) ∧
      ((LineIndex.ofText s.toList).position offset).1 < UInt32.size ∧
      ((LineIndex.ofText s.toList).position offset).2 < UInt32.size := by
  obtain ⟨hline, hcolumn⟩ := LineIndex.position_le s.toList offset
  rw [← utf8ByteSize_eq_bytes] at hline hcolumn
  refine ⟨?_, by omega, by omega⟩
  obtain ⟨rest, hcs, hup⟩ := upTo_takeBytes offset s.toList
  have hcounted := hup.counted
  rwa [← LineIndex.position_upTo hup, ← hcs, String.ofList_toList] at hcounted

/-- Two lines, the second longer than the way between two marks, and an offset inside of its last
character. -/
def longLine : String :=
  String.ofList ('a' :: '\n' :: List.replicate 70 'é' ++ ['🙂'])

theorem LineIndex.position_counted_longLine :
    longLine.utf8ByteSize < UInt32.size - 1 ∧
      Counted longLine 144 ((LineIndex.ofText longLine.toList).position 144) ∧
      (LineIndex.ofText longLine.toList).position 144 = (2, 71) := by
  have hsize : longLine.utf8ByteSize < UInt32.size - 1 := by decide +kernel
  exact ⟨hsize, (LineIndex.position_counted hsize 144).1, by decide +kernel⟩

end Stylesheet.Text
