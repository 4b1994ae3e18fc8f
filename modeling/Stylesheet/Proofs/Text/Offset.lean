import Mathlib.Order.Bounds.Basic
import Stylesheet.Proofs.Text.Boundary
import Stylesheet.Proofs.Text.Position

/-!
# Offsets of positions

The way back from a line and a column to an offset: the line is looked up by its number, and the
offset is read on from a mark on the line while characters end at or in front of the column
(`Line.offset_upToColumn`). What is reached is the last place of the line that is not behind the
column; the places of a line are where its characters start and where it ends (`OnLine`). So an
offset is found again from its position, and any other line and column mean the place in front of
them (`LineIndex.offset?_inverse`).
-/

namespace Stylesheet.Text

/-! ### Places on a line -/

/-- What stands in front of a line: nothing, or lines with their line feeds. -/
def WholeLines (above : List Char) : Prop :=
  above = [] ∨ ∃ as, above = as ++ ['\n']

/-- At byte `offset` in the given column, from 1, a character of the given line, from 1, starts or
the line ends. -/
def OnLine (s : String) (line column offset : Nat) : Prop :=
  ∃ above front rest : List Char, s.toList = above ++ front ++ rest ∧ WholeLines above ∧
    '\n' ∉ front ∧ line = above.count '\n' + 1 ∧ column = units front + 1 ∧
    offset = bytes (above ++ front)

/-- Lines of one number start at one place. -/
theorem WholeLines.eq_of_append {above above' rest rest' : List Char} (h : WholeLines above)
    (h' : WholeLines above') (hcs : above ++ rest = above' ++ rest')
    (hcount : above.count '\n' = above'.count '\n') : above = above' := by
  -- The longer part goes on without a line feed, but ends with one.
  have hshort : ∀ {as mid : List Char}, WholeLines (as ++ mid) →
      (as ++ mid).count '\n' = as.count '\n' → mid = [] := by
    intro as mid hlines hsame
    rw [List.count_append, Nat.add_eq_left, List.count_eq_zero] at hsame
    by_contra hne
    rcases hlines with hnil | ⟨bs, hbs⟩
    · exact hne (List.append_eq_nil_iff.mp hnil).2
    · have hlast := congrArg List.getLast? hbs
      rw [List.getLast?_append_of_ne_nil _ hne, List.getLast?_concat] at hlast
      exact hsame (List.mem_of_getLast? hlast)
  rcases List.append_eq_append_iff.mp hcs with ⟨mid, rfl, -⟩ | ⟨mid, rfl, -⟩
  · rw [hshort h' hcount.symm, List.append_nil]
  · rw [hshort h hcount, List.append_nil]

theorem WholeLines.lastPart_append {above front : List Char} (h : WholeLines above)
    (hfront : '\n' ∉ front) : lastPart (above ++ front) = front := by
  rw [lastPart_append_of_not_mem _ hfront]
  rcases h with rfl | ⟨as, rfl⟩
  · rfl
  · rw [lastPart_newline]
    rfl

/-- The index finds the line and the column of a place on a line. -/
theorem OnLine.position_eq {s : String} {line column offset : Nat}
    (h : OnLine s line column offset) :
    (LineIndex.ofText s.toList).position offset = (line, column) := by
  obtain ⟨above, front, rest, hcs, habove, hfront, rfl, rfl, rfl⟩ := h
  rw [hcs, LineIndex.position_front, habove.lastPart_append hfront, List.count_append,
    List.count_eq_zero.mpr hfront, Nat.add_zero]

theorem OnLine.boundary {s : String} {line column offset : Nat}
    (h : OnLine s line column offset) : Boundary s offset := by
  obtain ⟨above, front, rest, hcs, -, -, -, -, rfl⟩ := h
  rw [← String.ofList_toList (s := s), hcs, String.ofList_append, ← utf8ByteSize_ofList]
  exact boundary_append _ _

/-- Every boundary is a place on a line. -/
theorem Boundary.onLine {s : String} {offset : Nat} (h : Boundary s offset) :
    OnLine s ((LineIndex.ofText s.toList).position offset).1
      ((LineIndex.ofText s.toList).position offset).2 offset := by
  obtain ⟨front, rest, rfl, rfl⟩ := boundary_iff.mp h
  obtain ⟨above, hfront, habove, hline⟩ := exists_lastPart front.toList
  have hcount : front.toList.count '\n' = above.count '\n' := by
    rw [hfront, List.count_append, List.count_eq_zero.mpr hline, Nat.add_zero]
  rw [String.toList_append, utf8ByteSize_eq_bytes, LineIndex.position_front, hcount]
  refine ⟨above, lastPart front.toList, rest.toList, ?_, habove, hline, rfl, rfl, ?_⟩
  · rw [← hfront, String.toList_append]
  · rw [← hfront]

theorem units_eq_zero {cs : List Char} (h : units cs = 0) : cs = [] := by
  cases cs with
  | nil => rfl
  | cons c cs =>
    have hpos := charUnits_pos c
    rw [units_cons] at h
    omega

/-- A line has one place in a column. -/
theorem OnLine.offset_unique {s : String} {line column offset offset' : Nat}
    (h : OnLine s line column offset) (h' : OnLine s line column offset') : offset = offset' := by
  obtain ⟨above, front, rest, hcs, habove, -, rfl, rfl, rfl⟩ := h
  obtain ⟨above', front', rest', hcs', habove', -, hline, hcolumn, rfl⟩ := h'
  rw [hcs, List.append_assoc, List.append_assoc] at hcs'
  obtain rfl := habove.eq_of_append habove' hcs' (Nat.succ.inj hline)
  have hfronts := List.append_cancel_left hcs'
  have hsame : units front = units front' := Nat.succ.inj hcolumn
  rcases List.append_eq_append_iff.mp hfronts with ⟨mid, rfl, -⟩ | ⟨mid, rfl, -⟩ <;>
    rw [units_append] at hsame <;>
    rw [units_eq_zero (show units mid = 0 by omega), List.append_nil]

/-! ### Lines by their numbers -/

theorem length_linesFrom (start : Nat) (cs : List Char) :
    (linesFrom start cs).length = cs.count '\n' := by
  induction cs generalizing start with
  | nil => rfl
  | cons c cs ih =>
    rw [linesFrom, List.count_cons]
    split_ifs
    · rw [List.length_cons, ih]
    · rw [ih, Nat.add_zero]

/-- There is one line more than line feeds. -/
theorem LineIndex.lineCount_ofText (cs : List Char) :
    (LineIndex.ofText cs).lineCount = cs.count '\n' + 1 :=
  congrArg (· + 1) (length_linesFrom 0 cs)

/-- The line of a number stands behind as many whole lines. -/
theorem exists_wholeLines {start n : Nat} {cs : List Char} {line : Line}
    (h : (Line.ofText start cs :: linesFrom start cs)[n]? = some line) :
    ∃ above rest, cs = above ++ rest ∧ WholeLines above ∧ above.count '\n' = n ∧
      line = Line.ofText (start + bytes above) rest := by
  -- By induction on the text; a line break begins the next line of the index.
  induction cs generalizing start n with
  | nil =>
    cases n with
    | zero => exact ⟨[], [], rfl, Or.inl rfl, rfl, (Option.some.inj h).symm⟩
    | succ n => cases h
  | cons c cs ih =>
    cases n with
    | zero => exact ⟨[], c :: cs, rfl, Or.inl rfl, rfl, (Option.some.inj h).symm⟩
    | succ n =>
      rw [List.getElem?_cons_succ, linesFrom] at h
      split_ifs at h with hc
      · obtain rfl := beq_iff_eq.mp hc
        obtain ⟨above, rest, rfl, habove, hcount, hline⟩ := ih h
        refine ⟨'\n' :: above, rest, rfl, Or.inr ?_, ?_, ?_⟩
        · rcases habove with rfl | ⟨as, rfl⟩
          · exact ⟨[], rfl⟩
          · exact ⟨'\n' :: as, rfl⟩
        · rw [List.count_cons_self, hcount]
        · rw [hline, bytes_cons, Nat.add_assoc]
      · have hnext : (Line.ofText (start + c.utf8Size) cs ::
            linesFrom (start + c.utf8Size) cs)[n + 1]? = some line := h
        obtain ⟨above, rest, rfl, habove, hcount, hline⟩ := ih hnext
        refine ⟨c :: above, rest, rfl, Or.inr ?_, ?_, ?_⟩
        · rcases habove with rfl | ⟨as, rfl⟩
          · cases hcount
          · exact ⟨c :: as, rfl⟩
        · rw [List.count_cons_of_ne (mt beq_iff_eq.mpr hc), hcount]
        · rw [hline, bytes_cons, Nat.add_assoc]

/-! ### Up to a column -/

/-- The characters of `front` are those of a line that end at or in front of a column, from 0, when
`rest` is what follows on the line. -/
def UpToColumn (target : Nat) (front rest : List Char) : Prop :=
  units front ≤ target ∧ ∀ c ∈ rest.head?, target < units front + charUnits c

theorem takeBytes_append (as bs : List Char) : takeBytes (bytes as) (as ++ bs) = as := by
  induction as with
  | nil =>
    cases bs with
    | nil => rfl
    | cons b bs => exact if_pos b.utf8Size_pos
  | cons a as ih =>
    rw [List.cons_append, takeBytes, bytes_cons, if_neg (by omega), Nat.add_sub_cancel_left, ih]

/-- Reading on from behind `front` stops at the last character that ends in front of the column. -/
theorem offsetFrom_upToColumn (base : Nat) {target : Nat} {front : List Char}
    (h : units front ≤ target) (cs : List Char) :
    ∃ as bs, cs = as ++ bs ∧ UpToColumn target (front ++ as) bs ∧
      offsetFrom target (units front) (base + bytes front) cs = base + bytes (front ++ as) := by
  induction cs generalizing front with
  | nil =>
    refine ⟨[], [], rfl, ⟨?_, nofun⟩, ?_⟩
    · rwa [List.append_nil]
    · rw [List.append_nil, offsetFrom]
  | cons c cs ih =>
    rw [offsetFrom]
    -- The column lies in front of the end of this character, so the scan stops before it.
    split_ifs with hlt
    · refine ⟨[], c :: cs, rfl, ?_, ?_⟩
      · rw [List.append_nil]
        refine ⟨h, fun d hd => ?_⟩
        cases hd
        exact hlt
      · rw [List.append_nil]
    · have hunits : units (front ++ [c]) = units front + charUnits c := units_append front [c]
      have hbytes : bytes (front ++ [c]) = bytes front + c.utf8Size := bytes_append front [c]
      have hnext : units (front ++ [c]) ≤ target := by omega
      obtain ⟨as, bs, rfl, hup, hoffset⟩ := ih hnext
      rw [List.append_assoc, List.singleton_append] at hup hoffset
      refine ⟨c :: as, bs, rfl, hup, ?_⟩
      rw [← hoffset, hunits, hbytes, Nat.add_assoc]

/-! ### Marks by their columns -/

theorem offset_le_of_mem_marksFrom {offset column left : Nat} {cs : List Char} {m : Mark}
    (h : m ∈ marksFrom offset column left cs) :
    m.offset ≤ offset + bytes (cs.takeWhile (· != '\n')) := by
  induction cs generalizing offset column left with
  | nil => cases h
  | cons c cs ih =>
    rw [marksFrom] at h
    -- No mark lies behind the line break.
    by_cases hc : c = '\n'
    · rw [if_pos (beq_iff_eq.mpr hc)] at h
      cases h
    · rw [if_neg (mt beq_iff_eq.mp hc)] at h
      rw [List.takeWhile_cons_of_pos (p := (· != '\n')) (bne_iff_ne.mpr hc), bytes_cons,
        ← Nat.add_assoc]
      dsimp only at h
      split_ifs at h
      · rcases List.mem_cons.mp h with rfl | h
        · exact Nat.le_add_right _ _
        · exact ih h
      · exact ih h

/-- No mark of a line is behind its end. -/
theorem Line.offset_le_of_mem_marks {base : Nat} {text : List Char} {m : Mark}
    (h : m ∈ (Line.ofText base text).marks) : m.offset ≤ (Line.ofText base text).stop := by
  rcases List.mem_cons.mp (List.mem_toArray.mp h) with rfl | h
  · exact Nat.le_add_right _ _
  · exact offset_le_of_mem_marksFrom h

/-- The mark that the search finds is not behind the column. -/
theorem Line.markAtColumn_le (base target : Nat) (text : List Char) :
    ((Line.ofText base text).markAtColumn target).column ≤ target := by
  have hturns : Turns (fun m => compare m.column target) (Line.ofText base text).marks _ :=
    lastNotAbove_turns (Line.ofText base text).marked (Nat.compare_ne_gt.mpr (Nat.zero_le _))
  exact Nat.compare_ne_gt.mp ((forall_mem_getElem? (Fin.isLt _)).mp hturns.1)

/-- From the mark that the search finds, reading on leads to the last place on the line that is not
behind the column. -/
theorem Line.offset_upToColumn (base target : Nat) (text : List Char) :
    let line := Line.ofText base text
    let mark := line.markAtColumn target
    ∃ as bs, text.takeWhile (· != '\n') = as ++ bs ∧ UpToColumn target as bs ∧
      offsetFrom target mark.column mark.offset (takeBytes (line.stop - mark.offset) mark.rest) =
        base + bytes as := by
  intro line mark
  have hmem : mark ∈ line.marks := Array.getElem_mem _
  obtain ⟨front, htext, hoffset, hcolumn⟩ := on_of_mem_marks hmem
  have hle : mark.column ≤ target := Line.markAtColumn_le base target text
  have hstop : mark.offset ≤ base + bytes (text.takeWhile (· != '\n')) :=
    Line.offset_le_of_mem_marks hmem
  -- The mark stands on the line, so that it divides the line.
  obtain ⟨mid, hline, hrest⟩ : ∃ mid, text.takeWhile (· != '\n') = front ++ mid ∧
      mark.rest = mid ++ text.dropWhile (· != '\n') := by
    have hcut : text.takeWhile (· != '\n') ++ text.dropWhile (· != '\n') = front ++ mark.rest := by
      rw [List.takeWhile_append_dropWhile]
      exact htext
    rcases List.append_eq_append_iff.mp hcut with ⟨mid, hfront, hdrop⟩ | ⟨mid, hline, hrest⟩
    · rw [hoffset, hfront, bytes_append] at hstop
      obtain rfl := eq_nil_of_bytes_eq_zero (show bytes mid = 0 by omega)
      exact ⟨[], by rw [hfront, List.append_nil, List.append_nil], hdrop.symm⟩
    · exact ⟨mid, hline, hrest⟩
  have hleft : line.stop - mark.offset = bytes mid := by
    have hend : line.stop = base + bytes (text.takeWhile (· != '\n')) := rfl
    rw [hend, hline, bytes_append, hoffset, ← Nat.add_assoc, Nat.add_sub_cancel_left]
  rw [hcolumn] at hle
  obtain ⟨as, bs, rfl, hup, hread⟩ := offsetFrom_upToColumn base hle mid
  refine ⟨front ++ as, bs, ?_, hup, ?_⟩
  · rw [hline, List.append_assoc]
  · rw [hleft, hrest, takeBytes_append, hcolumn, hoffset, hread]

/-! ### The last place in front of a column -/

/-- No place of the line is between the characters up to a column and the column. -/
theorem UpToColumn.le {target : Nat} {as bs tail front rest : List Char}
    (h : UpToColumn target as bs) (hfront : '\n' ∉ front)
    (htail : ∀ c ∈ tail.head?, c = '\n') (hcs : as ++ (bs ++ tail) = front ++ rest)
    (hle : units front ≤ target) :
    units front ≤ units as := by
  -- Two fronts of one line: one of them is the longer, and if it is not ours, the scan has stopped
  -- early.
  rcases List.append_eq_append_iff.mp hcs with ⟨mid, rfl, hrest⟩ | ⟨mid, rfl, -⟩
  · cases mid with
    | nil => rw [List.append_nil]
    | cons c mid =>
      rw [units_append, units_cons] at hle
      cases bs with
      | nil =>
        have hc : c = '\n' := htail c (by rw [← List.nil_append tail, hrest]; rfl)
        rw [hc] at hfront
        exact absurd (List.mem_append_right _ List.mem_cons_self) hfront
      | cons b bs =>
        obtain ⟨rfl, -⟩ := List.cons.inj hrest
        have hlt := h.2 b rfl
        omega
  · rw [units_append]
    exact Nat.le_add_right _ _

theorem LineIndex.offset?_eq_none_iff (cs : List Char) (line column : Nat) :
    (LineIndex.ofText cs).offset? line column = none ↔
      line = 0 ∨ (LineIndex.ofText cs).lineCount < line := by
  cases line with
  | zero => exact ⟨fun _ => Or.inl rfl, fun _ => rfl⟩
  | succ n =>
    rw [offset?, Option.map_eq_none_iff, Array.getElem?_eq_none_iff, lineCount, Nat.lt_succ_iff]
    exact ⟨Or.inr, fun h => h.resolve_left (Nat.succ_ne_zero n)⟩

/-- A line and a column mean the last place of the line that is not behind the column. -/
theorem LineIndex.onLine_of_offset? {s : String} {line column offset : Nat}
    (h : (LineIndex.ofText s.toList).offset? line column = some offset) :
    ∃ c, OnLine s line c offset ∧ IsGreatest {c | c ≤ max column 1 ∧ ∃ k, OnLine s line c k} c := by
  cases line with
  | zero => cases h
  | succ n =>
    obtain ⟨l, hl, hoffset⟩ := Option.map_eq_some_iff.mp h
    rw [← Array.getElem?_toList] at hl
    obtain ⟨above, text, hcs, habove, rfl, rfl⟩ := exists_wholeLines hl
    obtain ⟨as, bs, hline, hup, hread⟩ :=
      Line.offset_upToColumn (0 + bytes above) (column - 1) text
    have htext : text = as ++ (bs ++ text.dropWhile (· != '\n')) := by
      rw [← List.append_assoc, ← hline, List.takeWhile_append_dropWhile]
    have hnewline : '\n' ∉ as := by
      intro hmem
      have hbne := List.mem_takeWhile_imp (hline ▸ List.mem_append_left bs hmem)
      exact absurd hbne (by decide)
    have hplace : OnLine s (above.count '\n' + 1) (units as + 1) offset := by
      refine ⟨above, as, bs ++ text.dropWhile (· != '\n'), ?_, habove, hnewline, rfl, rfl, ?_⟩
      · rw [hcs, List.append_assoc, ← htext]
      · rw [← hoffset, bytes_append]
        exact hread.trans (by rw [Nat.zero_add])
    refine ⟨units as + 1, hplace, ⟨?_, offset, hplace⟩, ?_⟩
    · have hle := hup.1
      omega
    -- Any other place on this line has the same lines above it, so the fronts can be compared.
    · rintro c ⟨hle, k, above', front, rest, hcs', habove', hfront, hnumber, rfl, -⟩
      rw [hcs, List.append_assoc] at hcs'
      obtain rfl := habove.eq_of_append habove' hcs' (Nat.succ.inj hnumber)
      have hsame := List.append_cancel_left hcs'
      rw [htext] at hsame
      refine Nat.succ_le_succ (hup.le hfront (fun d hd => ?_) hsame (by omega))
      have hstops := List.head?_dropWhile_not (· != '\n') text
      rw [show (text.dropWhile (· != '\n')).head? = some d from hd] at hstops
      simpa using hstops

/-- **Offsets and positions are inverse.** An offset at which a character starts, or the text ends,
is found again from its position, which fits into 32 bits when the text is shorter than that. For
any line and column there is no offset just when the text has no such line. Otherwise the offset is
that of a place on the line, at its end at most, and the column there is the greatest one on the
line that is not behind the column asked for. -/
theorem LineIndex.offset?_inverse {s : String} (hs : s.utf8ByteSize < UInt32.size - 1) :
    (∀ offset, Boundary s offset →
      ((LineIndex.ofText s.toList).position offset).1 < UInt32.size ∧
      ((LineIndex.ofText s.toList).position offset).2 < UInt32.size ∧
      (LineIndex.ofText s.toList).offset? ((LineIndex.ofText s.toList).position offset).1
        ((LineIndex.ofText s.toList).position offset).2 = some offset) ∧
    ∀ line column,
      ((LineIndex.ofText s.toList).offset? line column = none ↔
        line = 0 ∨ (LineIndex.ofText s.toList).lineCount < line) ∧
      ∀ offset, (LineIndex.ofText s.toList).offset? line column = some offset →
        Boundary s offset ∧ ∃ c, OnLine s line c offset ∧
          (LineIndex.ofText s.toList).position offset = (line, c) ∧
          IsGreatest {c | c ≤ max column 1 ∧ ∃ k, OnLine s line c k} c := by
  refine ⟨fun offset hboundary => ?_, fun line column => ⟨?_, fun offset h => ?_⟩⟩
  · obtain ⟨hline, hcolumn⟩ := LineIndex.position_le s.toList offset
    rw [← utf8ByteSize_eq_bytes] at hline hcolumn
    have hplace := hboundary.onLine
    generalize (LineIndex.ofText s.toList).position offset = place at hline hcolumn hplace ⊢
    refine ⟨by omega, by omega, ?_⟩
    cases hfound : (LineIndex.ofText s.toList).offset? place.1 place.2 with
    | none =>
      -- The offset stands on a line that the text has.
      obtain ⟨above, front, rest, hcs, -, -, hnumber, -, -⟩ := hplace
      rw [LineIndex.offset?_eq_none_iff, LineIndex.lineCount_ofText, hcs, List.count_append,
        List.count_append] at hfound
      omega
    | some found =>
      obtain ⟨c, hon, ⟨hle, -⟩, hgreatest⟩ := LineIndex.onLine_of_offset? hfound
      have hpositive : 1 ≤ place.2 := by
        obtain ⟨above, front, rest, -, -, -, -, hunits, -⟩ := hplace
        omega
      have hge : place.2 ≤ c := hgreatest ⟨Nat.le_max_left _ _, offset, hplace⟩
      obtain rfl : c = place.2 := by omega
      rw [hon.offset_unique hplace]
  · exact LineIndex.offset?_eq_none_iff _ line column
  · obtain ⟨c, hon, hgreatest⟩ := LineIndex.onLine_of_offset? h
    exact ⟨hon.boundary, c, hon, hon.position_eq, hgreatest⟩

/-- Two lines. On the second one, column 3 is inside of a character of two units, which starts in
column 2, and column 9 is behind the end. -/
theorem LineIndex.offset?_inverse_pair :
    "a\né🙂b".utf8ByteSize < UInt32.size - 1 ∧
      (LineIndex.ofText "a\né🙂b".toList).offset? 2 3 = some 4 ∧
      (LineIndex.ofText "a\né🙂b".toList).offset? 2 9 = some 9 ∧
      (LineIndex.ofText "a\né🙂b".toList).position 4 = (2, 2) ∧
      (LineIndex.ofText "a\né🙂b".toList).offset? 2 2 = some 4 := by
  have hsize : "a\né🙂b".utf8ByteSize < UInt32.size - 1 := by decide +kernel
  have hposition : (LineIndex.ofText "a\né🙂b".toList).position 4 = (2, 2) := by decide +kernel
  have hback := ((LineIndex.offset?_inverse hsize).1 4 (by decide +kernel)).2.2
  rw [hposition] at hback
  exact ⟨hsize, by decide +kernel, by decide +kernel, hposition, hback⟩

end Stylesheet.Text
