import Mathlib.Data.List.TakeWhile
import Mathlib.Tactic.SplitIfs
import Stylesheet.Input
import Stylesheet.Proofs.Text.Cut
import Stylesheet.Proofs.Text.Position

/-!
# The mark below a line

An error that points into the text of its input shows the line of the place, with up to two lines
on either side of it, and a mark on the line below.

* Of the lines of the excerpt only that of the place has `>` in front, and the mark is on the next
  one (`SyntaxError.Marks`). An error marks the line that it points to
  (`SyntaxError.marks_excerpt`).
* The mark is never too far to the left: what stands in front of it begins with one blank for each
  character in front of the place, with tabs for tabs. It is as wide as the UTF-16 units in front of
  the place, if the line has so many characters. So the mark is below the place if and only if no
  character in front of the place is two units wide (`Input.marks_beneath_iff`,
  `Input.mark_behind_place`).
-/

namespace Stylesheet

open Text

/-! ### The line around a place -/

namespace Text

/-- A line without a carriage return at its end. -/
def chomp (line : List Char) : List Char :=
  if line.getLast? == some '\r' then line.dropLast else line

/-- The line around the place between two parts of a text. -/
def lineAround (front rest : List Char) : List Char :=
  chomp (lastPart front ++ rest.takeWhile (· != '\n'))

theorem not_mem_chomp {c : Char} {line : List Char} (h : c ∉ line) : c ∉ chomp line := by
  rw [chomp]
  split
  · exact fun hc => h (List.mem_of_mem_dropLast hc)
  · exact h

/-- The character behind the place is on the line, unless it ends the line. -/
theorem lineAround_cons (front rest : List Char) {c : Char} (hlf : c ≠ '\n') (hcr : c ≠ '\r') :
    ∃ tail, lineAround front (c :: rest) = lastPart front ++ c :: tail := by
  rw [lineAround, List.takeWhile_cons, if_pos (bne_iff_ne.mpr hlf), chomp]
  generalize rest.takeWhile (· != '\n') = tail
  split
  · rename_i hlast
    cases tail with
    | nil =>
      rw [List.getLast?_concat, beq_iff_eq] at hlast
      exact absurd (Option.some.inj hlast) hcr
    | cons d tail =>
      exact ⟨(d :: tail).dropLast, by
        rw [List.dropLast_append_of_ne_nil (List.cons_ne_nil _ _), List.dropLast_cons_cons]⟩
  · exact ⟨tail, rfl⟩

/-- The line around a place is the one behind as many lines as there are line feeds in front. -/
theorem exists_pieces_lineAround (front rest : List Char) :
    ∃ above below : List (List Char), above.length = front.count '\n' ∧
      (pieces '\n' (front ++ rest)).map chomp = above ++ lineAround front rest :: below := by
  obtain ⟨whole, hfront, hwhole, hline⟩ := exists_lastPart front
  -- The piece that the line is of begins behind the last line feed.
  obtain ⟨ps, hps⟩ := exists_pieces_eq_takeWhile '\n' (lastPart front ++ rest)
  rw [List.takeWhile_append_of_pos fun c hc =>
    bne_iff_ne.mpr (ne_of_mem_of_not_mem hc hline)] at hps
  rcases hwhole with rfl | ⟨as, rfl⟩
  · refine ⟨[], ps.map chomp, ?_, ?_⟩
    · rw [hfront, List.nil_append, List.count_eq_zero.mpr hline, List.length_nil]
    · rw [List.nil_append] at hfront
      rw [lineAround, ← List.map_cons, ← hps, ← hfront, List.nil_append]
  · refine ⟨(pieces '\n' as).map chomp, ps.map chomp, ?_, ?_⟩
    · rw [List.length_map, length_pieces, hfront, List.count_append, List.count_append,
        List.count_eq_zero.mpr hline, List.count_singleton_self, Nat.add_zero]
    · have htext : front ++ rest = as ++ '\n' :: (lastPart front ++ rest) := by
        conv_lhs => rw [hfront]
        simp
      rw [htext, pieces_append, List.map_append, hps, List.map_cons, lineAround]

/-- A text has at least as many units as characters, and no more if none is two units wide. -/
theorem length_le_units (cs : List Char) : cs.length ≤ units cs := by
  induction cs with
  | nil => exact Nat.le_refl 0
  | cons c cs ih =>
    have hpos := charUnits_pos c
    rw [List.length_cons, units_cons]
    omega

theorem units_eq_length_iff {cs : List Char} :
    units cs = cs.length ↔ ∀ c ∈ cs, charUnits c = 1 := by
  induction cs with
  | nil => simp
  | cons c cs ih =>
    have hpos := charUnits_pos c
    have hle := length_le_units cs
    rw [List.forall_mem_cons, ← ih, units_cons, List.length_cons]
    omega

end Text

namespace SyntaxError

/-! ### Lines of the excerpt -/

theorem sourceLines_eq (css : String) :
    sourceLines css = (pieces '\n' css.toList).map chomp := rfl

theorem not_mem_of_mem_sourceLines {css : String} {line : List Char} (h : line ∈ sourceLines css) :
    '\n' ∉ line := by
  rw [sourceLines_eq] at h
  obtain ⟨piece, hpiece, rfl⟩ := List.mem_map.mp h
  exact not_mem_chomp (not_mem_of_mem_pieces hpiece)

theorem newline_not_mem_gutter (width n : Nat) : '\n' ∉ gutter width n := by
  have hdigits : '\n' ∉ Nat.toDigits 10 n := fun h =>
    absurd (Nat.isDigit_of_mem_toDigits (by decide) (by decide) h) (by decide)
  simp [gutter, hdigits]

theorem newline_not_mem_blankGutter (width n : Nat) : '\n' ∉ blankGutter width n := by
  intro h
  obtain ⟨c, hc, heq⟩ := List.mem_map.mp h
  split at heq
  · cases heq
  · exact newline_not_mem_gutter width n (heq ▸ hc)

theorem newline_not_mem_padding (column : Nat) (line : List Char) :
    '\n' ∉ padding column line := by
  intro h
  obtain ⟨c, -, heq⟩ := List.mem_map.mp h
  split at heq <;> cases heq

theorem newline_not_mem_excerptLine {line column width n : Nat} {text shown : List Char}
    (htext : '\n' ∉ text) (h : shown ∈ excerptLine line column width n text) : '\n' ∉ shown := by
  have hgutter := newline_not_mem_gutter width n
  have hblank := newline_not_mem_blankGutter width n
  have hpad := newline_not_mem_padding column text
  rw [excerptLine] at h
  split at h
  · rcases List.mem_pair.mp h with rfl | rfl <;> simp [htext, hgutter, hblank, hpad]
  · rw [List.mem_singleton.mp h]
    simp [htext, hgutter]

section

variable (line column width : Nat)

theorem excerptLines_append (n : Nat) (as bs : List (List Char)) :
    excerptLines line column width n (as ++ bs) =
      excerptLines line column width n as ++
        excerptLines line column width (n + as.length) bs := by
  induction as generalizing n with
  | nil => rfl
  | cons a as ih =>
    rw [List.cons_append, excerptLines, excerptLines, ih, List.append_assoc, List.length_cons,
      Nat.add_right_comm, Nat.add_assoc]

theorem newline_not_mem_excerptLines {n : Nat} {texts : List (List Char)}
    (htexts : ∀ text ∈ texts, '\n' ∉ text) :
    ∀ shown ∈ excerptLines line column width n texts, '\n' ∉ shown := by
  induction texts generalizing n with
  | nil => exact fun _ h => absurd h List.not_mem_nil
  | cons text texts ih =>
    rw [List.forall_mem_cons] at htexts
    rw [excerptLines]
    intro shown h
    rcases List.mem_append.mp h with h | h
    · exact newline_not_mem_excerptLine htexts.1 h
    · exact ih htexts.2 shown h

/-- The line in question is followed by the line with the mark. -/
theorem excerptLines_around {first : Nat} {front : List (List Char)}
    (hfirst : first + front.length = line) (text : List Char) (back : List (List Char)) :
    excerptLines line column width first (front ++ text :: back) =
      excerptLines line column width first front ++ ('>' :: gutter width line ++ text) ::
        (' ' :: blankGutter width line ++ padding column text ++ ['^']) ::
          excerptLines line column width (line + 1) back := by
  rw [excerptLines_append, hfirst, excerptLines, excerptLine, if_pos (beq_self_eq_true _)]
  rfl

/-- Lines with other numbers have a blank in front. -/
theorem head?_of_mem_excerptLines {n : Nat} {texts : List (List Char)}
    (hother : line < n ∨ n + texts.length ≤ line) :
    ∀ shown ∈ excerptLines line column width n texts, shown.head? = some ' ' := by
  induction texts generalizing n with
  | nil => exact fun _ h => absurd h List.not_mem_nil
  | cons text texts ih =>
    rw [List.length_cons] at hother
    have hne : n ≠ line := by omega
    rw [excerptLines, excerptLine, if_neg (by simpa using hne)]
    intro shown h
    rcases List.mem_append.mp h with h | h
    · rw [List.mem_singleton.mp h]
      rfl
    · exact ih (by omega) shown h

end

/-- The window of lines around the line behind `above`: at most two lines in front of it and some of
the lines behind it. -/
theorem exists_window {above : List (List Char)} {last : Nat} (hlast : above.length < last)
    (line : List Char) (below : List (List Char)) :
    ∃ front back, above.length - 2 + front.length = above.length ∧
      ((above ++ line :: below).take last).drop (min (above.length - 2) last) =
        front ++ line :: back := by
  obtain ⟨k, hk⟩ : ∃ k, last - above.length = k + 1 := ⟨last - above.length - 1, by omega⟩
  refine ⟨above.drop (above.length - 2), below.take k, ?_, ?_⟩
  · rw [List.length_drop]
    omega
  · rw [Nat.min_eq_left (by omega), List.take_append, List.take_of_length_le (by omega), hk,
      List.take_succ_cons, List.drop_append_of_le_length (by omega)]

/-- In the excerpt, line `n` is the only one with `>` in front, and `pad` is what stands behind the
gutter in front of the mark on the line below. -/
def Marks (e : SyntaxError) (n : Nat) (line pad : List Char) : Prop :=
  ∃ (width : Nat) (above below : List (List Char)),
    pieces '\n' e.excerpt.toList =
        above ++ ('>' :: gutter width n ++ line) ::
          (' ' :: blankGutter width n ++ pad ++ ['^']) :: below ∧
      ∀ shown ∈ above ++ below, shown.head? = some ' '

/-- The excerpt says where the mark is. -/
theorem Marks.unique {e : SyntaxError} {n : Nat} {line pad pad' : List Char}
    (h : e.Marks n line pad) (h' : e.Marks n line pad') : pad = pad' := by
  obtain ⟨width, above, below, hlines, hblank⟩ := h
  obtain ⟨width', above', below', hlines', hblank'⟩ := h'
  -- The lines with a blank in front end where the marked line stands.
  have hfront : ∀ {front rest : List (List Char)} {marked : List Char},
      (∀ shown ∈ front, shown.head? = some ' ') →
      (front ++ ('>' :: marked) :: rest).takeWhile (·.head? == some ' ') = front := by
    intro front rest marked hfront
    rw [List.takeWhile_append_of_pos fun shown h => beq_iff_eq.mpr (hfront shown h)]
    exact List.append_nil _
  have habove : above = above' := by
    rw [← hfront fun shown h => hblank shown (List.mem_append_left _ h),
      ← hfront fun shown h => hblank' shown (List.mem_append_left _ h)]
    exact congrArg _ (hlines.symm.trans hlines')
  rw [hlines, habove, List.append_cancel_left_eq, List.cons.injEq, List.cons.injEq] at hlines'
  obtain ⟨hmarked, hmark, -⟩ := hlines'
  have hgutter : gutter width n = gutter width' n :=
    (List.cons.inj (List.append_cancel_right hmarked)).2
  rw [blankGutter, hgutter] at hmark
  exact List.append_cancel_left (List.append_cancel_right hmark)

/-- An error that points to a line of its text marks that line. -/
theorem marks_excerpt {e : SyntaxError} {css : String} {line : List Char}
    {above below : List (List Char)} (hcss : e.css = some css)
    (hline : e.line = some (above.length + 1))
    (hlines : sourceLines css = above ++ line :: below) :
    e.Marks (above.length + 1) line (padding (e.column.getD 1) line) := by
  obtain ⟨last, hlast⟩ : ∃ last, last = min (above.length + 1 + 2) (sourceLines css).length :=
    ⟨_, rfl⟩
  have hlength : (sourceLines css).length = above.length + (below.length + 1) := by
    rw [hlines, List.length_append, List.length_cons]
  obtain ⟨front, back, hnumber, hshown⟩ :=
    exists_window (show above.length < last by omega) line below
  have htext : e.excerpt.toList = ['\n'].intercalate
      (excerptLines (above.length + 1) (e.column.getD 1) (Decimal.width last)
        (above.length - 2 + 1) (front ++ line :: back)) := by
    rw [← hshown, ← hlines, excerpt, hcss, hline]
    simp [String.toList_intercalate, Function.comp_def, hlast]
  have hclean : ∀ text ∈ front ++ line :: back, '\n' ∉ text := by
    intro text h
    rw [← hshown, ← hlines] at h
    exact not_mem_of_mem_sourceLines (List.mem_of_mem_take (List.mem_of_mem_drop h))
  have hfirst : above.length - 2 + 1 + front.length = above.length + 1 := by omega
  rw [excerptLines_around _ _ _ hfirst] at htext
  have hmarked := newline_not_mem_excerptLines (above.length + 1) (e.column.getD 1)
    (Decimal.width last) (n := above.length - 2 + 1) hclean
  rw [excerptLines_around _ _ _ hfirst] at hmarked
  refine ⟨_, _, _, htext ▸ pieces_intercalate (by simp) hmarked, fun shown h => ?_⟩
  rcases List.mem_append.mp h with h | h
  · exact head?_of_mem_excerptLines _ _ _ (Or.inr hfirst.le) shown h
  · exact head?_of_mem_excerptLines _ _ _ (Or.inl (Nat.lt_succ_self _)) shown h

/-! ### What stands in front of the mark -/

/-- What is to stand below a part of a line: tabs below its tabs, and else blanks. -/
def beneath (front : List Char) : List Char :=
  front.map fun c => if c == '\t' then '\t' else ' '

theorem length_padding (column : Nat) (line : List Char) :
    (padding column line).length = min (column - 1) line.length := by
  rw [padding, List.length_map, List.length_take]

/-- With the column behind the units of a part of the line, the mark is behind that part, or further
to the right. -/
theorem padding_units (front rest : List Char) :
    padding (units front + 1) (front ++ rest) =
      beneath front ++ beneath (rest.take (units front - front.length)) := by
  rw [padding, Nat.add_sub_cancel, List.take_append,
    List.take_of_length_le (length_le_units front), List.map_append]
  rfl

theorem padding_units_eq_beneath_iff (front : List Char) {rest : List Char} (hrest : rest ≠ []) :
    padding (units front + 1) (front ++ rest) = beneath front ↔ ∀ c ∈ front, charUnits c = 1 := by
  have hle := length_le_units front
  rw [padding_units, List.append_right_eq_self, beneath, List.map_eq_nil_iff, List.take_eq_nil_iff,
    or_iff_left hrest, ← units_eq_length_iff]
  omega

end SyntaxError

namespace Input

theorem marks_errorAt (k : Packages) {css : String} {front rest : List Char}
    (hcss : css.toList = front ++ rest) (hasBom : Bool) (file id : Option String) (reason : String)
    (stop : Option Nat) :
    ((assemble css hasBom file id none).errorAt k reason (bytes front) stop).Marks
      (front.count '\n' + 1) (lineAround front rest)
      (SyntaxError.padding (units (lastPart front) + 1) (lineAround front rest)) := by
  obtain ⟨above, below, habove, hlines⟩ := exists_pieces_lineAround front rest
  have hplace : (assemble css hasBom file id none).place (bytes front) =
      (front.count '\n' + 1, units (lastPart front) + 1) := by
    rw [place, assemble, hcss]
    exact LineIndex.position_front front rest
  rw [errorAt, hplace, ← habove]
  exact SyntaxError.marks_excerpt (show _ = some css from rfl) rfl
    (by rw [SyntaxError.sourceLines_eq, hcss, hlines])

/-- **The mark is below the place, if units are characters.** For every character of a text that
does not end a line, the error at its offset marks the line around it. The mark is below the
character if and only if no character in front of it on the line is two units wide. It is never too
far to the left: what stands in front of it begins with what is to stand there, and is as wide as
the units in front of the character, if the line has so many characters. -/
theorem marks_beneath_iff (k : Packages) {css : String} {front rest : List Char} {c : Char}
    (hcss : css.toList = front ++ c :: rest) (hlf : c ≠ '\n') (hcr : c ≠ '\r') (hasBom : Bool)
    (file id : Option String) (reason : String) (stop : Option Nat) :
    let e := (assemble css hasBom file id none).errorAt k reason (bytes front) stop
    let number := front.count '\n' + 1
    let line := lineAround front (c :: rest)
    (e.Marks number line (SyntaxError.beneath (lastPart front)) ↔
        ∀ d ∈ lastPart front, charUnits d = 1) ∧
      ∃ pad, e.Marks number line pad ∧ SyntaxError.beneath (lastPart front) <+: pad ∧
        pad.length = min (units (lastPart front)) line.length := by
  intro e number line
  have hmarks : e.Marks number line _ := marks_errorAt k hcss hasBom file id reason stop
  obtain ⟨tail, htail⟩ : ∃ tail, line = lastPart front ++ c :: tail :=
    lineAround_cons front rest hlf hcr
  refine ⟨?_, _, hmarks, ?_, SyntaxError.length_padding _ _⟩
  · rw [← SyntaxError.padding_units_eq_beneath_iff _ (List.cons_ne_nil c tail), ← htail]
    exact ⟨hmarks.unique, fun h => h ▸ hmarks⟩
  · change _ <+: SyntaxError.padding _ line
    rw [htail, SyntaxError.padding_units]
    exact List.prefix_append _ _

/-- A tab and a character of two bytes in front of the place, on a line that ends with a carriage
return. -/
theorem marks_beneath_tab :
    "a\r\n\té: \"\r\n;".toList = "a\r\n\té: ".toList ++ '"' :: "\r\n;".toList ∧
      '"' ≠ '\n' ∧ '"' ≠ '\r' ∧
      ((assemble "a\r\n\té: \"\r\n;" false none none none).errorAt .standard "Unclosed string"
        (bytes "a\r\n\té: ".toList) none).Marks 2 "\té: \"".toList "\t   ".toList := by
  have hcss : "a\r\n\té: \"\r\n;".toList = "a\r\n\té: ".toList ++ '"' :: "\r\n;".toList := by
    decide +kernel
  have hline : lineAround "a\r\n\té: ".toList ('"' :: "\r\n;".toList) = "\té: \"".toList := by
    decide +kernel
  have hbeneath : SyntaxError.beneath (lastPart "a\r\n\té: ".toList) = "\t   ".toList := by
    decide +kernel
  have hmarks := (marks_beneath_iff .standard hcss (by decide) (by decide) false none none
    "Unclosed string" none).1.mpr (units_eq_length_iff.mp (by decide +kernel))
  rw [hline, hbeneath] at hmarks
  exact ⟨hcss, by decide, by decide, hmarks⟩

/-- Behind a character of two units the mark is too far to the right. -/
theorem mark_behind_place :
    ((assemble "😀\"" false none none none).errorAt .standard "Unclosed string" 4 none).excerpt =
        "> 1 | 😀\"\n    |   ^" ∧
      ¬ ((assemble "😀\"" false none none none).errorAt .standard "Unclosed string" 4 none).Marks 1
        (lineAround ['😀'] ['"']) (SyntaxError.beneath ['😀']) := by
  refine ⟨by decide +kernel, fun h => ?_⟩
  have hcss : "😀\"".toList = ['😀'] ++ ['"'] := by decide
  have hmarks := marks_errorAt .standard hcss false none none "Unclosed string" none
  exact absurd (h.unique hmarks) (by decide)

end Input

end Stylesheet
