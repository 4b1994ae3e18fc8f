import Mathlib.Data.List.TakeWhile
import Stylesheet.Proofs.Text.Parts

/-!
# The pieces of a list

A separator divides a text where what stands in front of it is well nested (`Divides`): it is not
quoted then, not in parentheses and not escaped. What stands between these places are the pieces of
the text (`listPieces`), and the scan of `split` finds the same places (`Scan.separates_iff`).

* `filter_flatten_split`: nothing but what divides the text and blanks gets lost, is doubled or
  changes its place.
* `inner_splitFrom`: pieces without a character are dropped, and the others are trimmed. So a part
  is empty where a piece has blanks only, which takes a blank that is no separator
  (`part_ne_empty_iff`).
-/

namespace Stylesheet.Text

/-! ### Places that divide -/

/-- The state of the scan behind some characters. -/
def scan (front : List Char) : Scan :=
  front.foldl Scan.step {}

theorem scan_concat (front : List Char) (c : Char) : scan (front ++ [c]) = (scan front).step c := by
  rw [scan, List.foldl_append]
  rfl

/-- Without separators, characters are read whatever they are. -/
theorem Scan.passes_nil_iff {s s' : Scan} {cs : List Char} :
    s.Passes [] cs s' ↔ cs.foldl step s = s' := by
  induction cs generalizing s with
  | nil => exact Iff.rfl
  | cons c cs ih =>
    have hnone : s.separates [] c = false := Bool.and_false _
    rw [Passes, ih, List.foldl_cons]
    exact and_iff_right hnone

theorem wellNested_nil_iff {front : List Char} : WellNested [] front ↔ scan front = {} := by
  rw [wellNested_iff_passes List.not_mem_nil, Scan.passes_nil_iff]
  rfl

instance (front : List Char) : Decidable (WellNested [] front) :=
  decidable_of_iff _ wellNested_nil_iff.symm

/-- The character divides a text when it stands behind `front`: it is a separator, and no mark that
the nesting is made of, and what stands in front of it is well nested. -/
def Divides (separators front : List Char) (c : Char) : Prop :=
  c ∈ separators ∧ c ∉ ['\\', '"', '\'', '(', ')'] ∧ WellNested [] front

instance (separators front : List Char) (c : Char) : Decidable (Divides separators front c) :=
  inferInstanceAs (Decidable (_ ∧ _ ∧ _))

/-- The scan finds the places that divide. -/
theorem Scan.separates_iff {separators front : List Char} {c : Char} :
    (scan front).separates separators c = true ↔ Divides separators front c := by
  have hstart : ∀ s : Scan, s = {} ↔ s.escaped = false ∧ s.quote = none ∧ s.depth = 0 := by
    rintro ⟨escaped, quote, depth⟩
    simp
  rw [Divides, wellNested_nil_iff, hstart]
  simp only [separates, Bool.and_eq_true, Bool.not_eq_true', bne_iff_ne, Option.isNone_iff_eq_none,
    beq_iff_eq, List.contains_iff_mem, List.mem_cons, List.not_mem_nil, or_false, not_or]
  tauto

/-- A place that divides leaves the text well nested. -/
theorem Divides.scan_concat {separators front : List Char} {c : Char}
    (h : Divides separators front c) : scan (front ++ [c]) = scan front := by
  obtain ⟨-, hmark, hnested⟩ := h
  simp only [List.mem_cons, List.not_mem_nil, or_false, not_or] at hmark
  rw [Text.scan_concat, wellNested_nil_iff.mp hnested]
  simp [Scan.step, hmark]

/-! ### Nothing gets lost -/

/-- The characters of `cs`, behind `front`, but for those that divide the text. -/
def withoutDividers (separators front : List Char) : List Char → List Char
  | [] => []
  | c :: cs =>
    if Divides separators front c then withoutDividers separators (front ++ [c]) cs
    else c :: withoutDividers separators (front ++ [c]) cs

theorem kept_scan (separators front cs : List Char) :
    (scan front).kept separators cs = withoutDividers separators front cs := by
  induction cs generalizing front with
  | nil => rfl
  | cons c cs ih =>
    rw [withoutDividers, Scan.kept]
    by_cases hdivides : Divides separators front c
    · rw [if_pos hdivides, if_pos (Scan.separates_iff.mpr hdivides), ← ih, hdivides.scan_concat]
    · rw [if_neg hdivides, if_neg (mt Scan.separates_iff.mp hdivides), ← ih, scan_concat]

/-- **Nothing gets lost.** Blanks apart, the parts of a text have all characters of it but those
that divide it, in order. -/
theorem filter_flatten_split (s : String) (separators : List Char) (last : Bool) :
    ((split s separators last).map String.toList).flatten.filter (fun c => !isBlank c) =
      (withoutDividers separators [] s.toList).filter fun c => !isBlank c := by
  rw [map_toList_split, filter_flatten_splitFrom, ← kept_scan]
  rfl

/-! ### Pieces -/

/-- The pieces of `cs` behind `front`, when `current` stands behind the last place that divides. -/
def piecesFrom (separators front current : List Char) : List Char → List (List Char)
  | [] => [current]
  | c :: cs =>
    if Divides separators front c then current :: piecesFrom separators (front ++ [c]) [] cs
    else piecesFrom separators (front ++ [c]) (current ++ [c]) cs

/-- What stands between the places that divide a text. -/
def listPieces (separators cs : List Char) : List (List Char) :=
  piecesFrom separators [] [] cs

variable {separators front current cs : List Char} {last : Bool}

theorem piecesFrom_ne_nil (separators front current cs : List Char) :
    piecesFrom separators front current cs ≠ [] := by
  induction cs generalizing front current with
  | nil => exact List.cons_ne_nil _ _
  | cons c cs ih =>
    rw [piecesFrom]
    split_ifs
    · exact List.cons_ne_nil _ _
    · exact ih _ _

/-! ### Empty parts -/

/-- The elements of a list, without the last one when that one does not count. -/
def inner {α : Type} (last : Bool) (ps : List α) : List α :=
  if last then ps.dropLast else ps

theorem inner_cons {α : Type} {p : α} {ps : List α} (h : last = true → ps ≠ []) :
    inner last (p :: ps) = p :: inner last ps := by
  cases last with
  | false => rfl
  | true => exact List.dropLast_cons_of_ne_nil (h rfl)

theorem splitFrom_ne_nil (separators : List Char) (s : Scan) (current cs : List Char) :
    splitFrom separators true s current cs ≠ [] := by
  induction cs generalizing s current with
  | nil => exact List.cons_ne_nil _ _
  | cons c cs ih =>
    rw [splitFrom]
    split_ifs
    · exact ih _ _
    · exact List.cons_ne_nil _ _
    · exact ih _ _

/-- Pieces without a character are dropped, and the others are trimmed. -/
theorem inner_splitFrom (separators : List Char) (last : Bool) (front current cs : List Char) :
    inner last (splitFrom separators last (scan front) current cs) =
      ((inner last (piecesFrom separators front current cs)).filter (!·.isEmpty)).map trim := by
  induction cs generalizing front current with
  | nil =>
    rw [splitFrom, piecesFrom]
    cases last <;> cases current <;> rfl
  | cons c cs ih =>
    rw [splitFrom, piecesFrom]
    by_cases hdivides : Divides separators front c
    · rw [if_pos hdivides, if_pos (Scan.separates_iff.mpr hdivides), ← hdivides.scan_concat,
        inner_cons fun _ => piecesFrom_ne_nil _ _ _ _]
      -- An empty piece is dropped by both sides.
      cases current with
      | nil => exact ih _ _
      | cons d current =>
        have hne : last = true → splitFrom separators last (scan (front ++ [c])) [] cs ≠ [] := by
          rintro rfl
          exact splitFrom_ne_nil _ _ _ _
        rw [List.isEmpty_cons, if_neg Bool.false_ne_true, inner_cons hne, ih]
        rfl
    · rw [if_neg hdivides, if_neg (mt Scan.separates_iff.mp hdivides), ← scan_concat, ih]

theorem inner_map {α β : Type} (f : α → β) (last : Bool) (ps : List α) :
    inner last (ps.map f) = (inner last ps).map f := by
  cases last with
  | false => rfl
  | true => exact List.map_dropLast.symm

/-- Only blanks are trimmed away as a whole. -/
theorem trim_eq_nil_iff : trim cs = [] ↔ ∀ c ∈ cs, isBlank c = true := by
  constructor
  · intro h c hc
    have hfilter := filter_trim cs
    rw [h, List.filter_nil, eq_comm, List.filter_eq_nil_iff] at hfilter
    simpa using hfilter c hc
  · intro h
    rw [trim, trimStart, List.dropWhile_eq_nil_iff.mpr h]
    rfl

/-- When all blanks of a text are separators, each piece with a character has one that is no
blank. -/
theorem exists_not_isBlank_of_mem_piecesFrom (hcs : ∀ c ∈ cs, isBlank c = true → c ∈ separators)
    (hstart : current = [] → WellNested [] front)
    (hcurrent : current ≠ [] → ∃ c ∈ current, isBlank c = false) :
    ∀ piece ∈ piecesFrom separators front current cs,
      piece ≠ [] → ∃ c ∈ piece, isBlank c = false := by
  induction cs generalizing front current with
  | nil => exact List.forall_mem_singleton.mpr hcurrent
  | cons c cs ih =>
    rw [List.forall_mem_cons] at hcs
    rw [piecesFrom]
    split_ifs with hdivides
    · refine List.forall_mem_cons.mpr ⟨hcurrent, ih hcs.2 (fun _ => ?_) fun hne => absurd rfl hne⟩
      rw [wellNested_nil_iff, hdivides.scan_concat]
      exact wellNested_nil_iff.mp hdivides.2.2
    · refine ih hcs.2 (fun hnil => absurd hnil (by simp)) fun _ => ?_
      by_cases hempty : current = []
      · -- A blank would divide the text at the start of a piece.
        refine ⟨c, by simp, ?_⟩
        by_contra hblank
        rw [Bool.not_eq_false] at hblank
        refine hdivides ⟨hcs.1 hblank, fun hmark => ?_, hstart hempty⟩
        simp only [List.mem_cons, List.not_mem_nil, or_false] at hmark
        rcases hmark with rfl | rfl | rfl | rfl | rfl <;> revert hblank <;> decide
      · obtain ⟨d, hd, hblank⟩ := hcurrent hempty
        exact ⟨d, List.mem_append_left _ hd, hblank⟩

theorem inner_subset {α : Type} (last : Bool) (ps : List α) : inner last ps ⊆ ps := by
  cases last with
  | false => exact List.Subset.refl _
  | true => exact List.dropLast_subset ps

/-- **Which parts are empty.** Apart from the last part, when it is asked for in any case, no part
is empty exactly when each piece with a character has one that is no blank. That is so when all
blanks of the text are separators. -/
theorem part_ne_empty_iff (s : String) (separators : List Char) (last : Bool) :
    ((∀ part ∈ inner last (split s separators last), part ≠ "") ↔
      ∀ piece ∈ inner last (listPieces separators s.toList),
        piece ≠ [] → ∃ c ∈ piece, isBlank c = false) ∧
    ((∀ c ∈ s.toList, isBlank c = true → c ∈ separators) →
      ∀ part ∈ inner last (split s separators last), part ≠ "") := by
  have hiff : (∀ part ∈ inner last (split s separators last), part ≠ "") ↔
      ∀ piece ∈ inner last (listPieces separators s.toList),
        piece ≠ [] → ∃ c ∈ piece, isBlank c = false := by
    -- Pieces are dropped when they are empty and trimmed after that, so blanks alone leave an empty
    -- part.
    have hinner : inner last (splitFrom separators last {} [] s.toList) =
        ((inner last (listPieces separators s.toList)).filter (!·.isEmpty)).map trim :=
      inner_splitFrom separators last [] [] s.toList
    rw [split, inner_map, hinner, List.map_map, List.forall_mem_map]
    simp only [List.mem_filter, and_imp]
    refine forall₂_congr fun piece _ => ?_
    have hempty : String.ofList (trim piece) = "" ↔ ∀ c ∈ piece, isBlank c = true := by
      rw [← trim_eq_nil_iff, ← String.toList_inj, String.toList_ofList]
      exact Iff.rfl
    rw [Function.comp_apply, Ne, hempty, Bool.not_eq_true', List.isEmpty_eq_false_iff]
    refine imp_congr_right fun _ => ?_
    simp only [not_forall, Bool.not_eq_true, exists_prop]
  refine ⟨hiff, fun hblanks => hiff.mpr fun piece hpiece => ?_⟩
  exact exists_not_isBlank_of_mem_piecesFrom hblanks (fun _ => .nil) (fun hne => absurd rfl hne)
    piece (inner_subset last _ hpiece)

/-- A carriage return between other white space is a part of its own, and nothing is left of it. -/
theorem empty_part_of_carriageReturn :
    ¬ ∀ (s : String) (separators : List Char) (last : Bool),
      ∀ part ∈ inner last (split s separators last), part ≠ "" := by
  intro h
  have hparts : split "a \r\nb" [' ', '\n', '\t'] false = ["a", "", "b"] := by decide
  exact h "a \r\nb" [' ', '\n', '\t'] false "" (by rw [inner, hparts]; decide) rfl

end Stylesheet.Text
