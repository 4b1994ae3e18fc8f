import Mathlib.Data.List.Infix
import Mathlib.Tactic.SplitIfs
import Stylesheet.Text.Cut

/-!
# Texts that hold a mark

`after?` takes a mark off the front of a text (`after?_eq_some_iff`), and `splitAt?` finds one when
there is one (`contains_iff`). A mark of two characters may also stand where two texts meet
(`contains_append_eq_false`). A text that is joined from pieces is cut into them again
(`pieces_intercalate`).
-/

namespace Stylesheet.Text

variable {mark cs : List Char}

theorem after?_append (mark rest : List Char) : after? mark (mark ++ rest) = some rest := by
  induction mark with
  | nil => rfl
  | cons m ms ih => rw [List.cons_append, after?, if_pos (beq_self_eq_true m), ih]

theorem after?_eq_some_iff {rest : List Char} : after? mark cs = some rest ↔ cs = mark ++ rest := by
  constructor
  · exact after?_eq_some
  · rintro rfl
    exact after?_append mark rest

/-- What is in front of the text does not hide the mark. -/
theorem splitAt?_isSome_append (h : (splitAt? mark cs).isSome = true) (front : List Char) :
    (splitAt? mark (front ++ cs)).isSome = true := by
  induction front with
  | nil => exact h
  | cons c front ih =>
    rw [List.cons_append, splitAt?]
    cases after? mark (c :: (front ++ cs)) with
    | some rest => rfl
    | none =>
      dsimp only
      rw [Option.isSome_map, ih]

theorem contains_iff : contains mark cs = true ↔ mark <:+: cs := by
  rw [contains]
  constructor
  · intro h
    obtain ⟨⟨front, rest⟩, hsplit⟩ := Option.isSome_iff_exists.mp h
    exact ⟨front, rest, (splitAt?_eq_some hsplit).symm⟩
  · rintro ⟨front, rest, rfl⟩
    rw [List.append_assoc]
    -- The mark begins behind `front`, so the search succeeds there at the latest.
    refine splitAt?_isSome_append ?_ front
    have hafter := after?_append mark rest
    cases hcs : mark ++ rest with
    | nil =>
      rw [hcs] at hafter
      rw [splitAt?, hafter]
      rfl
    | cons c cs =>
      rw [hcs] at hafter
      rw [splitAt?, hafter]
      rfl

/-- A part of a text holds no mark that the text does not hold. -/
theorem contains_eq_false_of_isInfix {part : List Char} (h : contains mark cs = false)
    (hpart : part <:+: cs) : contains mark part = false := by
  rw [Bool.eq_false_iff] at h ⊢
  exact fun hmark => h (contains_iff.mpr ((contains_iff.mp hmark).trans hpart))

/-! ### Marks of two characters -/

variable {a b : Char} {xs ys : List Char}

theorem after?_pair (a b c : Char) (cs : List Char) :
    (after? [a, b] (c :: cs)).isSome = (a == c && cs.head? == some b) := by
  rw [after?]
  cases cs with
  | nil => split_ifs with h <;> simp [after?]
  | cons d ds =>
    rw [after?, after?]
    split_ifs with hac hbd
    · simp_all
    · rw [hac, List.head?_cons, Option.isSome_none, Bool.true_and]
      refine (beq_eq_false_iff_ne.mpr fun heq => hbd ?_).symm
      rw [Option.some.inj heq, beq_self_eq_true]
    · simp_all

theorem contains_pair_cons (a b c : Char) (cs : List Char) :
    contains [a, b] (c :: cs) = ((a == c && cs.head? == some b) || contains [a, b] cs) := by
  rw [← after?_pair, contains, splitAt?, contains]
  cases after? [a, b] (c :: cs) with
  | some rest => rfl
  | none => rw [Option.isSome_map, Option.isSome_none, Bool.false_or]

/-- A mark that neither of two texts holds does not stand where they meet, unless it is cut in two
there. -/
theorem contains_append_eq_false (hxs : contains [a, b] xs = false)
    (hys : contains [a, b] ys = false) (hmeet : xs.getLast? ≠ some a ∨ ys.head? ≠ some b) :
    contains [a, b] (xs ++ ys) = false := by
  induction xs with
  | nil => exact hys
  | cons c xs ih =>
    rw [contains_pair_cons, Bool.or_eq_false_iff] at hxs
    obtain ⟨hhere, hrest⟩ := hxs
    rw [List.cons_append, contains_pair_cons]
    cases xs with
    | nil =>
      rw [List.nil_append, hys, Bool.or_false, Bool.and_eq_false_iff]
      rcases hmeet with hc | hb
      · exact Or.inl (beq_eq_false_iff_ne.mpr fun h => hc (by rw [h]; rfl))
      · exact Or.inr (beq_eq_false_iff_ne.mpr hb)
    | cons d xs =>
      rw [ih hrest (by rwa [List.getLast?_cons_cons] at hmeet), Bool.or_false]
      exact hhere

/-- The first place of a mark behind a text that does not hold it. -/
theorem splitAt?_append_self (hxs : contains [a, b] xs = false) (hab : a ≠ b) :
    splitAt? [a, b] (xs ++ [a, b]) = some (xs, []) := by
  induction xs with
  | nil =>
    rw [List.nil_append, splitAt?]
    simp [after?]
  | cons c xs ih =>
    rw [contains_pair_cons, Bool.or_eq_false_iff] at hxs
    obtain ⟨hhere, hrest⟩ := hxs
    have hnone : after? [a, b] (c :: (xs ++ [a, b])) = none := by
      rw [← Option.not_isSome_iff_eq_none, after?_pair, Bool.not_eq_true]
      cases xs with
      | nil => simp [hab]
      | cons d xs => exact hhere
    rw [List.cons_append, splitAt?, hnone, ih hrest]
    rfl

/-! ### Pieces -/

/-- Cutting a text in pieces is splitting the list of its characters. -/
theorem pieces_eq_splitOn (sep : Char) (cs : List Char) : pieces sep cs = cs.splitOn sep := by
  induction cs with
  | nil => rw [List.splitOn_nil, pieces]
  | cons c cs ih =>
    obtain ⟨p, ps, hps⟩ := exists_pieces sep cs
    rw [List.splitOn, List.splitOnP_cons_eq_if_modifyHead, ← List.splitOn, ← ih, pieces, hps]
    rfl

/-- Pieces without the separator come back from the text that they are joined to. -/
theorem pieces_intercalate {sep : Char} {ps : List (List Char)} (hne : ps ≠ [])
    (h : ∀ p ∈ ps, sep ∉ p) : pieces sep ([sep].intercalate ps) = ps := by
  rw [pieces_eq_splitOn, List.splitOn_intercalate sep h hne]

/-- The first piece ends in front of the first separator. -/
theorem exists_pieces_eq_takeWhile (sep : Char) (cs : List Char) :
    ∃ ps, pieces sep cs = cs.takeWhile (· != sep) :: ps := by
  induction cs with
  | nil => exact ⟨[], rfl⟩
  | cons c cs ih =>
    obtain ⟨ps, hps⟩ := ih
    rw [pieces, List.takeWhile_cons]
    by_cases hc : c = sep
    · subst hc
      exact ⟨_, by simp; rfl⟩
    · exact ⟨ps, by simp [hc, hps]⟩

theorem length_pieces (sep : Char) (cs : List Char) :
    (pieces sep cs).length = cs.count sep + 1 := by
  induction cs with
  | nil => rfl
  | cons c cs ih =>
    obtain ⟨p, ps, hps⟩ := exists_pieces sep cs
    rw [hps] at ih
    rw [pieces, List.count_cons, hps]
    split
    · rw [List.length_cons, ih]
    · rw [List.length_cons] at ih ⊢
      exact ih
end Stylesheet.Text
