import Mathlib.Data.List.Infix
import Mathlib.Tactic.ByContra
import Mathlib.Tactic.SplitIfs
import Stylesheet.PreviousMap
import Stylesheet.Proofs.Text.Cut

/-!
# Finding the comment that names a map

A comment names a map by how its text starts. A text without a part of that start names no map
(`findLink?_eq_none_of_mark`), and of several such comments the last one counts
(`findLink?_append`).
-/

namespace Stylesheet

open Text

/-- A part of every comment that names a map. -/
def linkMark : String := "sourceMappingURL"

/-- The text of a comment names a map. -/
def NamesMap (text : String) : Prop :=
  text.startsWith "# sourceMappingURL=" = true

instance (text : String) : Decidable (NamesMap text) :=
  inferInstanceAs (Decidable (_ = true))

/-! ### Blanks at the ends -/

theorem isInfix_trim (cs : List Char) : trim cs <:+: cs := by
  have hstart : trimStart cs <:+: cs := (List.dropWhile_suffix _).isInfix
  have hend : trimEnd (trimStart cs) <+: trimStart cs := by
    have hsuffix : (trimStart cs).reverse.dropWhile isBlank <:+ (trimStart cs).reverse :=
      List.dropWhile_suffix _
    rw [← List.reverse_prefix, List.reverse_reverse] at hsuffix
    exact hsuffix
  exact hend.isInfix.trans hstart

/-- What stands in front does not get lost when the blanks at the end go. -/
theorem trimEnd_append {front : List Char} (h : front.getLast?.any isBlank = false)
    (rest : List Char) : trimEnd (front ++ rest) = front ++ trimEnd rest := by
  rw [List.getLast?_eq_head?_reverse] at h
  have hfront : front.reverse.dropWhile isBlank = front.reverse := by
    cases hrev : front.reverse with
    | nil => rfl
    | cons c cs =>
      rw [hrev] at h
      refine List.dropWhile_cons_of_neg ?_
      rw [Bool.not_eq_true]
      exact h
  rw [trimEnd, trimEnd, List.reverse_append, List.dropWhile_append]
  split_ifs with hnil
  · rw [List.isEmpty_iff.mp hnil, hfront]
    simp
  · simp

theorem trimStart_append {front : List Char} (hne : front ≠ [])
    (h : front.head?.any isBlank = false) (rest : List Char) :
    trimStart (front ++ rest) = front ++ rest := by
  cases front with
  | nil => exact absurd rfl hne
  | cons c cs =>
    rw [trimStart, List.cons_append, List.dropWhile_cons_of_neg]
    rw [Bool.not_eq_true]
    exact h

/-- A beginning without blanks at its ends is not trimmed away. -/
theorem startsWith_trimmed {front : String} (hne : front.toList ≠ [])
    (hfirst : front.toList.head?.any isBlank = false)
    (hlast : front.toList.getLast?.any isBlank = false) (rest : String) :
    (trimmed (front ++ rest)).startsWith front = true := by
  rw [String.startsWith_string_iff, trimmed, String.toList_ofList, String.toList_append, trim,
    trimStart_append hne hfirst, trimEnd_append hlast]
  exact List.prefix_append _ _

/-! ### Texts that name maps -/

theorem infix_of_namesMap {text : String} (h : NamesMap text) :
    linkMark.toList <:+: text.toList := by
  have hmark : linkMark.toList <:+: "# sourceMappingURL=".toList := ⟨['#', ' '], ['='], rfl⟩
  exact hmark.trans (String.startsWith_string_iff.mp h).isInfix

/-- What the text of a comment stands in holds the mark as well. -/
theorem contains_of_namesMap {text : String} (h : NamesMap text) {cs : List Char}
    (hpart : text.toList <:+: cs) : contains linkMark.toList cs = true :=
  contains_iff.mpr ((infix_of_namesMap h).trans hpart)

theorem namesMap_trimmed (rest : String) : NamesMap (trimmed ("# sourceMappingURL=" ++ rest)) :=
  startsWith_trimmed (by decide +kernel) (by decide +kernel) (by decide +kernel) rest

/-! ### Finding a comment -/

theorem isInfix_of_linkBody? {cs rest : List Char} (h : linkBody? cs = some rest) :
    "# sourceMappingURL=".toList <:+: cs := by
  obtain ⟨inner, hopen, hname⟩ := Option.bind_eq_some_iff.mp h
  have hinner : inner <:+: cs := by
    rw [after?_eq_some hopen]
    exact (List.suffix_append _ _).isInfix
  have hstart : "# sourceMappingURL=".toList <:+: inner.dropWhile isBlank := by
    rw [after?_eq_some hname]
    exact (List.prefix_append _ _).isInfix
  exact (hstart.trans (List.dropWhile_suffix _).isInfix).trans hinner

/-- A text in which no comment can start to name a map names none. -/
theorem findLink?_eq_none_of_not_isInfix {css : String}
    (h : ¬ "# sourceMappingURL=".toList <:+: css.toList) : findLink? css = none := by
  have hlast : ∀ cs : List Char, ¬ "# sourceMappingURL=".toList <:+: cs → lastLink? cs = none := by
    intro cs hcs
    induction cs with
    | nil => rfl
    | cons c cs ih =>
      rw [lastLink?, ih fun hpart => hcs (hpart.trans (List.suffix_cons c cs).isInfix)]
      by_contra hsome
      obtain ⟨rest, hbody⟩ := Option.ne_none_iff_exists'.mp hsome
      exact hcs (isInfix_of_linkBody? hbody)
  rw [findLink?, hlast _ h]
  rfl

/-- A text without the mark names no map. -/
theorem findLink?_eq_none_of_mark {css : String}
    (h : contains linkMark.toList css.toList = false) : findLink? css = none := by
  refine findLink?_eq_none_of_not_isInfix fun hpart => ?_
  have hnames : NamesMap "# sourceMappingURL=" := by decide +kernel
  rw [contains_of_namesMap hnames hpart] at h
  cases h

/-- The comment is found where it starts. -/
theorem linkBody?_append (rest : List Char) :
    linkBody? (['/', '*'] ++ ("# sourceMappingURL=".toList ++ rest)) = some rest := by
  have hstart := @trimStart_append "# sourceMappingURL=".toList (by decide +kernel)
    (by decide +kernel) rest
  rw [linkBody?, after?_append, Option.bind_some]
  exact (congrArg (after? _) hstart).trans (after?_append _ rest)

theorem isSome_lastLink?_of_linkBody? {cs : List Char} (h : (linkBody? cs).isSome = true) :
    (lastLink? cs).isSome = true := by
  cases cs with
  | nil => cases h
  | cons c cs =>
    rw [lastLink?]
    cases lastLink? cs with
    | some rest => rfl
    | none => exact h

/-- Only the last comment that names a map counts. -/
theorem findLink?_append (front : String) {css : String}
    (h : (lastLink? css.toList).isSome = true) : findLink? (front ++ css) = findLink? css := by
  obtain ⟨rest, hrest⟩ := Option.isSome_iff_exists.mp h
  have hlast : ∀ cs : List Char, lastLink? (cs ++ css.toList) = some rest := by
    intro cs
    induction cs with
    | nil => exact hrest
    | cons c cs ih => rw [List.cons_append, lastLink?, ih]
  rw [findLink?, findLink?, String.toList_append, hlast, hrest]

namespace PreviousMap

theorem load_congr (e : Environment) {css css' : String} (options : ParseOptions)
    (h : findLink? css = findLink? css') : load e css options = load e css' options := by
  rw [load, load, h]

/-- When a text that names a map comes without one, so does a text that names none. -/
theorem load_of_findLink?_eq_none {e : Environment} {css css' : String} {options : ParseOptions}
    (h : findLink? css = none) (hload : load e css' options = .ok none) :
    load e css options = .ok none := by
  rw [load] at hload ⊢
  split_ifs at hload ⊢
  · rfl
  rw [h]
  dsimp only at hload ⊢
  rw [find.eq_def] at hload ⊢
  -- Without a link the text plays no part; what the options name decides, and it named nothing
  -- before.
  cases hprev : options.map.options?.bind MapOptions.prev with
  | none => rfl
  | some given =>
    rw [hprev] at hload
    cases given with
    | disabled => rfl
    | json text =>
      dsimp only at hload
      cases hparse : parseMap e.packages text with
      | error error => rw [hparse] at hload; cases hload
      | ok m => rw [hparse] at hload; cases hload
    | file path =>
      dsimp only at hload
      cases hread : e.files.read? path with
      | none => rw [hread] at hload; cases hload
      | some text =>
        rw [hread] at hload
        dsimp only at hload
        cases hparse : parseMap e.packages (trimmed text) with
        | error error => rw [hparse] at hload; cases hload
        | ok m => rw [hparse] at hload; cases hload

end PreviousMap

end Stylesheet
