import Stylesheet.Text.Unicode

/-!
# Lower case

The lower-case form of a text as the Unicode standard has it. Each character has a form of its own,
whatever stands around it, with one exception: a capital sigma takes another form at the end of a
word.

`ascii_of_lower` finds the spelling of a text that is known in lower case. Two letters beyond ASCII
have a lower-case form with a letter of ASCII in it: the Kelvin sign, which becomes a `k`, and the
capital I with a dot, which keeps its dot as a character of its own.
-/

namespace Stylesheet.Text

open Unicode

/-- The lower-case form of a character on its own. -/
def lowerChar (c : Char) : List Char :=
  if c.toNat < 0x80 then [c.toLower]
  else if c == '\u0130' then ['i', '\u0307']
  else
    match lowerCase.find? (·.holds c.toNat) with
    | some run => [Char.ofNat (run.lower c.toNat)]
    | none => [c]

/-- Whether the first character that is not passed over has a case. -/
def startsCased (cs : List Char) : Bool :=
  (cs.dropWhile (inRanges caseIgnorable ·.toNat)).head?.any (inRanges cased ·.toNat)

/-- The lower-case form of a character between `front`, which is given in reverse order, and `rest`.
A capital sigma is at the end of a word when a letter stands in front of it and none behind it. -/
def lowerBetween (front : List Char) (c : Char) (rest : List Char) : List Char :=
  if c == 'Σ' then [if startsCased front && !startsCased rest then 'ς' else 'σ'] else lowerChar c

/-- The lower-case form of `cs` behind `front`, which is given in reverse order. -/
def lowerFrom (front : List Char) : List Char → List Char
  | [] => []
  | c :: cs => lowerBetween front c cs ++ lowerFrom (c :: front) cs

/-- The lower-case form of a text. -/
def lower (s : String) : String :=
  String.ofList (lowerFrom [] s.toList)

/-! ### ASCII -/

theorem lowerBetween_of_ascii {c : Char} (hc : c.toNat < 0x80) (front rest : List Char) :
    lowerBetween front c rest = [c.toLower] := by
  have hne : c ≠ 'Σ' := by
    rintro rfl
    exact absurd hc (by decide)
  rw [lowerBetween, if_neg (by simpa using hne), lowerChar, if_pos hc]

theorem lowerFrom_of_ascii {cs : List Char} (h : ∀ c ∈ cs, c.toNat < 0x80) (front : List Char) :
    lowerFrom front cs = cs.map Char.toLower := by
  induction cs generalizing front with
  | nil => rfl
  | cons c cs ih =>
    obtain ⟨hc, hcs⟩ := List.forall_mem_cons.mp h
    rw [lowerFrom, lowerBetween_of_ascii hc, ih hcs]
    rfl

/-- In ASCII each character has one lower-case form. -/
theorem toList_lower_of_ascii {s : String} (h : ∀ c ∈ s.toList, c.toNat < 0x80) :
    (lower s).toList = s.toList.map Char.toLower := by
  rw [lower, String.toList_ofList, lowerFrom_of_ascii h]

/-- A first character of ASCII comes first in the lower-case form. -/
theorem exists_toList_lower {s : String} {c : Char} {cs : List Char} (h : s.toList = c :: cs)
    (hc : c.toNat < 0x80) : ∃ ds, (lower s).toList = c.toLower :: ds := by
  rw [lower, String.toList_ofList, h, lowerFrom, lowerBetween_of_ascii hc]
  exact ⟨_, rfl⟩

/-! ### Beyond ASCII -/

theorem toNat_ofNat_of_isValidChar {n : Nat} (h : n.isValidChar) : (Char.ofNat n).toNat = n := by
  rw [Char.ofNat, dif_pos h]
  rfl

/-- The letters of the tables keep to themselves beyond ASCII, but for the Kelvin sign. -/
theorem image_of_mem_lowerCase {run : CaseRun} (h : run ∈ lowerCase) :
    run = ⟨0x212A, 0x212A, 1, 0x6B⟩ ∨
      0x80 ≤ run.image ∧ (run.lower run.high < 0xD800 ∨
        0xE000 ≤ run.image ∧ run.lower run.high < 0x110000) := by
  have hall : ∀ run ∈ lowerCase, run = ⟨0x212A, 0x212A, 1, 0x6B⟩ ∨
      0x80 ≤ run.image ∧ (run.lower run.high < 0xD800 ∨
        0xE000 ≤ run.image ∧ run.lower run.high < 0x110000) := by decide +kernel
  exact hall run h

/-- A character beyond ASCII has one beyond ASCII, or a `k`, in its lower-case form. -/
theorem exists_mem_lowerChar {c : Char} (hc : 0x80 ≤ c.toNat) :
    ∃ d ∈ lowerChar c, 0x80 ≤ d.toNat ∨ d = 'k' := by
  rw [lowerChar, if_neg (Nat.not_lt.mpr hc)]
  split
  · exact ⟨'\u0307', by decide, Or.inl (by decide)⟩
  split
  next run hfind =>
    refine ⟨_, List.mem_singleton_self _, ?_⟩
    have hholds := List.find?_some hfind
    simp only [CaseRun.holds, Bool.and_eq_true, decide_eq_true_eq] at hholds
    obtain ⟨⟨hlow, hhigh⟩, -⟩ := hholds
    rcases image_of_mem_lowerCase (List.mem_of_find?_eq_some hfind) with rfl | ⟨himage, hvalid⟩
    · right
      rw [show c.toNat = 0x212A from Nat.le_antisymm hhigh hlow]
      rfl
    · left
      rw [CaseRun.lower] at hvalid ⊢
      -- The image is between those of the first and the last letter, so it is a character.
      have hchar : (run.image + (c.toNat - run.low)).isValidChar := by
        rcases hvalid with hvalid | ⟨hfrom, hvalid⟩
        · exact Or.inl (by omega)
        · exact Or.inr ⟨by omega, by omega⟩
      rw [toNat_ofNat_of_isValidChar hchar]
      exact Nat.le_add_right_of_le himage
  next => exact ⟨c, List.mem_singleton_self c, Or.inl hc⟩

theorem exists_mem_lowerBetween {c : Char} (hc : 0x80 ≤ c.toNat) (front rest : List Char) :
    ∃ d ∈ lowerBetween front c rest, 0x80 ≤ d.toNat ∨ d = 'k' := by
  rw [lowerBetween]
  split
  · refine ⟨_, List.mem_singleton_self _, Or.inl ?_⟩
    split <;> decide
  · exact exists_mem_lowerChar hc

theorem exists_mem_lowerFrom {cs : List Char} {c : Char} (h : c ∈ cs) (hc : 0x80 ≤ c.toNat)
    (front : List Char) : ∃ d ∈ lowerFrom front cs, 0x80 ≤ d.toNat ∨ d = 'k' := by
  induction cs generalizing front with
  | nil => cases h
  | cons b cs ih =>
    rw [lowerFrom]
    rcases List.mem_cons.mp h with rfl | h
    · obtain ⟨d, hd, hkind⟩ := exists_mem_lowerBetween hc front cs
      exact ⟨d, List.mem_append_left _ hd, hkind⟩
    · obtain ⟨d, hd, hkind⟩ := ih h (b :: front)
      exact ⟨d, List.mem_append_right _ hd, hkind⟩

/-- A text with a lower-case form in ASCII, and without a `k`, is one of ASCII itself. -/
theorem ascii_of_lower {s : String} (h : ∀ d ∈ (lower s).toList, d.toNat < 0x80 ∧ d ≠ 'k') :
    ∀ c ∈ s.toList, c.toNat < 0x80 := by
  refine fun c hc => Nat.lt_of_not_le fun hbeyond => ?_
  obtain ⟨d, hd, hkind⟩ := exists_mem_lowerFrom hc hbeyond []
  obtain ⟨hascii, hne⟩ := h d (by rwa [lower, String.toList_ofList])
  exact hkind.elim (Nat.not_le_of_lt hascii) hne

example : lower "ÉTAT ΟΔΟΣ" = "état οδος" := by decide +kernel

end Stylesheet.Text
