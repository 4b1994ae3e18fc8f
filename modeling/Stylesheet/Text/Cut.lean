import Stylesheet.Text.Blank

/-!
# Finding and cutting

Searches in a list of characters that hand back the parts around what was found, so that no
offsets into the text are needed.

Selectors and values are lists: `a, b:is(c, d)` has two parts, `1px solid rgb(0, 0, 0)` has three.
A separator inside quotes or parentheses, or behind a backslash, does not separate. `split` reads
the text once with a `Scan` that remembers whether the next character is escaped, which quote is
open and how deep the parentheses are.
-/

namespace Stylesheet.Text

/-- The rest of `cs` after `mark`, when `cs` starts with it. -/
def after? : List Char → List Char → Option (List Char)
  | [], cs => some cs
  | _ :: _, [] => none
  | m :: ms, c :: cs => if m == c then after? ms cs else none

/-- The parts of `cs` around the first place where `mark` stands. -/
def splitAt? (mark : List Char) : List Char → Option (List Char × List Char)
  | [] => (after? mark []).map fun rest => ([], rest)
  | c :: cs =>
    match after? mark (c :: cs) with
    | some rest => some ([], rest)
    | none => (splitAt? mark cs).map fun (front, rest) => (c :: front, rest)

/-- Whether `mark` stands somewhere in `cs`. -/
def contains (mark cs : List Char) : Bool :=
  (splitAt? mark cs).isSome

/-- The pieces of `cs` between the places where `sep` stands. A text without `sep` is one piece. -/
def pieces (sep : Char) : List Char → List (List Char)
  | [] => [[]]
  | c :: cs =>
    if c == sep then [] :: pieces sep cs
    else
      match pieces sep cs with
      | [] => [[c]]
      | p :: ps => (c :: p) :: ps

/-- Replaces every place where `mark` stands, from left to right. A mark without characters stands
before every character and at the end. -/
def replaceAll (mark new : List Char) : Nat → List Char → List Char
  | 0, cs => cs
  | fuel + 1, cs =>
    match mark with
    | [] =>
      match cs with
      | [] => new
      | c :: rest => new ++ c :: replaceAll mark new fuel rest
    | _ :: _ =>
      match splitAt? mark cs with
      | none => cs
      | some (front, rest) => front ++ new ++ replaceAll mark new fuel rest

/-- `replaceAll` on a text, with as many rounds as it can take. -/
def replaced (s mark new : String) : String :=
  String.ofList (replaceAll mark.toList new.toList (s.toList.length + 1) s.toList)

theorem not_mem_of_mem_pieces {sep : Char} {p cs : List Char} (hp : p ∈ pieces sep cs) :
    sep ∉ p := by
  induction cs generalizing p with
  | nil => simp_all [pieces]
  | cons c cs ih =>
    rw [pieces] at hp
    split at hp
    · rcases List.mem_cons.mp hp with rfl | hp
      · exact List.not_mem_nil
      · exact ih hp
    · rename_i hc
      have hne : sep ≠ c := fun h => hc (beq_iff_eq.mpr h.symm)
      split at hp
      · rw [List.mem_singleton.mp hp]
        simpa using hne
      · rename_i q ps hps
        rw [hps] at ih
        rcases List.mem_cons.mp hp with rfl | hp
        · simpa [hne] using ih List.mem_cons_self
        · exact ih (List.mem_cons_of_mem q hp)

theorem exists_pieces (sep : Char) (cs : List Char) : ∃ p ps, pieces sep cs = p :: ps := by
  cases cs with
  | nil => exact ⟨_, _, rfl⟩
  | cons c cs =>
    rw [pieces]
    split
    · exact ⟨_, _, rfl⟩
    · split <;> exact ⟨_, _, rfl⟩

theorem pieces_append (sep : Char) (front rest : List Char) :
    pieces sep (front ++ sep :: rest) = pieces sep front ++ pieces sep rest := by
  induction front with
  | nil =>
    rw [List.nil_append, pieces.eq_2, if_pos (beq_self_eq_true sep)]
    rfl
  | cons c front ih =>
    rw [List.cons_append, pieces, pieces, ih]
    obtain ⟨p, ps, hps⟩ := exists_pieces sep front
    rw [hps]
    split <;> rfl

theorem after?_eq_some {mark cs rest : List Char} (h : after? mark cs = some rest) :
    cs = mark ++ rest := by
  induction mark generalizing cs with
  | nil => simp_all [after?]
  | cons m ms ih =>
    cases cs with
    | nil => simp [after?] at h
    | cons c cs =>
      simp only [after?] at h
      split at h
      · rename_i hmc
        simp_all [ih h]
      · cases h

theorem splitAt?_eq_some {mark cs front rest : List Char}
    (h : splitAt? mark cs = some (front, rest)) : cs = front ++ mark ++ rest := by
  induction cs generalizing front with
  | nil =>
    simp only [splitAt?, Option.map_eq_some_iff] at h
    obtain ⟨r, hr, h⟩ := h
    cases h
    simpa using after?_eq_some hr
  | cons c cs ih =>
    simp only [splitAt?] at h
    split at h
    · rename_i r hr
      cases h
      simpa using after?_eq_some hr
    · obtain ⟨⟨f, r⟩, hr, h⟩ := Option.map_eq_some_iff.1 h
      cases h
      simp [ih hr]

/-! ### Parts of a list -/

/-- What the characters read so far say about the next one. -/
structure Scan where
  /-- The next character stands behind a backslash. -/
  escaped : Bool := false
  /-- The quote that is open. -/
  quote : Option Char := none
  /-- Parentheses that are open. -/
  depth : Nat := 0
deriving Repr, DecidableEq

/-- The state after one more character. -/
def Scan.step (s : Scan) (c : Char) : Scan :=
  if s.escaped then { s with escaped := false }
  else if c == '\\' then { s with escaped := true }
  else
    match s.quote with
    | some q => if c == q then { s with quote := none } else s
    | none =>
      if c == '"' || c == '\'' then { s with quote := some c }
      else if c == '(' then { s with depth := s.depth + 1 }
      else if c == ')' then { s with depth := s.depth - 1 }
      else s

/-- Whether `c` separates two parts when it is read in state `s`. -/
def Scan.separates (s : Scan) (separators : List Char) (c : Char) : Bool :=
  !s.escaped && c != '\\' && s.quote.isNone && c != '"' && c != '\'' && c != '(' && c != ')' &&
    s.depth == 0 && separators.contains c

/-- The parts of `cs`, when `current` was read since the last separator. -/
def splitFrom (separators : List Char) (last : Bool) (s : Scan) (current : List Char) :
    List Char → List (List Char)
  | [] => if last || !current.isEmpty then [trim current] else []
  | c :: cs =>
    if s.separates separators c then
      if current.isEmpty then splitFrom separators last s [] cs
      else trim current :: splitFrom separators last s [] cs
    else splitFrom separators last (s.step c) (current ++ [c]) cs

/-- The parts of a text between the given separators, trimmed. Parts without a character are
dropped, except the last one when `last` is set. -/
def split (s : String) (separators : List Char) (last : Bool) : List String :=
  (splitFrom separators last {} [] s.toList).map String.ofList

/-- The parts of a value between white space. -/
def spaceParts (s : String) : List String :=
  split s [' ', '\n', '\t'] false

/-- The parts of a selector or value between commas. A comma at the end leaves an empty part. -/
def commaParts (s : String) : List String :=
  split s [','] true

end Stylesheet.Text
