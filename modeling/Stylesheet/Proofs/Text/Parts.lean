import Mathlib.Data.List.Basic
import Mathlib.Tactic.SplitIfs
import Stylesheet.Proofs.Token.Quoted
import Stylesheet.Text.Cut

/-!
# Parts that are put together and taken apart

A text is well nested (`WellNested`) when its quotes and parentheses are closed, no backslash at its
end escapes what follows, and none of some characters stands outside of quotes and parentheses.
These are the texts that take the scan of `split` back to the state in which it started and are not
divided on the way (`wellNested_iff_passes`).

So well nested parts without a comma outside are read back when they were joined by a comma with
blanks behind it (`commaParts_intercalate`). On the other hand, nothing but separators and blanks
gets lost when a text is divided (`filter_flatten_splitFrom`). A joining text that has something
else in it is therefore found again in the parts, which are not those that were joined then
(`splitFrom_intercalate_ne`).
-/

namespace Stylesheet.Text

/-! ### Trimming -/

theorem trimStart_eq_self {cs : List Char} (h : ∀ c ∈ cs.head?, isBlank c = false) :
    trimStart cs = cs := by
  cases cs with
  | nil => rfl
  | cons c cs => rw [trimStart, List.dropWhile_cons_of_neg (by rw [h c rfl]; decide)]

theorem trimStart_behindBlanks {bs : List Char} (hbs : ∀ c ∈ bs, isBlank c = true)
    (cs : List Char) : trimStart (bs ++ cs) = trimStart cs := by
  rw [trimStart, List.dropWhile_append_of_pos hbs, trimStart]

/-- Blanks in front of a text make no difference to the trimmed text. -/
theorem trim_append {bs : List Char} (hbs : ∀ c ∈ bs, isBlank c = true) (cs : List Char) :
    trim (bs ++ cs) = trim cs := by
  rw [trim, trimStart_behindBlanks hbs, trim]

theorem filter_dropWhile_isBlank (cs : List Char) :
    (cs.dropWhile isBlank).filter (fun c => !isBlank c) = cs.filter fun c => !isBlank c := by
  induction cs with
  | nil => rfl
  | cons c cs ih =>
    cases hc : isBlank c with
    | true => rw [List.dropWhile_cons_of_pos hc, ih, List.filter_cons_of_neg (by simp [hc])]
    | false => rw [List.dropWhile_cons_of_neg (by simp [hc])]

/-- Trimming takes nothing but blanks off. -/
theorem filter_trim (cs : List Char) :
    (trim cs).filter (fun c => !isBlank c) = cs.filter fun c => !isBlank c := by
  rw [trim, trimEnd, List.filter_reverse, filter_dropWhile_isBlank, List.filter_reverse,
    List.reverse_reverse, trimStart, filter_dropWhile_isBlank]

/-! ### Well nested texts -/

/-- Quotes and parentheses are closed, the text does not end in a backslash that escapes, and none
of `stops` stands outside of quotes and parentheses without a backslash. -/
inductive WellNested : List Char → List Char → Prop
  | nil {stops : List Char} : WellNested stops []
  | plain {stops cs : List Char} {c : Char} (hc : c ∉ ['\\', '"', '\'', '(']) (hstop : c ∉ stops)
    (h : WellNested stops cs) : WellNested stops (c :: cs)
  | escaped {stops cs : List Char} (c : Char) (h : WellNested stops cs) :
    WellNested stops ('\\' :: c :: cs)
  | quoted {stops body cs : List Char} {q : Char} (hq : q = '"' ∨ q = '\'')
    (hbody : ClosedBy q [] body) (h : WellNested stops cs) :
    WellNested stops (q :: (body ++ q :: cs))
  | group {stops inner cs : List Char} (hinner : WellNested [')'] inner)
    (h : WellNested stops cs) : WellNested stops ('(' :: (inner ++ ')' :: cs))

/-- From state `s` the characters are read up to state `s'`, and none of them separates. -/
def Scan.Passes (separators : List Char) : Scan → List Char → Scan → Prop
  | s, [], s' => s = s'
  | s, c :: cs, s' => s.separates separators c = false ∧ (s.step c).Passes separators cs s'

instance Scan.decidablePasses (separators : List Char) :
    (s : Scan) → (cs : List Char) → (s' : Scan) → Decidable (s.Passes separators cs s')
  | s, [], s' => inferInstanceAs (Decidable (s = s'))
  | s, c :: cs, s' =>
    have := decidablePasses separators (s.step c) cs s'
    inferInstanceAs (Decidable (_ ∧ _))

variable {separators : List Char} {s s' s'' : Scan} {cs : List Char}

theorem Scan.Passes.append (h : s.Passes separators cs s') {more : List Char}
    (hmore : s'.Passes separators more s'') : s.Passes separators (cs ++ more) s'' := by
  induction cs generalizing s with
  | nil =>
    obtain rfl : s = s' := h
    exact hmore
  | cons c cs ih => exact ⟨h.1, ih h.2⟩

/-- Inside a quote all goes on but a quote of the same kind that is not escaped. -/
theorem Scan.step_quoted {q c : Char} {read : List Char} (hc : c = q → isEscaped read = true)
    (depth : Nat) :
    step ⟨isEscaped read, some q, depth⟩ c = ⟨isEscaped (read ++ [c]), some q, depth⟩ := by
  rw [isEscaped_concat, step]
  cases hread : isEscaped read with
  | true => simp
  | false =>
    have hcq : c ≠ q := fun heq => by rw [hc heq] at hread; cases hread
    by_cases hback : c = '\\' <;> simp [hback, hcq]

/-- A quote that is not escaped is closed. -/
theorem Scan.step_closing {q : Char} (hq : q = '"' ∨ q = '\'') (depth : Nat) :
    step ⟨false, some q, depth⟩ q = ⟨false, none, depth⟩ := by
  rcases hq with rfl | rfl <;> rfl

/-- What an open quote closes is read up to it, and nothing in it separates. -/
theorem Scan.passes_quoted {q : Char} (hq : q = '"' ∨ q = '\'') {read body : List Char}
    (h : ClosedBy q read body) (depth : Nat) :
    Passes separators ⟨isEscaped read, some q, depth⟩ (body ++ [q]) ⟨false, none, depth⟩ := by
  induction body generalizing read with
  | nil =>
    rw [closedBy_nil.mp h]
    exact ⟨by simp [separates], step_closing hq depth⟩
  | cons c body ih =>
    obtain ⟨hc, htail⟩ := closedBy_cons.mp h
    refine ⟨by simp [separates], ?_⟩
    rw [step_quoted hc]
    exact ih htail

/-- A well nested text is read at any depth: inside parentheses nothing separates, but no
parenthesis may be closed that was open before. -/
theorem WellNested.passes_at {stops : List Char} (h : WellNested stops cs) {depth : Nat}
    (hdepth : depth = 0 ∧ separators ⊆ stops ∨ 0 < depth ∧ ')' ∈ stops) :
    Scan.Passes separators ⟨false, none, depth⟩ cs ⟨false, none, depth⟩ := by
  induction h generalizing depth with
  | nil => rfl
  | @plain stops cs c hc hstop _ ih =>
    simp only [List.mem_cons, List.not_mem_nil, or_false, not_or] at hc
    obtain ⟨hback, hdouble, hsingle, hopen⟩ := hc
    refine ⟨?_, ?_⟩
    · rcases hdepth with ⟨-, hsub⟩ | ⟨hpos, -⟩
      · have hseparator : separators.contains c = false := by
          rw [List.contains_eq_mem, decide_eq_false_iff_not]
          exact fun hmem => hstop (hsub hmem)
        rw [Scan.separates, hseparator, Bool.and_false]
      · simp [Scan.separates, Nat.ne_of_gt hpos]
    · have hstep : Scan.step ⟨false, none, depth⟩ c = ⟨false, none, depth⟩ := by
        by_cases hclose : c = ')'
        · -- Behind no open parenthesis one more that closes changes nothing.
          subst hclose
          rcases hdepth with ⟨rfl, -⟩ | ⟨-, hmem⟩
          · rfl
          · exact absurd hmem hstop
        · simp [Scan.step, hback, hdouble, hsingle, hopen, hclose]
      rw [hstep]
      exact ih hdepth
  | escaped c _ ih => exact ⟨rfl, rfl, ih hdepth⟩
  | @quoted stops body cs q hq hbody _ ih =>
    have hopened : Scan.step ⟨false, none, depth⟩ q = ⟨isEscaped [], some q, depth⟩ := by
      rcases hq with rfl | rfl <;> rfl
    refine ⟨by rcases hq with rfl | rfl <;> rfl, ?_⟩
    rw [hopened, List.append_cons]
    exact (Scan.passes_quoted hq hbody depth).append (ih hdepth)
  | group _ _ ihinner ih =>
    have hinner := @ihinner (depth + 1) (.inr ⟨Nat.succ_pos depth, List.mem_singleton_self _⟩)
    refine ⟨by simp [Scan.separates], hinner.append ⟨by simp [Scan.separates], ih hdepth⟩⟩

/-- A well nested text is one part, and leads back to the state at the start. -/
theorem WellNested.passes (h : WellNested separators cs) :
    Scan.Passes separators {} cs {} :=
  h.passes_at (.inl ⟨rfl, List.Subset.refl _⟩)

/-! ### What the scan accepts is well nested -/

/-- A quote that is open is closed, when no quote is open in the end. -/
theorem Scan.Passes.exists_quoted {q : Char} (hq : q = '"' ∨ q = '\'') {read : List Char}
    {depth : Nat} (h : Passes separators ⟨isEscaped read, some q, depth⟩ cs s')
    (hend : s'.quote = none) :
    ∃ body rest, cs = body ++ q :: rest ∧ ClosedBy q read body ∧
      Passes separators ⟨false, none, depth⟩ rest s' := by
  induction cs generalizing read with
  | nil =>
    obtain rfl : _ = s' := h
    cases hend
  | cons c cs ih =>
    obtain ⟨-, h⟩ := h
    by_cases hc : c = q → isEscaped read = true
    · rw [step_quoted hc] at h
      obtain ⟨body, rest, rfl, hclosed, hrest⟩ := ih h
      exact ⟨c :: body, rest, rfl, closedBy_cons.mpr ⟨hc, hclosed⟩, hrest⟩
    · obtain ⟨rfl, hread⟩ := Classical.not_imp.mp hc
      rw [Bool.not_eq_true] at hread
      rw [hread, step_closing hq] at h
      exact ⟨[], cs, rfl, closedBy_nil.mpr hread, h⟩

/-- Outside of quotes, a text that leads back to the start begins with one of five things. -/
theorem Scan.Passes.cases_cons {c : Char} {depth : Nat} (hparen : ')' ∉ separators)
    (h : Passes separators ⟨false, none, depth⟩ (c :: cs) {}) :
    (∃ d rest, c = '\\' ∧ cs = d :: rest ∧ Passes separators ⟨false, none, depth⟩ rest {}) ∨
    (∃ body rest, (c = '"' ∨ c = '\'') ∧ cs = body ++ c :: rest ∧ ClosedBy c [] body ∧
      Passes separators ⟨false, none, depth⟩ rest {}) ∨
    (c = '(' ∧ Passes separators ⟨false, none, depth + 1⟩ cs {}) ∨
    (∃ outer, c = ')' ∧ depth = outer + 1 ∧ Passes separators ⟨false, none, outer⟩ cs {}) ∨
    c ∉ ['\\', '"', '\'', '('] ∧ (c = ')' → depth = 0) ∧ (depth = 0 → c ∉ separators) ∧
      Passes separators ⟨false, none, depth⟩ cs {} := by
  obtain ⟨hseparates, h⟩ := h
  -- By the first character, in the order in which the scan looks at it.
  by_cases hback : c = '\\'
  · subst hback
    cases cs with
    | nil => cases (show Scan.mk true none depth = {} from h)
    | cons d rest => exact .inl ⟨d, rest, rfl, rfl, h.2⟩
  by_cases hquote : c = '"' ∨ c = '\''
  · have hstep : step ⟨false, none, depth⟩ c = ⟨isEscaped [], some c, depth⟩ := by
      rcases hquote with rfl | rfl <;> rfl
    rw [hstep] at h
    obtain ⟨body, rest, hcs, hclosed, hrest⟩ := h.exists_quoted hquote rfl
    exact .inr (.inl ⟨body, rest, hquote, hcs, hclosed, hrest⟩)
  obtain ⟨hdouble, hsingle⟩ := not_or.mp hquote
  by_cases hopen : c = '('
  · subst hopen
    exact .inr (.inr (.inl ⟨rfl, h⟩))
  by_cases hclose : c = ')' ∧ depth ≠ 0
  · obtain ⟨rfl, hdepth⟩ := hclose
    obtain ⟨outer, rfl⟩ := Nat.exists_eq_succ_of_ne_zero hdepth
    exact .inr (.inr (.inr (.inl ⟨outer, rfl, rfl, h⟩)))
  have hclose' : c = ')' → depth = 0 := fun heq => by_contra fun hne => hclose ⟨heq, hne⟩
  have hstep : step ⟨false, none, depth⟩ c = ⟨false, none, depth⟩ := by
    by_cases heq : c = ')'
    · rw [heq, hclose' heq]
      rfl
    · simp [step, hback, hdouble, hsingle, hopen, heq]
  rw [hstep] at h
  refine .inr (.inr (.inr (.inr ⟨by simp [hback, hdouble, hsingle, hopen], hclose', ?_, h⟩)))
  rintro rfl hmem
  have hne : c ≠ ')' := by
    rintro rfl
    exact hparen hmem
  simp [separates, hback, hdouble, hsingle, hopen, hne, hmem] at hseparates

/-- A parenthesis that is open is closed, when none is open in the end. -/
theorem Scan.Passes.exists_group (hparen : ')' ∉ separators) {depth : Nat}
    (h : Passes separators ⟨false, none, depth + 1⟩ cs {}) :
    ∃ inner rest, cs = inner ++ ')' :: rest ∧ WellNested [')'] inner ∧
      Passes separators ⟨false, none, depth⟩ rest {} := by
  induction hlength : cs.length using Nat.strongRecOn generalizing cs depth with
  | ind length ih =>
    subst hlength
    cases cs with
    | nil => cases (show Scan.mk false none (depth + 1) = {} from h)
    | cons c cs =>
      have hsmaller : ∀ rest : List Char, rest.length ≤ cs.length →
          rest.length < (c :: cs).length := fun rest => Nat.lt_succ_of_le
      rcases h.cases_cons hparen with ⟨d, rest, rfl, rfl, hrest⟩ |
        ⟨body, rest, hq, rfl, hbody, hrest⟩ | ⟨rfl, hrest⟩ | ⟨outer, rfl, houter, hrest⟩ |
        ⟨hc, hclose, -, hrest⟩
      · obtain ⟨inner, rest, rfl, hinner, hclosed⟩ := ih _ (hsmaller _ (by simp)) hrest rfl
        exact ⟨'\\' :: d :: inner, rest, rfl, .escaped d hinner, hclosed⟩
      · obtain ⟨inner, rest, rfl, hinner, hclosed⟩ :=
          ih _ (hsmaller _ (by simp; omega)) hrest rfl
        exact ⟨c :: (body ++ c :: inner), rest, by simp, .quoted hq hbody hinner, hclosed⟩
      · -- The inner parenthesis is closed first, then the outer one.
        obtain ⟨group, rest, rfl, hgroup, hrest⟩ := ih _ (hsmaller _ (Nat.le_refl _)) hrest rfl
        obtain ⟨inner, rest, rfl, hinner, hclosed⟩ :=
          ih _ (hsmaller _ (by simp; omega)) hrest rfl
        exact ⟨'(' :: (group ++ ')' :: inner), rest, by simp, .group hgroup hinner, hclosed⟩
      · obtain rfl := Nat.succ.inj houter
        exact ⟨[], cs, rfl, .nil, hrest⟩
      · obtain ⟨inner, rest, rfl, hinner, hclosed⟩ := ih _ (hsmaller _ (Nat.le_refl _)) hrest rfl
        have hstop : c ∉ [')'] := fun hmem => nomatch hclose (List.mem_singleton.mp hmem)
        exact ⟨c :: inner, rest, rfl, .plain hc hstop hinner, hclosed⟩

/-- **The scan reads texts as they are nested.** It leads from the start to the start again, and
finds no separator on the way, exactly when a text is well nested. -/
theorem wellNested_iff_passes (hparen : ')' ∉ separators) :
    WellNested separators cs ↔ Scan.Passes separators {} cs {} := by
  refine ⟨WellNested.passes, fun h => ?_⟩
  -- A quoted part or a group takes many characters at once, hence the strong induction.
  induction hlength : cs.length using Nat.strongRecOn generalizing cs with
  | ind length ih =>
    subst hlength
    cases cs with
    | nil => exact .nil
    | cons c cs =>
      rcases h.cases_cons hparen with ⟨d, rest, rfl, rfl, hrest⟩ |
        ⟨body, rest, hq, rfl, hbody, hrest⟩ | ⟨rfl, hrest⟩ | ⟨outer, -, houter, -⟩ |
        ⟨hc, -, hstop, hrest⟩
      · exact .escaped d (ih _ (by rw [List.length_cons, List.length_cons]; omega) hrest rfl)
      · exact .quoted hq hbody (ih _ (by simp; omega) hrest rfl)
      · obtain ⟨inner, rest, rfl, hinner, hrest⟩ := hrest.exists_group hparen
        exact .group hinner (ih _ (by simp; omega) hrest rfl)
      · cases houter
      · exact .plain hc (hstop rfl) (ih _ (Nat.lt_succ_self _) hrest rfl)

/-! ### Joined parts -/

variable {last : Bool} {current : List Char}

theorem splitFrom_append (h : s.Passes separators cs s') (rest : List Char) :
    splitFrom separators last s current (cs ++ rest) =
      splitFrom separators last s' (current ++ cs) rest := by
  induction cs generalizing s current with
  | nil =>
    obtain rfl : s = s' := h
    rw [List.nil_append, List.append_nil]
  | cons c cs ih =>
    rw [List.cons_append, splitFrom, if_neg (by rw [h.1]; decide), ih h.2, List.append_assoc,
      List.singleton_append]

/-- A part of a list: it has a character, no blanks around it, and is well nested without one of the
separators outside. -/
structure IsPart (separators part : List Char) : Prop where
  ne_nil : part ≠ []
  trim_eq : trim part = part
  nested : WellNested separators part

theorem isPart_iff (hparen : ')' ∉ separators) {part : List Char} :
    IsPart separators part ↔
      part ≠ [] ∧ trim part = part ∧ Scan.Passes separators {} part {} := by
  rw [← wellNested_iff_passes hparen]
  exact ⟨fun h => ⟨h.ne_nil, h.trim_eq, h.nested⟩, fun h => ⟨h.1, h.2.1, h.2.2⟩⟩

theorem wellNested_of_blank (hseparators : ∀ c ∈ separators, isBlank c = false)
    (hcs : ∀ c ∈ cs, isBlank c = true) : WellNested separators cs := by
  induction cs with
  | nil => exact .nil
  | cons c cs ih =>
    obtain ⟨hc, hcs⟩ := List.forall_mem_cons.mp hcs
    refine .plain ?_ (fun hmem => ?_) (ih hcs)
    · simp only [List.mem_cons, List.not_mem_nil, or_false, not_or]
      refine ⟨?_, ?_, ?_, ?_⟩ <;> rintro rfl <;> exact absurd hc (by decide)
    · rw [hseparators c hmem] at hc
      cases hc

/-- Parts are read back that were joined by a separator with blanks behind it. -/
theorem splitFrom_intercalate {c : Char} (hc : c ∉ ['\\', '"', '\'', '(', ')'])
    (hblank : isBlank c = false) {blanks : List Char} (hblanks : ∀ d ∈ blanks, isBlank d = true)
    {front : List Char} (hfront : ∀ d ∈ front, isBlank d = true) {parts : List (List Char)}
    (hne : parts ≠ []) (hparts : ∀ part ∈ parts, IsPart [c] part) :
    splitFrom [c] true {} front ((c :: blanks).intercalate parts) = parts := by
  induction parts generalizing front with
  | nil => exact absurd rfl hne
  | cons part parts ih =>
    obtain ⟨hpart, hparts⟩ := List.forall_mem_cons.mp hparts
    have hend : trim (front ++ part) = part := (trim_append hfront part).trans hpart.trim_eq
    -- The last part ends with the text; every other one ends at a separator, with blanks to trim
    -- behind it.
    cases parts with
    | nil =>
      rw [List.intercalate_singleton, ← List.append_nil part, splitFrom_append hpart.nested.passes,
        List.append_nil, splitFrom, if_pos (by simp), hend]
    | cons next parts =>
      have hseparates : Scan.separates {} [c] c = true := by
        simp only [List.mem_cons, List.not_mem_nil, or_false, not_or] at hc
        simp [Scan.separates, hc]
      have hspaces : WellNested [c] blanks :=
        wellNested_of_blank (List.forall_mem_singleton.mpr hblank) hblanks
      rw [List.intercalate_cons_cons, List.append_assoc, splitFrom_append hpart.nested.passes,
        List.cons_append, splitFrom, if_pos hseparates, if_neg (by simp [hpart.ne_nil]), hend,
        splitFrom_append hspaces.passes, List.nil_append, ih hblanks (List.cons_ne_nil _ _) hparts]

theorem map_toList_split (s : String) (separators : List Char) (last : Bool) :
    (split s separators last).map String.toList = splitFrom separators last {} [] s.toList := by
  have hid : String.toList ∘ String.ofList = id := funext fun _ => String.toList_ofList
  rw [split, List.map_map, hid, List.map_id]

theorem commaParts_eq_iff {joined : String} {parts : List String} :
    commaParts joined = parts ↔
      splitFrom [','] true {} [] joined.toList = parts.map String.toList := by
  rw [commaParts, ← map_toList_split]
  exact (List.map_injective_iff.mpr fun _ _ => String.toList_inj.mp).eq_iff.symm

/-- **Dividing undoes joining.** Parts that are joined by a comma with any blanks behind it are read
back. -/
theorem commaParts_intercalate {parts : List String} (hne : parts ≠ [])
    (hparts : ∀ part ∈ parts, IsPart [','] part.toList) {blanks : String}
    (hblanks : ∀ c ∈ blanks.toList, isBlank c = true) :
    commaParts (("," ++ blanks).intercalate parts) = parts := by
  have hne' : parts.map String.toList ≠ [] := fun hnil => hne (List.map_eq_nil_iff.mp hnil)
  rw [commaParts_eq_iff, String.toList_intercalate, String.toList_append]
  exact splitFrom_intercalate (by decide) (by decide) hblanks (List.forall_mem_nil _) hne'
    (List.forall_mem_map.mpr hparts)

/-- A comma in parentheses, one in quotes, one behind a backslash, and a parenthesis that closes
nothing. -/
theorem commaParts_intercalate_nested :
    let parts := [":is(b, ')')", "[x=',']", "\\,d)"]
    (∀ part ∈ parts, IsPart [','] part.toList) ∧
      commaParts (("," ++ "\n ").intercalate parts) = parts := by
  intro parts
  have hparts : ∀ part ∈ parts, IsPart [','] part.toList := by
    simp only [isPart_iff (show ')' ∉ [','] by decide)]
    decide
  have hblanks : ∀ c ∈ "\n ".toList, isBlank c = true :=
    List.all_eq_true.mp (by decide : "\n ".toList.all isBlank = true)
  exact ⟨hparts, commaParts_intercalate (List.cons_ne_nil _ _) hparts hblanks⟩

/-! ### Nothing is lost -/

/-- The characters that do not separate. -/
def Scan.kept (separators : List Char) (s : Scan) : List Char → List Char
  | [] => []
  | c :: cs =>
    if s.separates separators c then s.kept separators cs
    else c :: (s.step c).kept separators cs

/-- Blanks apart, the parts have all characters that do not separate, in order. -/
theorem filter_flatten_splitFrom (separators : List Char) (last : Bool) (s : Scan)
    (current cs : List Char) :
    (splitFrom separators last s current cs).flatten.filter (fun c => !isBlank c) =
      (current ++ s.kept separators cs).filter fun c => !isBlank c := by
  induction cs generalizing s current with
  | nil =>
    rw [splitFrom, Scan.kept, List.append_nil]
    split_ifs with h
    · rw [List.flatten_singleton, filter_trim]
    · simp only [Bool.or_eq_true, Bool.not_eq_true', not_or, Bool.not_eq_false,
        List.isEmpty_iff] at h
      rw [h.2, List.flatten_nil]
  | cons c cs ih =>
    rw [splitFrom, Scan.kept]
    split_ifs with hseparates hempty
    · rw [ih, List.isEmpty_iff.mp hempty]
    · rw [List.flatten_cons, List.filter_append, filter_trim, ih, List.nil_append,
        List.filter_append]
    · rw [ih, List.append_assoc, List.singleton_append]

/-- A character that is no separator is kept wherever it stands. -/
theorem Scan.count_kept {c : Char} (hc : c ∉ separators) (s : Scan) (cs : List Char) :
    (s.kept separators cs).count c = cs.count c := by
  induction cs generalizing s with
  | nil => rfl
  | cons d cs ih =>
    rw [kept]
    split_ifs with hseparates
    · have hne : d ≠ c := by
        rintro rfl
        refine hc ?_
        simp only [separates, Bool.and_eq_true, List.contains_iff_mem] at hseparates
        exact hseparates.2
      rw [ih, List.count_cons_of_ne hne]
    · rw [List.count_cons, List.count_cons, ih]

/-- The parts have each character that is neither a blank nor a separator as often as the text. -/
theorem count_flatten_splitFrom {c : Char} (hblank : isBlank c = false) (hc : c ∉ separators)
    (last : Bool) (s : Scan) (current cs : List Char) :
    (splitFrom separators last s current cs).flatten.count c = current.count c + cs.count c := by
  have hcount : ∀ ds : List Char, (ds.filter fun d => !isBlank d).count c = ds.count c :=
    fun ds => List.count_filter (by rw [hblank]; rfl)
  rw [← hcount, filter_flatten_splitFrom, hcount, List.count_append, Scan.count_kept hc]

theorem count_intercalate (c : Char) (joint : List Char) (parts : List (List Char)) :
    (joint.intercalate parts).count c =
      parts.flatten.count c + (parts.length - 1) * joint.count c := by
  induction parts with
  | nil => simp
  | cons part parts ih =>
    cases parts with
    | nil => simp
    | cons next parts =>
      have hjoints : ((part :: next :: parts).length - 1) * joint.count c =
          ((next :: parts).length - 1) * joint.count c + joint.count c :=
        Nat.add_one_mul parts.length (joint.count c)
      have hflatten : (part :: next :: parts).flatten = part ++ (next :: parts).flatten :=
        List.flatten_cons
      rw [List.intercalate_cons_cons, List.count_append, List.count_append, ih, hjoints, hflatten,
        List.count_append]
      omega

/-- Two parts or more are not read back when a character stands in what joined them that is neither
a blank nor a separator. -/
theorem splitFrom_intercalate_ne {c : Char} (hblank : isBlank c = false) (hc : c ∉ separators)
    {joint : List Char} (hjoint : c ∈ joint) {parts : List (List Char)} (hparts : 2 ≤ parts.length)
    (last : Bool) : splitFrom separators last {} [] (joint.intercalate parts) ≠ parts := by
  intro heq
  have hcount := count_flatten_splitFrom hblank hc last {} [] (joint.intercalate parts)
  rw [heq, count_intercalate, List.count_nil, Nat.zero_add] at hcount
  have hpos : 0 < (parts.length - 1) * joint.count c :=
    Nat.mul_pos (by omega) (List.count_pos_iff.mpr hjoint)
  omega

end Stylesheet.Text
