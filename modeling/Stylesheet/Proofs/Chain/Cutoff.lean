import Stylesheet.Proofs.Chain.Tokens
import Stylesheet.Proofs.Text.Cut
import Stylesheet.Proofs.Token.Ends

/-!
# Tokens in front of white space or a semicolon

A text whose last token is white space or a semicolon has the same other tokens without it
(`lexFrom_front`). For one token this is `cutToken_front`: what was left is not needed to find out
what is taken. There is one exception. Whether a parenthesis behind the word `url` opens a group
depends on the character behind it, so such a parenthesis must not come last.
-/

namespace Stylesheet

open Text

/-- The text starts with white space or a semicolon. -/
def Separates (tail : List Char) : Prop :=
  ∃ c rest, tail = c :: rest ∧ (isSpace c = true ∨ c = ';')

/-- A cut that leaves a whole text takes nothing from it. -/
theorem Cut.eq_of_suffix {cut : Cut} {cs : List Char} (htiles : cut.taken ++ cut.rest = cs)
    (hleft : cs <:+ cut.rest) : cut = ⟨[], cs⟩ := by
  have hrest : cut.rest = cs :=
    (List.IsSuffix.eq_of_length hleft
      (Nat.le_antisymm hleft.length_le (by rw [← htiles, List.length_append]; omega))).symm
  rw [hrest] at htiles
  have htaken : cut.taken = [] := List.append_left_eq_self.mp htiles
  rw [← hrest, ← htaken]

namespace Separates

variable {tail : List Char}

theorem endsWord (h : Separates tail) : ∀ c ∈ tail.head?, endsWord c = true := by
  obtain ⟨c, rest, rfl, hc⟩ := h
  intro d hd
  obtain rfl : c = d := by simpa using hd
  rcases hc with hc | rfl
  · simp [Stylesheet.endsWord, hc]
  · rfl

theorem endsAtWord (h : Separates tail) : ∀ c ∈ tail.head?, (!endsAtWord c) = false := by
  obtain ⟨c, rest, rfl, hc⟩ := h
  intro d hd
  obtain rfl : c = d := by simpa using hd
  rcases hc with hc | rfl
  · simp [Stylesheet.endsAtWord, hc]
  · rfl

/-- A separator is no part of a character code, and no mark. -/
theorem plain (h : Separates tail) : ∀ c ∈ tail.head?,
    isHex c = false ∧ c ≠ '\\' ∧ c ≠ '*' := by
  obtain ⟨c, rest, rfl, hc⟩ := h
  intro d hd
  obtain rfl : c = d := by simpa using hd
  rcases hc with hc | rfl
  · simp only [isSpace, Bool.or_eq_true, beq_iff_eq] at hc
    rcases hc with (((rfl | rfl) | rfl) | rfl) | rfl <;> decide
  · decide

end Separates

/-! ### Groups -/

section

variable {front tail : List Char}

theorem cutClosed_front {close : Char} {escaped : Bool} {cut : Cut}
    (h : cutClosed close escaped (front ++ tail) = some cut) (hleft : tail <:+ cut.rest) :
    ∃ d, cutClosed close escaped front = some d ∧ cut = d.extend tail := by
  induction front generalizing escaped cut with
  | nil =>
    -- The closing character was taken from the tail.
    have hlast := getLast?_cutClosed h
    rw [Cut.eq_of_suffix (cutClosed_append h) hleft] at hlast
    cases hlast
  | cons c front ih =>
    rw [List.cons_append, cutClosed] at h
    rw [cutClosed]
    split_ifs at h ⊢ with hclose
    · cases h
      exact ⟨_, rfl, rfl⟩
    · obtain ⟨inner, hinner, rfl⟩ := Option.map_eq_some_iff.mp h
      obtain ⟨d, hd, rfl⟩ := ih hinner hleft
      exact ⟨_, by rw [hd]; rfl, rfl⟩

theorem cutGroup_front {cut : Cut} (h : cutGroup (front ++ tail) = some cut)
    (hleft : tail <:+ cut.rest) : ∃ d, cutGroup front = some d ∧ cut = d.extend tail := by
  induction front generalizing cut with
  | nil =>
    have hlast := getLast?_cutGroup h
    rw [Cut.eq_of_suffix (cutGroup_append h) hleft] at hlast
    cases hlast
  | cons c front ih =>
    rw [List.cons_append, cutGroup] at h
    rw [cutGroup]
    split_ifs at h ⊢ with hclose hbreak
    · cases h
      exact ⟨_, rfl, rfl⟩
    · obtain ⟨inner, hinner, rfl⟩ := Option.map_eq_some_iff.mp h
      obtain ⟨d, hd, rfl⟩ := ih hinner hleft
      exact ⟨_, by rw [hd]; rfl, rfl⟩

/-- What is no group in a text is none at its front. -/
theorem cutGroup_front_eq_none (h : cutGroup (front ++ tail) = none) : cutGroup front = none := by
  induction front with
  | nil => rfl
  | cons c front ih =>
    rw [List.cons_append, cutGroup] at h
    rw [cutGroup]
    split_ifs at h ⊢ with hclose hbreak
    · rfl
    · rw [ih (by simpa using h)]
      rfl

theorem cutParen_front {word : String} {lexeme : Lexeme}
    (h : cutParen false word (front ++ tail) = .ok lexeme) (hleft : tail <:+ lexeme.cut.rest)
    (hparen : lexeme.kind = .openParen → front ≠ []) :
    ∃ l, cutParen false word front = .ok l ∧ lexeme = l.extend tail := by
  simp only [cutParen, Bool.false_eq_true, ↓reduceIte] at h ⊢
  -- The character behind the parenthesis is one of the front.
  have hfront : front ≠ [] := by
    rintro rfl
    rw [List.nil_append] at h
    split_ifs at h
    · cases hcut : cutClosed ')' false tail with
      | none => rw [hcut] at h; cases h
      | some cut =>
        rw [hcut] at h
        cases h
        obtain ⟨d, hd, -⟩ := @cutClosed_front [] tail ')' false cut hcut hleft
        cases hd
    · cases hcut : cutGroup tail with
      | none =>
        rw [hcut] at h
        cases h
        exact hparen rfl rfl
      | some cut =>
        rw [hcut] at h
        cases h
        obtain ⟨d, hd, -⟩ := @cutGroup_front [] tail cut hcut hleft
        cases hd
  rw [List.head?_append_of_ne_nil _ hfront] at h
  split_ifs at h ⊢ with hverbatim
  · cases hcut : cutClosed ')' false (front ++ tail) with
    | none => rw [hcut] at h; cases h
    | some cut =>
      rw [hcut] at h
      cases h
      obtain ⟨d, hd, rfl⟩ := cutClosed_front hcut hleft
      exact ⟨_, by rw [hd], rfl⟩
  · cases hcut : cutGroup (front ++ tail) with
    | none =>
      rw [hcut] at h
      cases h
      exact ⟨_, by rw [cutGroup_front_eq_none hcut], rfl⟩
    | some cut =>
      rw [hcut] at h
      cases h
      obtain ⟨d, hd, rfl⟩ := cutGroup_front hcut hleft
      exact ⟨_, by rw [hd], rfl⟩

theorem cutString_front {quote : Char} {lexeme : Lexeme}
    (h : cutString false quote (front ++ tail) = .ok lexeme) (hleft : tail <:+ lexeme.cut.rest) :
    ∃ l, cutString false quote front = .ok l ∧ lexeme = l.extend tail := by
  rw [cutString] at h ⊢
  cases hcut : cutClosed quote false (front ++ tail) with
  | none => rw [hcut] at h; cases h
  | some cut =>
    rw [hcut] at h
    cases h
    obtain ⟨d, hd, rfl⟩ := cutClosed_front hcut hleft
    exact ⟨_, by rw [hd], rfl⟩

/-! ### Comments and words -/

theorem splitAt?_front {mark found rest : List Char} (hmark : mark ≠ [])
    (h : splitAt? mark (front ++ tail) = some (found, rest)) (hleft : tail <:+ rest) :
    ∃ left, splitAt? mark front = some (found, left) ∧ rest = left ++ tail := by
  induction front generalizing found with
  | nil =>
    have hlen := congrArg List.length (splitAt?_eq_some h)
    have hpos := List.length_pos_iff.mpr hmark
    have hle := hleft.length_le
    simp only [List.nil_append, List.length_append] at hlen
    omega
  | cons c front ih =>
    rw [List.cons_append, splitAt?] at h
    rw [splitAt?]
    cases hafter : after? mark (c :: (front ++ tail)) with
    | some left =>
      rw [hafter] at h
      cases h
      obtain ⟨left, rfl⟩ := hleft
      have hsplit := after?_eq_some hafter
      rw [← List.cons_append, ← List.append_assoc] at hsplit
      refine ⟨left, ?_, rfl⟩
      rw [after?_eq_some_iff.mpr (List.append_cancel_right hsplit)]
    | none =>
      rw [hafter] at h
      obtain ⟨⟨f, r⟩, hr, hfound⟩ := Option.map_eq_some_iff.mp h
      cases hfound
      -- A mark at the front of the shorter text would stand in the longer one as well.
      have hnone : after? mark (c :: front) = none := by
        by_contra hsome
        obtain ⟨left, hleft⟩ := Option.ne_none_iff_exists'.mp hsome
        have hsplit := after?_eq_some hleft
        rw [← List.cons_append, hsplit, List.append_assoc, after?_append] at hafter
        cases hafter
      obtain ⟨left, hfront, rfl⟩ := ih hr
      exact ⟨left, by rw [hnone, hfront]; rfl, rfl⟩

theorem cutComment_front {lexeme : Lexeme} (h : cutComment false (front ++ tail) = .ok lexeme)
    (hleft : tail <:+ lexeme.cut.rest) :
    ∃ l, cutComment false front = .ok l ∧ lexeme = l.extend tail := by
  rw [cutComment] at h ⊢
  cases hsplit : splitAt? ['*', '/'] (front ++ tail) with
  | none => rw [hsplit] at h; cases h
  | some parts =>
    obtain ⟨text, rest⟩ := parts
    rw [hsplit] at h
    cases h
    obtain ⟨left, hfront, rfl⟩ := splitAt?_front (List.cons_ne_nil _ _) hsplit hleft
    exact ⟨_, by rw [hfront], rfl⟩

theorem cutEscaped_front (htail : Separates tail)
    (hleft : tail <:+ (cutEscaped (front ++ tail)).rest) :
    cutEscaped (front ++ tail) = (cutEscaped front).extend tail := by
  have hhex : ∀ c ∈ tail.head?, isHex c = false := fun c hc => (htail.plain c hc).1
  cases front with
  | nil =>
    exact Cut.eq_of_suffix (cutEscaped_append tail) hleft
  | cons c front =>
    rw [List.cons_append, cutEscaped] at hleft
    rw [List.cons_append, cutEscaped, cutEscaped]
    split_ifs at hleft ⊢ with hspace hdigit
    · rfl
    · dsimp only at hleft ⊢
      rw [dropWhile_append_of_stop hhex] at hleft
      rw [takeWhile_append_of_stop hhex, dropWhile_append_of_stop hhex]
      cases hdrop : front.dropWhile isHex with
      | cons d ds =>
        rw [List.cons_append]
        dsimp only
        split_ifs <;> rfl
      | nil =>
        -- A blank that ends the code would be taken from the tail.
        rw [hdrop, List.nil_append] at hleft
        obtain ⟨d, ds, rfl, -⟩ := htail
        rw [List.nil_append]
        dsimp only at hleft ⊢
        split_ifs at hleft ⊢ with hblank
        · have hle := hleft.length_le
          simp only [List.length_cons] at hle
          omega
        · rfl
    · rfl

theorem cutBackslashes_front (htail : Separates tail) {odd : Bool}
    (hleft : tail <:+ (cutBackslashes odd (front ++ tail)).rest) :
    cutBackslashes odd (front ++ tail) = (cutBackslashes odd front).extend tail := by
  induction front generalizing odd with
  | nil => exact Cut.eq_of_suffix (cutBackslashes_append odd tail) hleft
  | cons c front ih =>
    rw [List.cons_append, cutBackslashes] at hleft
    rw [List.cons_append, cutBackslashes, cutBackslashes]
    split_ifs at hleft ⊢ with hback hodd
    · rw [ih hleft]
      rfl
    · exact @cutEscaped_front (c :: front) tail htail hleft
    · rfl

/-- White space that leaves a text ends in front of it, and of every text that starts alike. -/
theorem cutWhile_front {p : Char → Bool} {c : Char} {more : List Char}
    (hleft : tail <:+ (cutWhile p c (front ++ tail)).rest) (hhead : more.head? = tail.head?) :
    cutWhile p c (front ++ more) = (cutWhile p c front).extend more := by
  by_cases hrest : (cutWhile p c front).rest = []
  · have hall : ∀ d ∈ front, p d = true := List.dropWhile_eq_nil_iff.mp hrest
    refine cutWhile_append (fun d hd => ?_) c front
    rw [hhead] at hd
    cases tail with
    | nil => cases hd
    | cons e rest =>
      obtain rfl : e = d := by simpa using hd
      -- Otherwise the first character would have been taken.
      by_contra hp
      rw [cutWhile, List.dropWhile_append_of_pos hall,
        List.dropWhile_cons_of_pos (by simpa using hp)] at hleft
      have hle : (e :: rest).length ≤ (rest.dropWhile p).length := hleft.length_le
      have hlen := (List.dropWhile_suffix p (l := rest)).length_le
      rw [List.length_cons] at hle
      omega
  · exact cutWhile_append_of_ne_nil hrest more

/-- A token is the same without what it leaves, when that starts with white space or a
semicolon. -/
theorem cutToken_front (htail : Separates tail) {word : String} {c : Char} {lexeme : Lexeme}
    (h : cutToken false word c (front ++ tail) = .ok lexeme) (hleft : tail <:+ lexeme.cut.rest)
    (hparen : lexeme.kind = .openParen → front ≠ []) :
    ∃ l, cutToken false word c front = .ok l ∧ lexeme = l.extend tail := by
  have hhead : ((front ++ tail).head? == some '*') = (front.head? == some '*') := by
    cases front with
    | cons d ds => rfl
    | nil =>
      cases hd : tail.head? with
      | none => simp [hd]
      | some d => simpa [hd] using (htail.plain d hd).2.2
  unfold cutToken at h ⊢
  rw [hhead] at h
  cases hp : punctuation? c with
  | some kind =>
    rw [hp] at h
    cases h
    exact ⟨_, rfl, rfl⟩
  | none =>
    rw [hp] at h
    dsimp only at h ⊢
    split_ifs at h ⊢ with hs hp hquote hat hback hcomment
    · cases h
      exact ⟨_, rfl, by rw [cutWhile_front hleft rfl]; rfl⟩
    · exact cutParen_front h hleft hparen
    · exact cutString_front h hleft
    · cases h
      exact ⟨_, rfl, by rw [cutWhile_append htail.endsAtWord]; rfl⟩
    · cases h
      exact ⟨_, rfl, by rw [cutBackslashes_front htail hleft]; rfl⟩
    · -- A comment has a second character.
      cases front with
      | nil => simp at hcomment
      | cons d ds => exact cutComment_front h hleft
    · cases h
      exact ⟨_, rfl, by rw [cutWord_behind htail.endsWord]; rfl⟩

end

/-! ### Whole texts -/

theorem lexFrom_separates (words : List String) (offset : Nat) (cs : List Char) :
    ∀ t ∈ (lexFrom false words offset cs).1, t.kind = .space ∨ t.kind = .semicolon →
      Separates t.text.toList := by
  rintro t ht (hkind | hkind)
  · obtain ⟨word, c, ds, lexeme, h, hcut, htext⟩ := exists_cutToken_of_mem_lexFrom ht
    obtain ⟨d, es, htaken⟩ := List.exists_cons_of_ne_nil (cutToken_tiles h).2
    have htiles := (cutToken_tiles h).1
    rw [htaken] at htiles
    obtain ⟨rfl, -⟩ := List.cons.inj htiles
    exact ⟨d, es, htext.trans htaken, Or.inl (isSpace_of_cutToken h (hcut ▸ hkind))⟩
  · rw [(lexFrom_spelled words offset cs t ht).text_of_semicolon hkind]
    exact ⟨';', [], rfl, Or.inr rfl⟩

theorem eq_nil_of_lexFrom {words : List String} {offset : Nat} {cs : List Char}
    (h : lexFrom false words offset cs = ([], none)) : cs = [] := by
  have hjoin := join_lexFrom false words offset cs (by rw [h])
  rw [h] at hjoin
  have hchars := congrArg String.toList hjoin
  rwa [String.toList_ofList, eq_comm] at hchars

/-- A text whose last token is white space or a semicolon has the same tokens in front of that
without it. -/
theorem lexFrom_front {words : List String} {offset : Nat} {cs : List Char} {ts : List Token}
    {t : Token} (h : lexFrom false words offset cs = (ts ++ [t], none))
    (ht : t.kind = .space ∨ t.kind = .semicolon)
    (hparen : ∀ u ∈ ts.getLast?, u.kind ≠ .openParen) :
    ∃ front, cs = front ++ t.text.toList ∧ lexFrom false words offset front = (ts, none) := by
  have htail : Separates t.text.toList :=
    lexFrom_separates words offset cs t (by rw [h]; simp) ht
  fun_induction lexFrom false words offset cs generalizing ts with
  | case1 words offset => simp at h
  | case2 words offset c cs what hcut => exact absurd (congrArg Prod.snd h) (by simp)
  | case3 words offset c cs lexeme hcut hlt token tokens stopped hrest =>
    rename_i ih
    rw [Prod.mk.injEq] at h
    obtain ⟨htokens, rfl⟩ := h
    obtain ⟨d, taken, htaken⟩ := List.exists_cons_of_ne_nil (cutToken_tiles hcut).2
    have htiles := (cutToken_tiles hcut).1
    rw [htaken, List.cons_append] at htiles
    obtain ⟨rfl, rfl⟩ := List.cons.inj htiles
    cases ts with
    | nil =>
      obtain ⟨rfl, rfl⟩ := List.cons.inj htokens
      refine ⟨[], ?_, by rw [lexFrom]⟩
      rw [eq_nil_of_lexFrom hrest, List.append_nil, List.nil_append]
      show _ = (String.ofList lexeme.cut.taken).toList
      rw [String.toList_ofList, htaken]
    | cons u ts =>
      obtain ⟨rfl, rfl⟩ := List.cons.inj htokens
      obtain ⟨front, hfront, hlex⟩ := ih hrest fun v hv => hparen v (by
        rw [List.getLast?_cons, Option.mem_def.mp hv]; rfl)
      -- The token does not need what was cut off behind the others.
      have hshort : ∃ l, cutToken false (words.head?.getD "") d (taken ++ front) = .ok l ∧
          lexeme = l.extend t.text.toList := by
        refine cutToken_front htail ?_ ⟨front, hfront.symm⟩ fun hkind hnil => ?_
        · rw [List.append_assoc, ← hfront]
          exact hcut
        · rw [(List.append_eq_nil_iff.mp hnil).2, lexFrom] at hlex
          cases hlex
          exact hparen token rfl hkind
      obtain ⟨l, hl, rfl⟩ := hshort
      have hleft : l.cut.rest = front := List.append_cancel_right hfront
      refine ⟨d :: (taken ++ front), ?_, ?_⟩
      · rw [List.cons_append, List.append_assoc, ← hfront]
      · rw [lexFrom_of_ok hl, hleft]
        rw [wordsAfter_extend] at hlex
        exact congrArg (fun p : List Token × Option Unclosed => (token :: p.1, p.2)) hlex

end Stylesheet
