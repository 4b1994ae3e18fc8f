import Stylesheet.Proofs.Chain.Cutoff
import Stylesheet.Proofs.Token.Parens

/-!
# Tokens in front of an at-sign

The lexer looks ahead of a token. Where the next token starts with an at-sign, nothing behind that
sign matters for the tokens in front of it (`lexFrom_ahead`), with one exception: a parenthesis is
a token of its own when no group is closed behind it, so each of these has to be closed in front of
the at-sign (`ParensClose`).
-/

namespace Stylesheet

open Text

/-! ### Groups -/

section

variable {front more : List Char} {cut : Cut}

theorem cutGroup_append_of_some (h : cutGroup front = some cut) (more : List Char) :
    cutGroup (front ++ more) = some (cut.extend more) := by
  obtain ⟨body, hbody, hfront, htaken⟩ := cutGroup_eq_some_iff.mp h
  refine cutGroup_eq_some_iff.mpr ⟨body, hbody, ?_, htaken⟩
  rw [hfront, List.append_assoc]
  rfl

/-- What breaks a group stands in front of the parenthesis that would close it. -/
theorem cutGroup_append_of_none (h : cutGroup front = none) (hclose : ')' ∈ front)
    (more : List Char) : cutGroup (front ++ more) = none := by
  induction front with
  | nil => cases hclose
  | cons c front ih =>
    rw [cutGroup] at h
    rw [List.cons_append, cutGroup]
    split_ifs at h ⊢ with hc hbreaks
    · rfl
    · have hne : ')' ≠ c := by
        rintro rfl
        exact hc rfl
      rw [Option.map_eq_none_iff] at h
      rw [ih h ((List.mem_cons.mp hclose).resolve_left hne)]
      rfl

/-- A parenthesis that is no token of its own starts a group that ends. -/
theorem close_mem_of_cutParen {word : String} {lexeme : Lexeme}
    (h : cutParen false word front = .ok lexeme) (hkind : lexeme.kind ≠ .openParen) :
    ')' ∈ front := by
  simp only [cutParen, Bool.false_eq_true, ↓reduceIte] at h
  -- Two ways to close a parenthesis: contents that are taken as they are, and a plain group.
  split_ifs at h with hverbatim
  · cases hcut : cutClosed ')' false front with
    | none => rw [hcut] at h; cases h
    | some cut =>
      rw [← cutClosed_append hcut]
      exact List.mem_append_left _ (List.mem_of_getLast? (getLast?_cutClosed hcut))
  · cases hcut : cutGroup front with
    | none =>
      rw [hcut] at h
      cases h
      exact absurd rfl hkind
    | some cut =>
      rw [← cutGroup_append hcut]
      exact List.mem_append_left _ (List.mem_of_getLast? (getLast?_cutGroup hcut))

/-- A parenthesis is read alike whatever follows, when a group ends behind it. -/
theorem cutParen_append {word : String} {lexeme : Lexeme}
    (h : cutParen false word front = .ok lexeme) (hclose : ')' ∈ front) (more : List Char) :
    cutParen false word (front ++ more) = .ok (lexeme.extend more) := by
  simp only [cutParen, Bool.false_eq_true, ↓reduceIte] at h ⊢
  rw [List.head?_append_of_ne_nil front (List.ne_nil_of_mem hclose)]
  split_ifs at h ⊢ with hverbatim
  · cases hcut : cutClosed ')' false front with
    | none => rw [hcut] at h; cases h
    | some cut =>
      rw [hcut] at h
      cases h
      rw [cutClosed_behind hcut]
      rfl
  · cases hcut : cutGroup front with
    | none =>
      rw [hcut] at h
      cases h
      rw [cutGroup_append_of_none hcut hclose]
      rfl
    | some cut =>
      rw [hcut] at h
      cases h
      rw [cutGroup_append_of_some hcut]
      rfl

end

/-! ### One token -/

section

variable {front more : List Char}

/-- A run of backslashes that ends in front of the at-sign ends there whatever follows it. -/
theorem cutBackslashes_ahead {odd : Bool}
    (hleft : '@' :: more <:+ (cutBackslashes odd (front ++ '@' :: more)).rest)
    (more' : List Char) :
    cutBackslashes odd (front ++ '@' :: more') =
      (cutBackslashes odd front).extend ('@' :: more') := by
  induction front generalizing odd with
  | nil =>
    cases odd with
    | false => rfl
    | true =>
      -- The at-sign would have been escaped.
      have hle : more.length + 1 ≤ more.length := hleft.length_le
      omega
  | cons c front ih =>
    rw [List.cons_append, cutBackslashes] at hleft
    rw [List.cons_append, cutBackslashes, cutBackslashes]
    split_ifs at hleft ⊢ with hback hodd
    · rw [ih hleft]
      rfl
    · refine cutEscaped_cons_append ?_ c front
      rintro d ⟨⟩
      decide
    · rfl

theorem cutParen_ahead {word : String} {lexeme : Lexeme}
    (h : cutParen false word (front ++ '@' :: more) = .ok lexeme)
    (hleft : '@' :: more <:+ lexeme.cut.rest) (hclose : lexeme.kind = .openParen → ')' ∈ front) :
    ∃ l : Lexeme, lexeme = l.extend ('@' :: more) ∧
      ∀ more', cutParen false word (front ++ '@' :: more') = .ok (l.extend ('@' :: more')) := by
  obtain ⟨l, hl, rfl⟩ := cutParen_front h hleft fun hkind => List.ne_nil_of_mem (hclose hkind)
  refine ⟨l, rfl, fun more' => cutParen_append hl ?_ _⟩
  by_cases hkind : l.kind = .openParen
  · exact hclose hkind
  · exact close_mem_of_cutParen hl hkind

/-- So does every token. -/
theorem cutToken_ahead {word : String} {c : Char} {lexeme : Lexeme}
    (h : cutToken false word c (front ++ '@' :: more) = .ok lexeme)
    (hleft : '@' :: more <:+ lexeme.cut.rest) (hclose : lexeme.kind = .openParen → ')' ∈ front) :
    ∃ l : Lexeme, lexeme = l.extend ('@' :: more) ∧
      ∀ more', cutToken false word c (front ++ '@' :: more') = .ok (l.extend ('@' :: more')) := by
  have hends : ∀ more' : List Char, ∀ d ∈ ('@' :: more').head?, endsWord d = true := by
    rintro more' d ⟨⟩
    rfl
  have hhead : ∀ more' : List Char,
      ((front ++ '@' :: more').head? == some '*') = (front.head? == some '*') := by
    intro more'
    cases front <;> rfl
  unfold cutToken at h ⊢
  simp only [hhead] at h ⊢
  cases hp : punctuation? c with
  | some kind =>
    rw [hp] at h
    cases h
    exact ⟨⟨kind, ⟨[c], front⟩⟩, rfl, fun _ => rfl⟩
  | none =>
    rw [hp] at h
    dsimp only at h ⊢
    split_ifs at h ⊢ with hs hparen hquote hat hback hcomment
    · cases h
      refine ⟨⟨.space, cutWhile isSpace c front⟩, ?_, fun more' => ?_⟩
      · rw [cutWhile_front hleft rfl]
        rfl
      · rw [cutWhile_front hleft (rfl : ('@' :: more').head? = _)]
        rfl
    · exact cutParen_ahead h hleft hclose
    · obtain ⟨l, hl, rfl⟩ := cutString_front h hleft
      exact ⟨l, rfl, fun more' => cutString_behind hl _⟩
    · cases h
      refine ⟨⟨.atWord, cutWhile (fun d => !endsAtWord d) c front⟩, ?_, fun more' => ?_⟩
      · rw [cutWhile_front hleft rfl]
        rfl
      · rw [cutWhile_front hleft (rfl : ('@' :: more').head? = _)]
        rfl
    · cases h
      refine ⟨⟨.word, ⟨c :: (cutBackslashes true front).taken, (cutBackslashes true front).rest⟩⟩,
        ?_, fun more' => ?_⟩
      · rw [cutBackslashes_ahead hleft]
        rfl
      · rw [cutBackslashes_ahead hleft]
        rfl
    · -- A comment has a second character.
      cases front with
      | nil => simp at hcomment
      | cons d ds =>
        obtain ⟨l, hl, rfl⟩ := cutComment_front h hleft
        exact ⟨l, rfl, fun more' => cutComment_behind hl _⟩
    · cases h
      refine ⟨⟨.word, ⟨c :: (cutWord front).taken, (cutWord front).rest⟩⟩, ?_, fun more' => ?_⟩
      · rw [cutWord_behind (hends more)]
        rfl
      · rw [cutWord_behind (hends more')]
        rfl

end

/-! ### Whole texts -/

theorem Token.mem_join {ts : List Token} {t : Token} {c : Char} (ht : t ∈ ts)
    (hc : c ∈ t.text.toList) : c ∈ (join ts).toList := by
  obtain ⟨front, back, rfl⟩ := List.append_of_mem ht
  rw [join_append, join_cons]
  simp [hc]

/-- A parenthesis that closes is a token of its own. -/
theorem taken_of_closeParen {word : String} {c : Char} {cs : List Char} {lexeme : Lexeme}
    (h : cutToken false word c cs = .ok lexeme) (hkind : lexeme.kind = .closeParen) :
    lexeme.cut.taken = [')'] := by
  cases FirstToken.of_cutToken h with
  | punctuation hc =>
    obtain rfl : _ = TokenKind.closeParen := hkind
    unfold punctuation? at hc
    split at hc <;> cases hc
    rfl
  | _ => cases hkind

/-- A closing parenthesis is a token of its own. -/
theorem lexFrom_closeParen (words : List String) (offset : Nat) (cs : List Char) :
    ∀ t ∈ (lexFrom false words offset cs).1, t.kind = .closeParen → t.text = ")" := by
  intro t ht hkind
  obtain ⟨word, c, ds, lexeme, h, hcut, htext⟩ := exists_cutToken_of_mem_lexFrom ht
  rw [← String.toList_inj, htext, taken_of_closeParen h (hcut ▸ hkind)]
  rfl

/-- Behind each parenthesis that opens stands one that closes. -/
def ParensClose : List Token → Prop
  | [] => True
  | t :: ts => (t.kind = .openParen → ∃ u ∈ ts, u.kind = .closeParen) ∧ ParensClose ts

/-- Tokens in front of an at-sign stay when something else stands behind the sign. -/
theorem lexFrom_ahead {words : List String} {offset : Nat} {more : List Char} {ts back : List Token}
    {stop : Option Unclosed} (hclose : ParensClose ts)
    (h : lexFrom false words offset ((Token.join ts).toList ++ '@' :: more) = (ts ++ back, stop))
    (more' : List Char) :
    lexFrom false words offset ((Token.join ts).toList ++ '@' :: more') =
      (ts ++ (lexFrom false (wordsBehind words ts) (offset + (Token.join ts).utf8ByteSize)
          ('@' :: more')).1,
        (lexFrom false (wordsBehind words ts) (offset + (Token.join ts).utf8ByteSize)
          ('@' :: more')).2) := by
  induction ts generalizing words offset with
  | nil => rfl
  | cons t ts ih =>
    obtain ⟨hparen, hclose⟩ := hclose
    have htexts : ∀ u ∈ t :: ts, u.kind = .closeParen → u.text = ")" := by
      intro u hu
      refine lexFrom_closeParen words offset ((Token.join (t :: ts)).toList ++ '@' :: more) u ?_
      rw [h]
      exact List.mem_append_left _ hu
    -- The first character is that of the token.
    obtain ⟨c, taken, htext⟩ : ∃ c taken, t.text.toList = c :: taken := by
      have hspelled : t.Spelled := lexFrom_spelled words offset _ t (by rw [h]; simp)
      exact List.exists_cons_of_ne_nil (TokenKind.Spells.ne_nil hspelled)
    have hchars : ∀ rest : List Char, (Token.join (t :: ts)).toList ++ rest =
        c :: (taken ++ (Token.join ts).toList ++ rest) := by
      intro rest
      rw [Token.join_cons, String.toList_append, htext]
      simp
    rw [hchars] at h ⊢
    cases hcut : cutToken false (words.head?.getD "") c
        (taken ++ (Token.join ts).toList ++ '@' :: more) with
    | error what =>
      rw [lexFrom_of_error hcut] at h
      cases h
    | ok lexeme =>
      rw [lexFrom_of_ok hcut] at h
      obtain ⟨htokens, hstop⟩ := Prod.mk.inj h
      obtain ⟨rfl, hback⟩ := List.cons.inj htokens
      have htaken : lexeme.cut.taken = c :: taken := by rwa [String.toList_ofList] at htext
      have hrest : lexeme.cut.rest = (Token.join ts).toList ++ '@' :: more := by
        have htiles := (cutToken_tiles hcut).1
        rw [htaken, List.cons_append, List.append_assoc] at htiles
        exact List.append_cancel_left (List.cons.inj htiles).2
      obtain ⟨l, rfl, hahead⟩ := cutToken_ahead hcut ⟨_, hrest.symm⟩ fun hkind => by
        obtain ⟨u, hu, hukind⟩ := hparen hkind
        refine List.mem_append_right _ (Token.mem_join hu ?_)
        rw [htexts u (List.mem_cons_of_mem _ hu) hukind]
        decide
      have hleft : l.cut.rest = (Token.join ts).toList := List.append_cancel_right hrest
      rw [hrest] at hback hstop
      have hnext := ih hclose (Prod.ext hback hstop)
      rw [← hleft] at hnext
      rw [lexFrom_of_ok (hahead more'), wordsBehind_cons, ← wordsAfter_eq hcut offset,
        Token.join_cons, String.utf8ByteSize_append, utf8ByteSize_ofList, ← Nat.add_assoc]
      exact congrArg (fun p : List Token × Option Unclosed => (_ :: p.1, p.2)) hnext

end Stylesheet
