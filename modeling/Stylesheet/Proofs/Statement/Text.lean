import Mathlib.Data.List.TakeWhile
import Mathlib.Tactic.Set
import Mathlib.Tactic.SplitIfs
import Stylesheet.Print.Chunks
import Stylesheet.Proofs.Token.Spelling
import Stylesheet.Statement.Outline

/-!
# What the parts of a statement print as

A statement is taken apart into fields and formatting. Here the parts are put together again: what
is printed of them is the text of the tokens they were taken from.

* `RawValue.apply_cleanField`: a field with what was left out of it.
* `join_cutImportant`: a value and its mark of importance.
* `readDeclaration_text`: a whole declaration.
* `atRuleHead_text`: the name and the parameters of an at-rule.
* `append_trim`: the text of a comment and the blanks around it.
-/

namespace Stylesheet

open Text

/-! ### Fields -/

/-- When nothing was left out of a field, it is the text of its tokens. -/
theorem cleanFrom_of_clean {custom : Bool} {prev : Option TokenKind} {value : String}
    {clean : Bool} {ts : List Token} (h : (cleanFrom custom prev value clean ts).2 = true) :
    (cleanFrom custom prev value clean ts).1 = value ++ Token.join ts ∧ clean = true := by
  induction ts generalizing prev value clean with
  | nil => exact ⟨by rw [cleanFrom, Token.join_nil, String.append_empty], h⟩
  | cons t ts ih =>
    rw [cleanFrom] at h ⊢
    split_ifs at h ⊢
    · exact absurd (ih h).2 Bool.false_ne_true
    · obtain ⟨hvalue, hclean⟩ := ih h
      rw [hvalue, Token.join_cons, String.append_assoc]
      exact ⟨rfl, hclean⟩

/-- A field, printed with what was left out of it, is the text of its tokens. -/
theorem RawValue.apply_cleanField (custom : Bool) (ts : List Token) :
    RawValue.apply (cleanField custom ts).2 (cleanField custom ts).1 = Token.join ts := by
  rw [cleanField]
  dsimp only
  cases hclean : (cleanFrom custom none "" true ts).2 with
  | true =>
    have := (cleanFrom_of_clean hclean).1
    rw [String.empty_append] at this
    exact this
  | false => simp [RawValue.apply]

theorem cleanFrom_ne_empty {custom : Bool} {prev : Option TokenKind} {value : String}
    {clean : Bool} {ts : List Token} (h : value ≠ "") :
    (cleanFrom custom prev value clean ts).1 ≠ "" := by
  induction ts generalizing prev value clean with
  | nil => exact h
  | cons t ts ih =>
    rw [cleanFrom]
    split_ifs
    · exact h
    · exact ih h
    · exact ih (by simp [h])

/-- A field that starts with a token which is neither white space nor a comment is not empty. -/
theorem cleanField_ne_empty {custom : Bool} {t : Token} {ts : List Token} (ht : t.isGap = false)
    (hs : t.Spelled) : (cleanField custom (t :: ts)).1 ≠ "" := by
  rw [Token.isGap, Bool.or_eq_false_iff] at ht
  rw [cleanField]
  dsimp only
  rw [cleanFrom, ht.1, ht.2]
  exact cleanFrom_ne_empty (by rw [String.empty_append]; exact hs.text_ne)

/-! ### The mark of importance -/

theorem join_reverse_takeWhile (p : Token → Bool) (ts : List Token) :
    Token.join (ts.reverse.dropWhile p).reverse ++ Token.join (ts.reverse.takeWhile p).reverse =
      Token.join ts := by
  rw [← Token.join_append, ← List.reverse_append, List.takeWhile_append_dropWhile,
    List.reverse_reverse]

theorem reverse_dropWhile_subset (p : Token → Bool) (ts : List Token) :
    (ts.reverse.dropWhile p).reverse ⊆ ts := fun _ ht =>
  List.mem_reverse.mp (List.dropWhile_subset p (List.mem_reverse.mp ht))

theorem join_cutGaps (ts : List Token) :
    Token.join (cutGaps ts).1 ++ Token.join (cutGaps ts).2 = Token.join ts := by
  rw [← Token.join_append, cutGaps_append]

theorem join_cutSpaces (ts : List Token) :
    Token.join (cutSpaces ts).1 ++ (cutSpaces ts).2 = Token.join ts :=
  join_reverse_takeWhile (fun t => t.kind == .space) ts

theorem suffix_collectMark (mark : String) (kinds : List TokenKind) (left : List Token) :
    (collectMark mark kinds left).2 <:+ left := by
  induction kinds generalizing mark left with
  | nil => exact List.suffix_refl left
  | cons kind kinds ih =>
    cases left with
    | nil =>
      rw [collectMark]
      split_ifs <;> exact List.suffix_refl []
    | cons t left =>
      rw [collectMark]
      split_ifs
      · exact List.suffix_refl _
      · exact (ih (t.text ++ mark) left).trans (List.suffix_cons t left)

theorem join_collectMark (mark : String) (kinds : List TokenKind) (left : List Token) :
    Token.join (collectMark mark kinds left).2.reverse ++ (collectMark mark kinds left).1 =
      Token.join left.reverse ++ mark := by
  induction kinds generalizing mark left with
  | nil => rfl
  | cons kind kinds ih =>
    cases left with
    | nil =>
      rw [collectMark]
      split_ifs <;> rfl
    | cons t left =>
      rw [collectMark]
      split_ifs
      · rfl
      · rw [ih, List.reverse_cons, Token.join_append, Token.join_cons, Token.join_nil,
          String.append_empty, String.append_assoc]

/-- What is printed for the mark of importance. -/
def markText (important : Bool) (raw : Option String) : String :=
  if important then raw.getD " !important" else ""

/-- A mark in the usual spelling is not kept. -/
theorem markText_of_usual (mark : String) :
    markText true (if mark == " !important" then none else some mark) = mark := by
  split_ifs with h
  · rw [beq_iff_eq] at h
    rw [h]
    rfl
  · rfl

/-- In front of the gaps at the end is no gap. -/
theorem isGap_of_cutGaps {ts front tail : List Token} {word : Token}
    (h : cutGaps ts = (front ++ [word], tail)) : word.isGap = false := by
  obtain ⟨hfront, -⟩ := Prod.mk.inj h
  have hlast := List.head?_dropWhile_not Token.isGap ts.reverse
  rw [← List.getLast?_reverse, hfront, List.getLast?_concat] at hlast
  exact hlast

/-- Without the gaps at both ends, the last token is the one in front of those at the end. -/
theorem getLast?_dropWhile_cutGaps (ts : List Token) :
    ((cutGaps ts).1.dropWhile Token.isGap).getLast? = (cutGaps ts).1.getLast? := by
  rcases List.eq_nil_or_concat (cutGaps ts).1 with hnil | ⟨front, word, hword⟩
  · rw [hnil]
    rfl
  · rw [List.concat_eq_append] at hword
    have hgap : word.isGap = false := isGap_of_cutGaps (Prod.ext hword rfl)
    rw [hword, List.dropWhile_append, List.getLast?_concat]
    split
    · rw [List.dropWhile_cons, hgap]
      rfl
    · exact List.getLast?_concat

/-- The mark is looked for in front of the gaps at the end. -/
theorem cutImportant_eq_of_cutGaps {ts front tail : List Token} {word : Token}
    (h : cutGaps ts = (front ++ [word], tail)) :
    cutImportant ts =
      if lower word.text == "!important" then
        ((cutSpaces front).1, true,
          if (cutSpaces front).2 ++ word.text ++ Token.join tail == " !important" then none
          else some ((cutSpaces front).2 ++ word.text ++ Token.join tail))
      else if lower word.text == "important" then
        let collected := collectMark "" (((front ++ [word]).drop 1).reverse.map Token.kind)
          ts.reverse
        if startsWithBang collected.1 then (collected.2.reverse, true, some collected.1)
        else (ts, false, none)
      else (ts, false, none) := by
  obtain ⟨hfront, htail⟩ := Prod.mk.inj h
  rw [cutImportant, hfront, htail, List.getLast?_concat]
  dsimp only
  rw [List.dropLast_concat]

theorem cutImportant_subset (ts : List Token) : (cutImportant ts).1 ⊆ ts := by
  rw [cutImportant]
  dsimp only
  split
  · exact List.Subset.refl ts
  split
  · exact List.Subset.trans (reverse_dropWhile_subset _ _)
      (List.Subset.trans (List.dropLast_subset _) (reverse_dropWhile_subset _ _))
  split
  · split
    · exact fun t ht => List.mem_reverse.mp
        ((suffix_collectMark _ _ _).subset (List.mem_reverse.mp ht))
    · exact List.Subset.refl ts
  · exact List.Subset.refl ts

/-- A value and its mark are the tokens that they were taken from. -/
theorem join_cutImportant (ts : List Token) :
    Token.join (cutImportant ts).1 ++ markText (cutImportant ts).2.1 (cutImportant ts).2.2 =
      Token.join ts := by
  have hsplit := join_reverse_takeWhile Token.isGap ts
  have hnone : Token.join ts ++ markText false none = Token.join ts := String.append_empty
  rw [cutImportant]
  dsimp only
  cases hlast : (ts.reverse.dropWhile Token.isGap).reverse.getLast? with
  | none => exact hnone
  | some word =>
    dsimp only
    by_cases hmark : lower word.text == "!important"
    · -- The mark is one token.
      obtain ⟨front, hfront⟩ := List.getLast?_eq_some_iff.mp hlast
      rw [hfront, Token.join_append, Token.join_cons, Token.join_nil, String.append_empty] at hsplit
      rw [if_pos hmark, hfront, List.dropLast_concat]
      dsimp only
      rw [markText_of_usual, ← hsplit, ← join_cutSpaces front]
      simp only [String.append_assoc]
    · rw [if_neg hmark]
      by_cases hword : lower word.text == "important"
      · rw [if_pos hword]
        split_ifs
        · -- The mark is a word with an exclamation mark somewhere in front of it.
          have := join_collectMark ""
            (((ts.reverse.dropWhile Token.isGap).reverse.drop 1).reverse.map Token.kind) ts.reverse
          rw [List.reverse_reverse, String.append_empty] at this
          exact this
        · exact hnone
      · rw [if_neg hword]
        exact hnone

/-! ### Declarations -/

theorem join_cutBetween {between between' : String} {ts rest : List Token}
    (h : cutBetween between ts = .ok (between', rest)) :
    between' ++ Token.join rest = between ++ Token.join ts := by
  induction ts generalizing between with
  | nil => cases h; rfl
  | cons t ts ih =>
    rw [cutBetween] at h
    rw [Token.join_cons, ← String.append_assoc]
    split_ifs at h
    · cases h; rfl
    · exact ih h

theorem suffix_of_cutBetween {between between' : String} {ts rest : List Token}
    (h : cutBetween between ts = .ok (between', rest)) : rest <:+ ts := by
  induction ts generalizing between with
  | nil =>
    cases h
    exact List.suffix_refl _
  | cons t ts ih =>
    rw [cutBetween] at h
    split_ifs at h
    · cases h
      exact List.suffix_cons _ _
    · exact (ih h).trans (List.suffix_cons _ _)

/-- The first word of a declaration, with the tokens in front of it and behind it. -/
theorem cutLead_eq_ok {ts lead rest : List Token} {first : Token}
    (h : cutLead ts = .ok (lead, first, rest)) :
    lead ++ first :: rest = ts ∧ first.kind = .word := by
  induction ts generalizing lead with
  | nil => cases h
  | cons t ts ih =>
    rw [cutLead] at h
    split_ifs at h with hword
    · cases h
      exact ⟨rfl, beq_iff_eq.mp hword⟩
    · cases hts : cutLead ts with
      | error issue => rw [hts] at h; cases h
      | ok parts =>
        rw [hts] at h
        obtain ⟨lead', first', rest'⟩ := parts
        cases h
        obtain ⟨htokens, hkind⟩ := ih hts
        exact ⟨congrArg (t :: ·) htokens, hkind⟩

theorem append_cutLead {ts lead rest : List Token} {first : Token}
    (h : cutLead ts = .ok (lead, first, rest)) : lead ++ first :: rest = ts :=
  (cutLead_eq_ok h).1

theorem kind_of_cutLead {ts lead rest : List Token} {first : Token}
    (h : cutLead ts = .ok (lead, first, rest)) : first.kind = .word :=
  (cutLead_eq_ok h).2

theorem append_cutHack (prop : String) : (cutHack prop).1 ++ (cutHack prop).2 = prop := by
  rw [cutHack, ← String.toList_inj]
  split
  · rename_i cs hcs
    simp [hcs]
  · rename_i cs hcs
    simp [hcs]
  · rw [String.empty_append]

/-- What was seen in front of a colon is the front of the tokens. -/
theorem prefix_of_findColon {depth : Int} {prev : Option Token} {seen ts front : List Token}
    (h : findColon depth prev seen ts = .ok (some front)) :
    front.reverse <+: seen.reverse ++ ts := by
  -- What was seen and what is left make up the same list in each round.
  induction ts generalizing depth prev seen with
  | nil => cases h
  | cons t ts ih =>
    rw [findColon.eq_def] at h
    dsimp only at h
    generalize (if t.kind == .openParen then depth + 1
      else if t.kind == .closeParen then depth - 1 else depth) = depth' at h
    have hsplit : seen.reverse ++ t :: ts = (t :: seen).reverse ++ ts := by simp
    split at h
    · cases prev with
      | none => cases h
      | some p =>
        dsimp only at h
        split at h
        · rw [hsplit]
          exact ih h
        · cases h
          exact List.prefix_append _ _
    · rw [hsplit]
      exact ih h

/-- The token that is blamed is one of those looked at. -/
theorem mem_of_secondWord {found : Nat} {last : Option Token} {t : Token} {us : List Token}
    (h : secondWord found last us = some t) : t ∈ us ∨ last = some t := by
  induction us generalizing found last with
  | nil => exact .inr h
  | cons u us ih =>
    have hrest : ∀ {n}, secondWord n (some u) us = some t → t ∈ u :: us := fun hu =>
      (ih hu).elim (List.mem_cons_of_mem u) fun hlast => by
        cases hlast
        exact List.mem_cons_self
    rw [secondWord] at h
    split_ifs at h
    · exact .inl (hrest h)
    · cases h
      exact .inl List.mem_cons_self
    · exact .inl (hrest h)

/-- A check in front of a result changes nothing about the result. -/
theorem eq_of_checked {c : Prop} [Decidable c] {check : Except Issue Unit} {a b : α}
    (h : (if c then Except.bind check fun _ => .ok a else .ok a) = Except.ok b) : a = b := by
  split_ifs at h
  · cases check with
    | error issue => cases h
    | ok _ => exact Except.ok.inj h
  · exact Except.ok.inj h

/-- The steps in which a declaration is taken apart, when it is one. White space and comments behind
the colon belong to the colon, or to a value that has nothing else. -/
theorem readDeclaration_eq_ok {custom : Bool} {ts : List Token} {parts : DeclarationParts}
    (h : readDeclaration custom ts = .ok parts) :
    ∃ (lead rest body : List Token) (between : String),
      cutLead ts = .ok (lead, parts.first, rest) ∧
      cutBetween "" ((parts.first :: rest).dropWhile fun t => !endsProperty t) =
        .ok (between, body) ∧
      parts.lead = Token.join lead ++
        (cutHack (Token.join ((parts.first :: rest).takeWhile fun t => !endsProperty t))).1 ∧
      parts.prop =
        (cutHack (Token.join ((parts.first :: rest).takeWhile fun t => !endsProperty t))).2 ∧
      parts.important = (cutImportant (body.dropWhile Token.isGap)).2.1 ∧
      parts.rawImportant = (cutImportant (body.dropWhile Token.isGap)).2.2 ∧
      (parts.between = between ++ Token.join (body.takeWhile Token.isGap) ∧
          (parts.value, parts.rawValue) =
            cleanField custom (cutImportant (body.dropWhile Token.isGap)).1 ∨
        parts.between = between ∧
          (parts.value, parts.rawValue) = cleanField custom
            (body.takeWhile Token.isGap ++ (cutImportant (body.dropWhile Token.isGap)).1)) := by
  rw [readDeclaration] at h
  cases hlead : cutLead ts with
  | error issue => rw [hlead] at h; cases h
  | ok leadParts =>
    obtain ⟨lead, first, rest⟩ := leadParts
    rw [hlead] at h
    simp only [bind, Except.bind] at h
    cases hbetween : cutBetween "" ((first :: rest).dropWhile fun t => !endsProperty t) with
    | error issue => rw [hbetween] at h; cases h
    | ok betweenParts =>
      obtain ⟨between, body⟩ := betweenParts
      rw [hbetween] at h
      dsimp only at h
      -- Past the checks that can fail, every part of the declaration is named.
      by_cases hmissing : ((body.dropWhile Token.isGap).isEmpty && !custom) = true
      · rw [if_pos hmissing] at h
        cases h
      · rw [if_neg hmissing] at h
        obtain rfl := eq_of_checked h
        refine ⟨lead, rest, body, between, rfl, hbetween, rfl, rfl, rfl, rfl, ?_⟩
        dsimp only
        split_ifs
        · exact Or.inl ⟨rfl, rfl⟩
        · exact Or.inr ⟨rfl, rfl⟩

/-- What is printed of a declaration is the text of its tokens. -/
theorem readDeclaration_text {custom : Bool} {ts : List Token} {parts : DeclarationParts}
    {raws : Raws} (h : readDeclaration custom ts = .ok parts) (hvalue : raws.value = parts.rawValue)
    (himportant : raws.important = parts.rawImportant) :
    parts.lead ++
        Tree.declarationText raws parts.between parts.prop parts.value parts.important =
      Token.join ts := by
  obtain ⟨lead, rest, body, between, hlead, hbetween, hfront, hprop, himp, hrawImp, hbody⟩ :=
    readDeclaration_eq_ok h
  set property := (parts.first :: rest).takeWhile fun t => !endsProperty t with hproperty
  -- The value with its mark, and the gaps in front of it.
  have hrest : parts.between ++ (RawValue.apply parts.rawValue parts.value ++
      markText parts.important parts.rawImportant) = between ++ Token.join body := by
    have hmark := join_cutImportant (body.dropWhile Token.isGap)
    have hgaps := Token.join_append (body.takeWhile Token.isGap) (body.dropWhile Token.isGap)
    rw [List.takeWhile_append_dropWhile] at hgaps
    rw [himp, hrawImp, hgaps, ← hmark]
    -- The gaps belong to the colon in one case and to the value in the other.
    rcases hbody with ⟨hb, hv⟩ | ⟨hb, hv⟩
    · have := RawValue.apply_cleanField custom (cutImportant (body.dropWhile Token.isGap)).1
      rw [← hv] at this
      rw [hb, this]
      simp only [String.append_assoc]
    · have := RawValue.apply_cleanField custom
        (body.takeWhile Token.isGap ++ (cutImportant (body.dropWhile Token.isGap)).1)
      rw [← hv] at this
      rw [hb, this, Token.join_append]
      simp only [String.append_assoc]
  calc parts.lead ++
        Tree.declarationText raws parts.between parts.prop parts.value parts.important
      = Token.join lead ++ ((cutHack (Token.join property)).1 ++ (cutHack (Token.join property)).2)
          ++ (parts.between ++ (RawValue.apply parts.rawValue parts.value ++
            markText parts.important parts.rawImportant)) := by
        rw [Tree.declarationText, hvalue, himportant, hfront, hprop, markText]
        simp only [String.append_assoc]
    _ = Token.join lead ++ Token.join property ++ (between ++ Token.join body) := by
        rw [append_cutHack, hrest]
    _ = Token.join lead ++ (Token.join property ++
          Token.join ((parts.first :: rest).dropWhile fun t => !endsProperty t)) := by
        rw [join_cutBetween hbetween, String.empty_append, String.append_assoc]
    _ = Token.join (lead ++ parts.first :: rest) := by
        rw [hproperty, ← Token.join_append, List.takeWhile_append_dropWhile, ← Token.join_append]
    _ = Token.join ts := by rw [append_cutLead hlead]

/-! ### At-rules -/

/-- What is printed of an at-rule in front of the white space at its end. -/
theorem atRuleHead_text {name : Token} {kept : List Token} {raws : Raws}
    (hname : name.Spelled) (hkind : name.kind = .atWord) (hkept : ∀ t ∈ kept, t.Spelled)
    (hafter : raws.afterName = some (Token.join (kept.takeWhile Token.isGap)))
    (hraw : raws.params = (cleanField false (kept.dropWhile Token.isGap)).2) :
    Tree.atRuleHead raws (String.ofList (name.text.toList.drop 1))
        (cleanField false (kept.dropWhile Token.isGap)).1 =
      name.text ++ Token.join kept := by
  have hat : "@" ++ String.ofList (name.text.toList.drop 1) = name.text := by
    rw [Token.Spelled, hkind] at hname
    obtain ⟨cs, hcs⟩ := List.head?_eq_some_iff.mp hname
    rw [← String.toList_inj]
    simp [hcs]
  have hparams : (if (cleanField false (kept.dropWhile Token.isGap)).1 == "" then ""
      else RawValue.apply raws.params (cleanField false (kept.dropWhile Token.isGap)).1) =
      Token.join (kept.dropWhile Token.isGap) := by
    rw [hraw, RawValue.apply_cleanField]
    cases hrest : kept.dropWhile Token.isGap with
    | nil => rfl
    | cons t ts =>
      -- The first token is no gap, so the parameters are not empty.
      have hgap : t.isGap = false := by
        have := List.head?_dropWhile_not Token.isGap kept
        rw [hrest] at this
        simpa using this
      have hmem : t ∈ kept := (List.dropWhile_sublist Token.isGap).subset (by rw [hrest]; simp)
      have hne : (cleanField false (t :: ts)).1 ≠ "" := cleanField_ne_empty hgap (hkept t hmem)
      rw [if_neg (by rw [beq_iff_eq]; exact hne)]
  rw [Tree.atRuleHead, hparams, hafter]
  dsimp only
  rw [hat, String.append_assoc, ← Token.join_append, List.takeWhile_append_dropWhile]

/-! ### Comments -/

theorem commentBody_of_marks (body : List Char) :
    Outline.commentBody ('/' :: '*' :: body ++ ['*', '/']) = body := by
  simp [Outline.commentBody, after?]

/-- A text is the blanks in front, what is left without blanks at the ends, and the blanks behind
that. -/
theorem append_trim (cs : List Char) :
    cs.takeWhile isBlank ++ trim cs ++
        (if (trim cs).isEmpty then [] else (cs.reverse.takeWhile isBlank).reverse) = cs := by
  have hsplit := List.takeWhile_append_dropWhile (p := isBlank) (l := cs)
  rw [trim, trimStart, trimEnd]
  cases hrest : cs.dropWhile isBlank with
  | nil =>
    rw [hrest, List.append_nil] at hsplit
    simp [hsplit]
  | cons c rest =>
    -- Taking blanks off the end of the text stops at `c` at the latest.
    have hc : isBlank c = false := by
      have := List.head?_dropWhile_not isBlank cs
      rw [hrest] at this
      simpa using this
    have hne : ((c :: rest).reverse.dropWhile isBlank).reverse ≠ [] := by
      intro hnil
      rw [List.reverse_eq_nil_iff, List.dropWhile_eq_nil_iff] at hnil
      exact absurd (hnil c (by simp)) (by rw [hc]; exact Bool.false_ne_true)
    have htake : cs.reverse.takeWhile isBlank = (c :: rest).reverse.takeWhile isBlank := by
      rw [← hsplit, hrest, List.reverse_append, List.takeWhile_append]
      rw [if_neg]
      intro hlen
      have hall := (List.takeWhile_prefix isBlank).eq_of_length hlen
      have hmem : c ∈ (c :: rest).reverse.takeWhile isBlank := by
        rw [hall]
        simp
      exact absurd (List.mem_takeWhile_imp hmem) (by rw [hc]; exact Bool.false_ne_true)
    rw [if_neg (by rw [List.isEmpty_iff]; exact hne), htake, List.append_assoc,
      ← List.reverse_append, List.takeWhile_append_dropWhile, List.reverse_reverse, ← hrest, hsplit]

/-- Without the blanks in front, a text that is not all blanks still has those behind it. -/
theorem trimStart_eq_append {cs : List Char} (h : trim cs ≠ []) :
    trimStart cs = trim cs ++ (cs.reverse.takeWhile isBlank).reverse := by
  refine (List.append_right_inj (cs.takeWhile isBlank)).mp ?_
  have happend := append_trim cs
  rw [if_neg (by rwa [List.isEmpty_iff])] at happend
  rw [← List.append_assoc, happend, trimStart, List.takeWhile_append_dropWhile]

end Stylesheet
