import Stylesheet.Proofs.Statement.Lookahead
import Stylesheet.Proofs.Statement.Text
import Stylesheet.Proofs.Usual.Spelled

/-!
# Statements in the usual style

Tokens whose forms are those of a plain node are taken for the statement that the node is, and the
fields of the statement are those of the node: words and single blanks lose nothing when a field is
cleaned (`cleanField_of_phrase`), and the last word of a value is taken for the mark of importance
only if it is one (`cutImportant_of_value`).

A declaration without a semicolon takes in all that follows up to the end of its block, and gives it
back when that is white space and comments (`nextStatement_openDeclaration`).
-/

namespace Stylesheet

open Text Form

variable {t : Token} {ts rest : List Token}

/-! ### Tokens of words and blanks -/

/-- The tokens are words, white space and comments. -/
def Quiet (ts : List Token) : Prop :=
  ∀ t ∈ ts, t.kind = .word ∨ t.isGap = true

/-- The tokens end with a word. -/
def EndsWithWord (ts : List Token) : Prop :=
  ∃ front last, ts = front ++ [last] ∧ last.kind = .word

theorem kind_of_mem {fs : List Form} (h : ts.map Token.form = fs) (ht : t ∈ ts) :
    ∃ f ∈ fs, t.kind = f.kind ∧ t.text = f.text := by
  rw [← h]
  exact ⟨t.form, List.mem_map_of_mem ht, rfl, rfl⟩

theorem kind_of_mem_trail {ws : List String} {f : Form} (hf : f ∈ trail ws) :
    f.kind = .word ∨ f.kind = .space := by
  rw [trail, List.mem_flatMap] at hf
  obtain ⟨w, -, hf⟩ := hf
  rcases List.mem_cons.mp hf with rfl | hf
  · exact Or.inr rfl
  · rw [List.mem_singleton.mp hf]
    exact Or.inl rfl

theorem wordOrSpace_of_trail {ws : List String} (h : ts.map Token.form = trail ws) :
    ∀ t ∈ ts, t.kind = .word ∨ t.kind = .space := by
  intro t ht
  obtain ⟨f, hf, hkind, -⟩ := kind_of_mem h ht
  rw [hkind]
  exact kind_of_mem_trail hf

theorem isGap_of_space (ht : t.kind = .space) : t.isGap = true := by
  rw [Token.isGap, ht]
  rfl

theorem isGap_of_word (ht : t.kind = .word) : t.isGap = false := by
  rw [Token.isGap, ht]
  rfl

theorem quiet_of_trail {ws : List String} (h : ts.map Token.form = trail ws) : Quiet ts :=
  fun t ht => (wordOrSpace_of_trail h t ht).imp id isGap_of_space

theorem Quiet.concat (h : Quiet ts) (ht : t.kind = .space) : Quiet (ts ++ [t]) := by
  intro u hu
  rcases List.mem_append.mp hu with hu | hu
  · exact h u hu
  · rw [List.mem_singleton.mp hu]
    exact Or.inr (isGap_of_space ht)

theorem endsWithWord_of_trail {ws : List String} (hne : ws ≠ [])
    (h : ts.map Token.form = trail ws) : EndsWithWord ts := by
  obtain ⟨vs, w, rfl⟩ := (List.eq_nil_or_concat' ws).resolve_left hne
  rw [trail_append] at h
  obtain ⟨front, back, rfl, -, hback⟩ := List.map_eq_append_iff.mp h
  obtain ⟨b, back, rfl, -, hback⟩ := List.map_eq_cons_iff.mp hback
  obtain ⟨last, back, rfl, hlast, hback⟩ := List.map_eq_cons_iff.mp hback
  obtain rfl : back = [] := List.map_eq_nil_iff.mp hback
  exact ⟨front ++ [b], last, by simp, congrArg Form.kind hlast⟩

/-! ### Gaps at the end -/

theorem EndsWithWord.append (h : EndsWithWord ts) (us : List Token) : EndsWithWord (us ++ ts) := by
  obtain ⟨front, last, rfl, hlast⟩ := h
  exact ⟨us ++ front, last, by simp, hlast⟩

/-- Gaps behind a word are found from the end. -/
theorem EndsWithWord.cutGaps_append (h : EndsWithWord ts) (gaps : List Token)
    (hgaps : ∀ t ∈ gaps, t.isGap = true) : cutGaps (ts ++ gaps) = (ts, gaps) := by
  obtain ⟨front, last, rfl, hlast⟩ := h
  have hrev : (front ++ [last] ++ gaps).reverse = gaps.reverse ++ last :: front.reverse := by simp
  have hgaps' : ∀ t ∈ gaps.reverse, t.isGap = true := fun t ht => hgaps t (List.mem_reverse.mp ht)
  have hstop : ¬last.isGap = true := by
    rw [isGap_of_word hlast]
    exact Bool.false_ne_true
  rw [cutGaps, hrev, List.dropWhile_append_of_pos hgaps', List.takeWhile_append_of_pos hgaps',
    List.dropWhile_cons_of_neg hstop, List.takeWhile_cons_of_neg hstop]
  simp

/-- So is white space. -/
theorem EndsWithWord.cutSpaces_concat (h : EndsWithWord ts) {b : Token} (hb : b.kind = .space) :
    cutSpaces (ts ++ [b]) = (ts, b.text) := by
  obtain ⟨front, last, rfl, hlast⟩ := h
  have hrev : (front ++ [last] ++ [b]).reverse = b :: last :: front.reverse := by simp
  have hspace : (b.kind == .space) = true := by rw [hb]; rfl
  have hstop : ¬(last.kind == .space) = true := by rw [hlast]; decide
  rw [cutSpaces, hrev]
  simp [hspace, hstop, Token.join]

theorem EndsWithWord.cutGaps_eq (h : EndsWithWord ts) : cutGaps ts = (ts, []) := by
  have hgaps := h.cutGaps_append [] fun t ht => absurd ht List.not_mem_nil
  rwa [List.append_nil] at hgaps

/-! ### Runs -/

theorem step_of_quiet {s : RunState} (hs : s.expected = []) (ht : t.kind = .word ∨ t.isGap = true) :
    s.step false t = s ∧ s.endsAt false t = false := by
  have hkind : t.kind = .word ∨ t.kind = .space ∨ t.kind = .comment := by
    rcases ht with ht | ht
    · exact Or.inl ht
    · rw [Token.isGap, Bool.or_eq_true, beq_iff_eq, beq_iff_eq] at ht
      exact Or.inr ht
  rw [RunState.step, RunState.endsAt, hs]
  rcases hkind with hk | hk | hk <;> rw [hk] <;> exact ⟨rfl, rfl⟩

/-- Words, white space and comments do not end a run and tell nothing about it. -/
theorem cutRun_of_quiet {s : RunState} (hs : s.expected = []) (hts : Quiet ts)
    (rest : List Token) :
    cutRun false s (ts ++ rest) =
      ⟨ts ++ (cutRun false s rest).taken, (cutRun false s rest).rest,
        (cutRun false s rest).state⟩ := by
  induction ts with
  | nil => rfl
  | cons t ts ih =>
    rw [Quiet, List.forall_mem_cons] at hts
    obtain ⟨hstep, hend⟩ := step_of_quiet hs hts.1
    rw [List.cons_append, cutRun, hend, if_neg Bool.false_ne_true, hstep, ih hts.2]
    rfl

theorem cutRun_of_endsAt {s : RunState} (hend : s.endsAt false t = true) :
    cutRun false s (t :: rest) = ⟨[], t :: rest, s⟩ := by
  rw [cutRun, if_pos hend]

/-- A word starts no custom property. -/
theorem startsWith_dashes {w : String} (hw : IsWord w) : w.startsWith "--" = false := by
  rw [Bool.eq_false_iff, Ne, String.startsWith_string_iff]
  intro hdashes
  exact hw.not_mem (by decide) (hdashes.subset (List.mem_cons_self : '-' ∈ "--".toList))

/-- Words up to a brace are the head of a rule. -/
theorem nextStatement_rule {brace : Token} (ht : t.kind = .word) (hword : IsWord t.text)
    (hts : Quiet ts) (hbrace : brace.kind = .openCurly) :
    nextStatement none t (ts ++ brace :: rest) = .ok (.rule (t :: ts) brace, rest) := by
  have hstart := (step_of_quiet (s := {}) rfl (Or.inl ht)).1
  have hend : RunState.endsAt false {} brace = true := by
    rw [RunState.endsAt, hbrace]
    rfl
  rw [nextStatement, ht]
  dsimp only
  rw [runStatement, startsWith_dashes hword, hstart, cutRun_of_quiet rfl hts, cutRun_of_endsAt hend]
  dsimp only
  rw [hbrace, List.append_nil]

/-- What is known behind a property and its colon. -/
theorem step_of_colon {colon : Token} (hcolon : colon.kind = .colon) :
    RunState.endsAt false {} colon = false ∧
      RunState.step false {} colon = { colon := true } := by
  rw [RunState.endsAt, RunState.step, hcolon]
  exact ⟨rfl, rfl⟩

/-- A run that starts with a property and, possibly behind blanks, a colon. -/
theorem cutRun_of_colon {front : List Token} {colon : Token} (hfront : Quiet front)
    (hcolon : colon.kind = .colon) (hts : Quiet ts) (rest : List Token) :
    cutRun false {} (front ++ colon :: (ts ++ rest)) =
      ⟨front ++ colon :: (ts ++ (cutRun false { colon := true } rest).taken),
        (cutRun false { colon := true } rest).rest,
        (cutRun false { colon := true } rest).state⟩ := by
  obtain ⟨hend, hstep⟩ := step_of_colon hcolon
  rw [cutRun_of_quiet rfl hfront, cutRun, hend, if_neg Bool.false_ne_true, hstep,
    cutRun_of_quiet rfl hts]

/-- A property, a colon and words up to a semicolon are a declaration. -/
theorem nextStatement_declaration {front : List Token} {colon e : Token} (ht : t.kind = .word)
    (hword : IsWord t.text) (hfront : Quiet front) (hcolon : colon.kind = .colon)
    (hts : Quiet ts) (he : e.kind = .semicolon) :
    nextStatement none t (front ++ colon :: (ts ++ e :: rest)) =
      .ok (.declaration false (t :: (front ++ colon :: ts) ++ [e]), rest) := by
  have hend : RunState.endsAt false { colon := true } e = true := by
    rw [RunState.endsAt, he]
    rfl
  rw [nextStatement, ht]
  dsimp only
  rw [runStatement, startsWith_dashes hword, (step_of_quiet (s := {}) rfl (Or.inl ht)).1,
    cutRun_of_colon hfront hcolon hts, cutRun_of_endsAt hend]
  dsimp only
  rw [he, List.append_nil]
  rfl

/-- Without a semicolon, the declaration gives back what follows it up to the end of its block. -/
theorem nextStatement_openDeclaration {front : List Token} {colon : Token} (ht : t.kind = .word)
    (hword : IsWord t.text) (hfront : Quiet front) (hcolon : colon.kind = .colon)
    (hts : Quiet ts) (hlast : EndsWithWord ts) (hrest : EndsBlock rest) :
    nextStatement none t (front ++ colon :: (ts ++ rest)) =
      .ok (.declaration false (t :: (front ++ colon :: ts)), rest) := by
  set gaps := rest.takeWhile Token.isGap with hgaps
  set left := rest.dropWhile Token.isGap with hleft
  have hsplit : gaps ++ left = rest := List.takeWhile_append_dropWhile
  have hgap : ∀ u ∈ gaps, u.isGap = true := fun u hu => List.mem_takeWhile_imp hu
  have hquiet : Quiet (ts ++ gaps) := by
    intro u hu
    rcases List.mem_append.mp hu with hu | hu
    · exact hts u hu
    · exact Or.inr (hgap u hu)
  have hopen : openDeclaration false (t :: (front ++ colon :: (ts ++ gaps))) left =
      (.declaration false (t :: (front ++ colon :: ts)), rest) := by
    have hcut := (hlast.append (t :: (front ++ [colon]))).cutGaps_append gaps hgap
    simp only [List.cons_append, List.append_assoc, List.nil_append] at hcut
    rw [openDeclaration, if_neg Bool.false_ne_true, hcut]
    dsimp only
    rw [hsplit]
  -- The gaps are followed by the end of the text or by a closing brace, which ends the run.
  have hkind : ∀ e ∈ left.head?, e.kind = .closeCurly := hrest
  have hstop : cutRun false { colon := true } left = ⟨[], left, { colon := true }⟩ := by
    cases hcase : left with
    | nil => rfl
    | cons e more =>
      refine cutRun_of_endsAt ?_
      rw [RunState.endsAt, hkind e (by rw [hcase]; rfl)]
      rfl
  have hrun : cutRun false {} (front ++ colon :: (ts ++ rest)) =
      ⟨front ++ colon :: (ts ++ gaps), left, { colon := true }⟩ := by
    rw [← hsplit, ← List.append_assoc ts, cutRun_of_colon hfront hcolon hquiet, hstop,
      List.append_nil]
  rw [nextStatement, ht]
  dsimp only
  rw [runStatement, startsWith_dashes hword, (step_of_quiet (s := {}) rfl (Or.inl ht)).1, hrun,
    ← hopen]
  cases hcase : left with
  | nil => rfl
  | cons e more =>
    dsimp only
    rw [hkind e (by rw [hcase]; rfl)]
    rfl

/-! ### At-rules -/

/-- Words, white space and comments are parameters. -/
theorem cutParams_quiet_append (hts : Quiet ts) (us : List Token) :
    cutParams [] (ts ++ us) =
      (ts ++ (cutParams [] us).1, (cutParams [] us).2.1, (cutParams [] us).2.2) := by
  induction ts with
  | nil => rfl
  | cons t ts ih =>
    rw [Quiet, List.forall_mem_cons] at hts
    have hkind : expectedAfter [] t.kind = [] ∧ atRuleEnd? t = none := by
      rcases hts.1 with hk | hgap
      · rw [atRuleEnd?, hk]
        exact ⟨rfl, rfl⟩
      · rcases Token.isGap_iff.mp hgap with hk | hk <;> rw [atRuleEnd?, hk] <;> exact ⟨rfl, rfl⟩
    rw [List.cons_append, cutParams, hkind.1, hkind.2, ih hts.2]
    rfl

theorem cutParams_of_quiet (hts : Quiet ts) {brace : Token} (hbrace : brace.kind = .openCurly) :
    cutParams [] (ts ++ brace :: rest) = (ts, .block brace, rest) := by
  have hend : cutParams [] (brace :: rest) = ([], .block brace, rest) := by
    rw [cutParams]
    simp [expectedAfter, closingKind?, atRuleEnd?, hbrace]
  rw [cutParams_quiet_append hts, hend, List.append_nil]

/-- A name and words up to a brace are the head of an at-rule. -/
theorem nextStatement_atRule {brace : Token} {name : String} (ht : t.kind = .atWord)
    (htext : t.text = "@" ++ name) (hname : IsWord name) (hts : Quiet ts)
    (hbrace : brace.kind = .openCurly) :
    nextStatement none t (ts ++ brace :: rest) = .ok (.atRule t ts (.block brace), rest) := by
  have hne : (t.text == "@") = false := by
    rw [beq_eq_false_iff_ne, htext]
    intro heq
    refine hname.1 (String.append_right_inj "@" |>.mp ?_)
    rw [heq]
    rfl
  rw [nextStatement, ht]
  dsimp only
  rw [atRuleStatement, hne, if_neg Bool.false_ne_true, cutParams_of_quiet hts hbrace]

/-! ### Fields -/

theorem join_phrase {s : String} (hs : IsPhrase s) : join (phrase s) = s := by
  obtain ⟨w, ws, hwords, -, htext⟩ := hs.exists_words
  rw [phrase, hwords, trail_cons, List.tail_cons, join_cons, join_trail, htext]
  rfl

/-- The last form of a phrase is a word. -/
theorem phrase_eq_concat {s : String} (hs : IsPhrase s) :
    ∃ fs w, phrase s = fs ++ [word w] ∧ IsWord w := by
  obtain ⟨w, ws, hwords, hws, -⟩ := hs.exists_words
  rw [phrase, hwords]
  obtain ⟨vs, v, hvs⟩ := (List.eq_nil_or_concat' (w :: ws)).resolve_left (List.cons_ne_nil w ws)
  have hv : IsWord v := hws v (by rw [hvs]; simp)
  rw [hvs, trail_append]
  cases vs with
  | nil => exact ⟨[], v, rfl, hv⟩
  | cons u us => exact ⟨word u :: trail us ++ [blank], v, by simp [trail], hv⟩

theorem exists_last_of_phrase {s : String} (hs : IsPhrase s) (h : ts.map Token.form = phrase s) :
    ∃ front last, ts = front ++ [last] ∧ last.kind = .word ∧ IsWord last.text := by
  obtain ⟨fs, w, hphrase, hw⟩ := phrase_eq_concat hs
  rw [hphrase] at h
  obtain ⟨front, back, rfl, -, hback⟩ := List.map_eq_append_iff.mp h
  obtain ⟨last, rfl, hlast⟩ := List.map_eq_singleton_iff.mp hback
  refine ⟨front, last, rfl, congrArg Form.kind hlast, ?_⟩
  rw [show last.text = w from congrArg Form.text hlast]
  exact hw

theorem endsWithWord_of_phrase {s : String} (hs : IsPhrase s)
    (h : ts.map Token.form = phrase s) : EndsWithWord ts := by
  obtain ⟨front, last, hts, hlast, -⟩ := exists_last_of_phrase hs h
  exact ⟨front, last, hts, hlast⟩

theorem EndsWithWord.getLast? (h : EndsWithWord ts) : ∀ u ∈ ts.getLast?, u.kind = .word := by
  obtain ⟨front, last, rfl, hlast⟩ := h
  intro u hu
  rw [List.getLast?_concat] at hu
  cases hu
  exact hlast

/-- Words and blanks up to a word lose nothing. -/
theorem cleanFrom_of_words {prev : Option TokenKind} {value : String} {clean : Bool}
    (hts : ∀ t ∈ ts, t.kind = .word ∨ t.kind = .space)
    (hlast : ∀ u ∈ ts.getLast?, u.kind = .word) :
    cleanFrom false prev value clean ts = (value ++ Token.join ts, clean) := by
  induction ts generalizing prev value with
  | nil => rw [cleanFrom, Token.join_nil, String.append_empty]
  | cons t ts ih =>
    rw [List.forall_mem_cons] at hts
    have hspace : (t.kind == .space && ts.isEmpty && !false) = false := by
      cases ts with
      | nil => rw [hlast t rfl]; rfl
      | cons u us => simp
    have hcomment : (t.kind == .comment) = false := by
      rcases hts.1 with hk | hk <;> rw [hk] <;> rfl
    rw [cleanFrom, hspace, if_neg Bool.false_ne_true, hcomment, Bool.false_and,
      if_neg Bool.false_ne_true, ih hts.2 fun u hu => hlast u ?_, Token.join_cons,
      String.append_assoc]
    rw [List.getLast?_cons, Option.mem_def.mp hu]
    rfl

/-- A field that is a phrase is read as it is. -/
theorem cleanField_of_phrase {s : String} (hs : IsPhrase s) (h : ts.map Token.form = phrase s) :
    cleanField false ts = (s, none) := by
  have hkinds : ∀ t ∈ ts, t.kind = .word ∨ t.kind = .space := by
    intro t ht
    obtain ⟨f, hf, hkind, -⟩ := kind_of_mem h ht
    rw [hkind]
    exact kind_of_mem_trail (List.mem_of_mem_tail hf)
  rw [cleanField, cleanFrom_of_words hkinds (endsWithWord_of_phrase hs h).getLast?,
    ← join_map_form, h, join_phrase hs, String.empty_append]
  rfl

/-! ### Declarations -/

theorem toLower_ne_bang {c : Char} (hc : c.isAlphanum = true) : c.toLower ≠ '!' := by
  intro hlower
  delta Char.toLower at hlower
  split at hlower
  · rename_i hupper
    have hval : (c.val + 32).toNat = 33 := congrArg (fun c => c.val.toNat) hlower
    have hlow : 65 ≤ c.val.toNat := UInt32.le_iff_toNat_le.mp hupper.1
    have hhigh : c.val.toNat ≤ 90 := UInt32.le_iff_toNat_le.mp hupper.2
    rw [UInt32.toNat_add, show (32 : UInt32).toNat = 32 from rfl] at hval
    omega
  · exact ne_of_isAlphanum hc (by decide) hlower

theorem lower_ne_mark {w : String} (hw : IsWord w) : (lower w == "!important") = false := by
  rw [beq_eq_false_iff_ne]
  intro heq
  have hmem : '!' ∈ (lower w).toList := by
    rw [heq]
    exact List.mem_cons_self
  rw [toList_lower_of_ascii hw.ascii, List.mem_map] at hmem
  obtain ⟨c, hc, hlower⟩ := hmem
  exact toLower_ne_bang (hw.2 c hc) hlower

/-- What is collected for a mark is part of the value. -/
theorem startsWithBang_collectMark {value : String} (hvalue : IsPhrase value)
    (h : ts.map Token.form = phrase value) (kinds : List TokenKind) :
    startsWithBang (collectMark "" kinds ts.reverse).1 = false := by
  have hjoin := join_collectMark "" kinds ts.reverse
  rw [List.reverse_reverse, String.append_empty, ← join_map_form ts, h,
    join_phrase hvalue] at hjoin
  rw [startsWithBang, beq_eq_false_iff_ne]
  intro hhead
  have hmem : '!' ∈ (collectMark "" kinds ts.reverse).1.toList :=
    (List.dropWhile_sublist isBlank).subset (List.mem_of_head? hhead)
  have hchars : '!' ∈ value.toList := by
    rw [← hjoin, String.toList_append]
    exact List.mem_append_right _ hmem
  rcases hvalue.mem hchars with hbang | hbang <;> exact absurd hbang (by decide)

/-- Without a mark, a value is taken whole. -/
theorem cutImportant_of_phrase {value : String} (hvalue : IsPhrase value)
    (h : ts.map Token.form = phrase value) : cutImportant ts = (ts, false, none) := by
  obtain ⟨front, last, hts, -, hword⟩ := exists_last_of_phrase hvalue h
  have hfront : (ts.reverse.dropWhile Token.isGap).reverse = ts :=
    congrArg Prod.fst (endsWithWord_of_phrase hvalue h).cutGaps_eq
  have hlast : ts.getLast? = some last := by rw [hts, List.getLast?_concat]
  rw [cutImportant, hfront, hlast]
  dsimp only
  rw [lower_ne_mark hword, if_neg Bool.false_ne_true, startsWithBang_collectMark hvalue h,
    if_neg Bool.false_ne_true, ite_self]

/-- The mark in its usual spelling is cut off. -/
theorem cutImportant_of_mark {value : String} (hvalue : IsPhrase value) {b m : Token}
    (h : ts.map Token.form = phrase value) (hb : b.form = blank)
    (hm : m.form = word "!important") : cutImportant (ts ++ [b, m]) = (ts, true, none) := by
  have hkind : m.kind = .word := congrArg Form.kind hm
  have htext : m.text = "!important" := congrArg Form.text hm
  have hbtext : b.text = " " := congrArg Form.text hb
  have hends : EndsWithWord (ts ++ [b, m]) := ⟨ts ++ [b], m, by simp, hkind⟩
  have hcut := hends.cutGaps_eq
  have hlast : (ts ++ [b, m]).getLast? = some m := by simp
  have hdrop : (ts ++ [b, m]).dropLast = ts ++ [b] := by simp
  have hspaces : cutSpaces (ts ++ [b]) = (ts, " ") := by
    rw [(endsWithWord_of_phrase hvalue h).cutSpaces_concat (congrArg Form.kind hb), hbtext]
  rw [cutImportant, show ((ts ++ [b, m]).reverse.dropWhile Token.isGap).reverse = ts ++ [b, m] from
    congrArg Prod.fst hcut, show ((ts ++ [b, m]).reverse.takeWhile Token.isGap).reverse = [] from
    congrArg Prod.snd hcut, hlast]
  dsimp only
  rw [htext, if_pos (by decide), hdrop, hspaces]
  rfl

/-- A value is cut from its mark, if it has one. -/
theorem cutImportant_of_value {value : String} {important : Bool} (hvalue : IsPhrase value)
    (h : ts.map Token.form = phrase value ++ trail (mark important)) :
    ∃ first body kept, ts = first :: body ∧ first.kind = .word ∧
      cutImportant ts = (kept, important, none) ∧ kept.map Token.form = phrase value := by
  have hfirst : ∃ first body, ts = first :: body ∧ first.kind = .word := by
    obtain ⟨w, ws, hwords, -, -⟩ := hvalue.exists_words
    rw [phrase, hwords] at h
    obtain ⟨first, body, rfl, hfirst, -⟩ := List.map_eq_cons_iff.mp h
    exact ⟨first, body, rfl, congrArg Form.kind hfirst⟩
  obtain ⟨first, body, hts, hword⟩ := hfirst
  -- The value starts with a word either way; what is cut depends on the mark.
  suffices hcut : ∃ kept, cutImportant ts = (kept, important, none) ∧
      kept.map Token.form = phrase value by
    obtain ⟨kept, hcut, hkept⟩ := hcut
    exact ⟨first, body, kept, hts, hword, hcut, hkept⟩
  cases important with
  | false =>
    rw [show trail (mark false) = [] from rfl, List.append_nil] at h
    exact ⟨ts, cutImportant_of_phrase hvalue h, h⟩
  | true =>
    obtain ⟨kept, back, hsplit, hkept, hback⟩ := List.map_eq_append_iff.mp h
    obtain ⟨c, back, rfl, hc, hback⟩ := List.map_eq_cons_iff.mp hback
    obtain ⟨m, rfl, hm⟩ := List.map_eq_singleton_iff.mp hback
    rw [hsplit]
    exact ⟨kept, cutImportant_of_mark hvalue hkept hc hm, hkept⟩

/-- A value and its mark are words and blanks, with a word at the end. -/
theorem quiet_of_value {value : String} {important : Bool} (hvalue : IsPhrase value)
    (h : ts.map Token.form = phrase value ++ trail (mark important)) :
    Quiet ts ∧ EndsWithWord ts := by
  obtain ⟨kept, back, rfl, hkept, hback⟩ := List.map_eq_append_iff.mp h
  constructor
  · intro t ht
    obtain ⟨f, hf, hkind, -⟩ := kind_of_mem h ht
    have hform : f.kind = .word ∨ f.kind = .space := by
      rcases List.mem_append.mp hf with hf | hf
      · exact kind_of_mem_trail (List.mem_of_mem_tail hf)
      · exact kind_of_mem_trail hf
    rw [hkind, Token.isGap, hkind]
    exact hform.imp_right fun hspace => by rw [hspace]; rfl
  -- The last word is the mark, when there is one.
  · cases important with
    | false =>
      obtain rfl : back = [] := List.map_eq_nil_iff.mp hback
      rw [List.append_nil]
      exact endsWithWord_of_phrase hvalue hkept
    | true => exact (endsWithWord_of_trail (List.cons_ne_nil _ _) hback).append kept

theorem cutHack_of_word {prop : String} (hprop : IsWord prop) : cutHack prop = ("", prop) := by
  obtain ⟨c, cs, htext, hc, -⟩ := hprop.exists_cons
  rw [cutHack, htext]
  split
  · rename_i heq
    cases heq
    exact absurd hc (by decide)
  · rename_i heq
    cases heq
    exact absurd hc (by decide)
  · rfl

/-- Blanks and a colon are all that stands between a property and a value. -/
theorem cutBetween_of_spaces {front : List Token} {c : Token}
    (hfront : ∀ u ∈ front, u.kind = .space) (hc : c.kind = .colon) (between : String) :
    cutBetween between (front ++ c :: ts) = .ok (between ++ Token.join front ++ c.text, ts) := by
  induction front generalizing between with
  | nil =>
    rw [List.nil_append, cutBetween, hc, Token.join_nil, String.append_empty]
    rfl
  | cons u front ih =>
    rw [List.forall_mem_cons] at hfront
    rw [List.cons_append, cutBetween, hfront.1, Token.join_cons, ← String.append_assoc,
      ← ih hfront.2]
    rfl

theorem findColon_of_no_colon {depth : Int} {prev : Option Token} {seen : List Token}
    (hts : ∀ u ∈ ts, u.kind ≠ .colon) : findColon depth prev seen ts = .ok none := by
  induction ts generalizing depth prev seen with
  | nil => rfl
  | cons u ts ih =>
    rw [List.forall_mem_cons] at hts
    simp only [findColon, beq_false_of_ne hts.1, Bool.and_false, Bool.false_eq_true, ↓reduceIte]
    exact ih hts.2

/-- A declaration is taken apart into its property and what is cut from its mark, whatever blanks
are around its colon. -/
theorem readDeclaration_of_body {p c : Token} {front back kept : List Token} {prop : String}
    {important : Bool} {rawMark : Option String} (hp : p.form = word prop) (hprop : IsWord prop)
    (hfront : ∀ u ∈ front, u.kind = .space) (hc : c.kind = .colon)
    (hback : ∀ u ∈ back, u.kind = .space) (hfirst : ∃ first body, ts = first :: body ∧
      first.kind = .word) (hcut : cutImportant ts = (kept, important, rawMark))
    (hword : ∃ u ∈ kept, u.kind = .word) (hcolon : ∀ u ∈ kept, u.kind ≠ .colon) :
    ∃ parts, readDeclaration false (p :: (front ++ c :: (back ++ ts))) = .ok parts ∧
      parts.prop = prop ∧ parts.value = (cleanField false kept).1 ∧
      parts.important = important := by
  obtain ⟨first, body, hsplit, hfirst⟩ := hfirst
  have hpkind : p.kind = .word := congrArg Form.kind hp
  -- The property is all in front of the colon and its blanks.
  have hlead : cutLead (p :: (front ++ c :: (back ++ ts))) =
      .ok ([], p, front ++ c :: (back ++ ts)) := by
    rw [cutLead, hpkind]
    rfl
  have hpends : endsProperty p = false := by rw [endsProperty, Token.isGap, hpkind]; rfl
  have hends : ∀ u ∈ (front ++ c :: (back ++ ts)).head?, (!endsProperty u) = false := by
    intro u hu
    cases front with
    | nil =>
      obtain rfl : c = u := by simpa using hu
      rw [endsProperty, hc]
      rfl
    | cons v front =>
      obtain rfl : v = u := by simpa using hu
      rw [endsProperty, isGap_of_space (hfront v List.mem_cons_self), Bool.or_true]
      rfl
  have hlone : ∀ u ∈ [p], (!endsProperty u) = true := by simp [hpends]
  have htake := takeWhile_of_head hlone hends
  have hdrop := dropWhile_of_head hlone hends
  rw [List.singleton_append] at htake hdrop
  have hhack : cutHack (Token.join [p]) = ("", prop) := by
    rw [Token.join_cons, Token.join_nil, String.append_empty,
      show p.text = prop from congrArg Form.text hp, cutHack_of_word hprop]
  -- The value starts behind the blanks and has no second colon.
  have hgaps : ∀ u ∈ back, u.isGap = true := fun u hu => isGap_of_space (hback u hu)
  have hstop : ∀ u ∈ ts.head?, u.isGap = false := by
    rw [hsplit]
    rintro u ⟨⟩
    exact isGap_of_word hfirst
  have hany : (kept.any fun t => !t.isGap) = true := by
    obtain ⟨u, hu, hkind⟩ := hword
    exact List.any_eq_true.mpr ⟨u, hu, by rw [isGap_of_word hkind]; rfl⟩
  have hmissed : missedSemicolon? kept = .ok () := by
    rw [missedSemicolon?, findColon_of_no_colon hcolon]
    rfl
  have hne : ts.isEmpty = false := by rw [hsplit]; rfl
  refine ⟨⟨Token.join [] ++ "", p, prop, "" ++ Token.join front ++ c.text ++ Token.join back,
    (cleanField false kept).1, (cleanField false kept).2, important, rawMark⟩, ?_, rfl, rfl, rfl⟩
  rw [readDeclaration, hlead]
  simp [bind, Except.bind, htake, hdrop, cutBetween_of_spaces hfront hc, hhack,
    takeWhile_of_head hgaps hstop, dropWhile_of_head hgaps hstop, hne, hcut, hany, hmissed]

/-- A plain declaration is taken apart into its fields, whatever blanks are around its colon. -/
theorem readDeclaration_of_forms {p c : Token} {front back : List Token} {prop value : String}
    {important : Bool} (hp : p.form = word prop) (hprop : IsWord prop)
    (hfront : ∀ u ∈ front, u.kind = .space) (hc : c.kind = .colon)
    (hback : ∀ u ∈ back, u.kind = .space) (hvalue : IsPhrase value)
    (hts : ts.map Token.form = phrase value ++ trail (mark important)) :
    ∃ parts, readDeclaration false (p :: (front ++ c :: (back ++ ts))) = .ok parts ∧
      parts.prop = prop ∧ parts.value = value ∧ parts.important = important := by
  obtain ⟨first, body, kept, hsplit, hfirst, hcut, hkept⟩ := cutImportant_of_value hvalue hts
  have hkinds : ∀ u ∈ kept, u.kind ≠ .colon := by
    intro u hu
    obtain ⟨f, hf, hkind, -⟩ := kind_of_mem hkept hu
    rw [hkind]
    rcases kind_of_mem_trail (List.mem_of_mem_tail hf) with h | h <;> rw [h] <;> decide
  obtain ⟨kepts, last, rfl, hlast⟩ := endsWithWord_of_phrase hvalue hkept
  have hread := readDeclaration_of_body hp hprop hfront hc hback ⟨first, body, hsplit, hfirst⟩ hcut
    ⟨last, by simp, hlast⟩ hkinds
  rwa [cleanField_of_phrase hvalue hkept] at hread

end Stylesheet
