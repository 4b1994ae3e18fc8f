import Mathlib.Data.List.TakeWhile
import Mathlib.Tactic.SplitIfs
import Stylesheet.Proofs.Token.Spelling
import Stylesheet.Statement.Basic

/-!
# What follows a statement

A declaration without a semicolon, and an at-rule at the end of the text, are the last node of
their block: only white space and comments stand between them and the closing brace or the end of
the text (`endsBlock_of_endsOpen`). Such tokens stay of this shape statement by statement
(`EndsBlock.next`).

The tokens of a statement fit (`nextStatement_fits`): braces and semicolons stand where the
statement says so. What is said of single statements is said for each way in which the first one is
read (`FirstStatement`).
-/

namespace Stylesheet

/-! ### Statements whose tokens fit -/

/-- The token at the end of an at-rule is what it is said to be. -/
def AtRuleEnd.Fits : AtRuleEnd → Prop
  | .semicolon t => t.text = ";"
  | .block t => t.text = "\x7b"
  | .close t => t.text = "\x7d"
  | .textEnd => True

/-- The tokens of a statement are what they are said to be. -/
def Statement.Fits : Statement → Prop
  | .space _ => True
  | .semicolon t => t.text = ";"
  | .close t => t.text = "\x7d"
  | .comment t => t.Spelled ∧ t.kind = .comment
  | .block t => t.text = "\x7b"
  | .rule _ brace => brace.text = "\x7b"
  | .declaration _ ts => ∀ t ∈ ts, t.Spelled
  | .atRule name params ending =>
    name.Spelled ∧ name.kind = .atWord ∧ (∀ t ∈ params, t.Spelled) ∧ ending.Fits

/-- Whether the statement can stand behind a declaration without a semicolon. -/
def Statement.isTrailing : Statement → Bool
  | .space _ | .comment _ | .close _ => true
  | _ => false

/-- Whether no node can stand behind the statement in the same block. -/
def Statement.endsOpen : Statement → Bool
  | .declaration _ ts => !(ts.getLast?.any fun t => t.kind == .semicolon)
  | .atRule _ _ .textEnd => true
  | _ => false

/-- Only white space and comments stand in front of a closing brace or the end of the text. -/
def EndsBlock (ts : List Token) : Prop :=
  ∀ t ∈ (ts.dropWhile Token.isGap).head?, t.kind = .closeCurly

/-- A closing brace or the end of the text comes next. -/
def EndsNow (ts : List Token) : Prop :=
  ∀ t ∈ ts.head?, t.kind = .closeCurly

variable {pending : Option Unclosed} {t : Token} {ts rest : List Token} {s : Statement}

theorem EndsBlock.nil : EndsBlock [] :=
  nofun

theorem EndsBlock.of_closeCurly (ht : t.kind = .closeCurly) : EndsBlock (t :: ts) := by
  have hgap : t.isGap = false := by
    rw [Token.isGap, ht]
    rfl
  intro u hu
  rw [List.dropWhile_cons_of_neg (by rw [hgap]; exact Bool.false_ne_true)] at hu
  obtain rfl : t = u := by simpa using hu
  exact ht

theorem EndsNow.nil : EndsNow [] :=
  nofun

theorem EndsNow.endsBlock (h : EndsNow ts) : EndsBlock ts := by
  cases ts with
  | nil => exact .nil
  | cons t ts => exact .of_closeCurly (h t rfl)

theorem EndsBlock.append_gaps {gaps : List Token} (hgaps : ∀ u ∈ gaps, u.isGap = true)
    (h : EndsBlock ts) : EndsBlock (gaps ++ ts) := by
  rw [EndsBlock, List.dropWhile_append_of_pos hgaps]
  exact h

theorem EndsBlock.of_cons_gap (ht : t.isGap = true) (h : EndsBlock (t :: ts)) : EndsBlock ts := by
  rw [EndsBlock, List.dropWhile_cons_of_pos ht] at h
  exact h

theorem EndsBlock.kind_of_not_gap (ht : t.isGap = false) (h : EndsBlock (t :: ts)) :
    t.kind = .closeCurly := by
  refine h t ?_
  rw [List.dropWhile_cons_of_neg (by rw [ht]; exact Bool.false_ne_true)]
  rfl

/-! ### Runs -/

/-- A run is ended by a semicolon, by a brace or by the end of the text. -/
theorem kind_of_cutRun {custom : Bool} {state : RunState} {e : Token}
    (h : (cutRun custom state ts).rest = e :: rest) :
    e.kind = .semicolon ∨ e.kind = .openCurly ∨ e.kind = .closeCurly := by
  induction ts generalizing state with
  | nil => cases h
  | cons u us ih =>
    rw [cutRun] at h
    split_ifs at h with hend
    · cases h
      rw [RunState.endsAt] at hend
      simp only [Bool.and_eq_true, Bool.or_eq_true, beq_iff_eq] at hend
      rcases hend.2 with (hk | hk) | ⟨hk, -⟩
      · exact Or.inl hk
      · exact Or.inr (Or.inr hk)
      · exact Or.inr (Or.inl hk)
    · exact ih h

/-- There is a colon among the tokens. -/
def HasColon (ts : List Token) : Prop :=
  ∃ u ∈ ts, u.kind = .colon

theorem RunState.colon_step {custom : Bool} {state : RunState}
    (h : (state.step custom t).colon = true) : state.colon = true ∨ t.kind = .colon := by
  rw [step] at h
  split at h
  · exact Or.inl h
  · split at h
    · exact Or.inl h
    · split at h
      · split at h
        · rename_i hk
          exact Or.inr (beq_iff_eq.mp hk)
        · exact Or.inl h
      · split at h <;> exact Or.inl h

/-- Where a run knows of a colon, it has read one. -/
theorem hasColon_of_cutRun {custom : Bool} {state : RunState}
    (h : (cutRun custom state ts).state.colon = true) :
    state.colon = true ∨ HasColon (cutRun custom state ts).taken := by
  induction ts generalizing state with
  | nil => exact Or.inl h
  | cons u us ih =>
    rw [cutRun] at h ⊢
    split_ifs at h ⊢
    · exact Or.inl h
    · rcases ih h with hstep | ⟨v, hv, hk⟩
      · refine (RunState.colon_step hstep).imp_right fun hk => ?_
        exact ⟨u, List.mem_cons_self, hk⟩
      · exact Or.inr ⟨v, List.mem_cons_of_mem _ hv, hk⟩

/-! ### At-rules -/

theorem atRuleEnd?_fits {ending : AtRuleEnd} (ht : t.Spelled) (h : atRuleEnd? t = some ending) :
    ending.Fits ∧ ending ≠ .textEnd := by
  rw [atRuleEnd?] at h
  split at h
  case h_1 hk => cases h; exact ⟨ht.text_of_semicolon hk, by simp⟩
  case h_2 hk => cases h; exact ⟨ht.text_of_openCurly hk, by simp⟩
  case h_3 hk => cases h; exact ⟨ht.text_of_closeCurly hk, by simp⟩
  case h_4 => cases h

/-- The end of an at-rule is what it is said to be, and nothing is left behind the end of the
text. -/
theorem cutParams_fits {expected : List TokenKind} (hts : ∀ u ∈ ts, u.Spelled) :
    (cutParams expected ts).2.1.Fits ∧
      ((cutParams expected ts).2.1 = .textEnd → (cutParams expected ts).2.2 = []) := by
  induction ts generalizing expected with
  | nil => exact ⟨trivial, fun _ => rfl⟩
  | cons u us ih =>
    have hus : ∀ v ∈ us, v.Spelled := fun v hv => hts v (List.mem_cons_of_mem _ hv)
    rw [cutParams]
    dsimp only
    split
    · rename_i ending hend
      split_ifs at hend
      obtain ⟨hfits, hne⟩ := atRuleEnd?_fits (hts u List.mem_cons_self) hend
      exact ⟨hfits, fun h => absurd h hne⟩
    · exact ih hus

theorem atRuleStatement_eq_ok (h : atRuleStatement pending t ts = .ok (s, rest)) :
    s = .atRule t (cutParams [] ts).1 (cutParams [] ts).2.1 ∧ rest = (cutParams [] ts).2.2 := by
  simp only [atRuleStatement] at h
  split_ifs at h
  split at h
  · cases h
  · cases h
    exact ⟨rfl, rfl⟩

/-! ### All statements -/

/-- The first statement of tokens that have one and what it leaves, for each way in which it is
read. -/
inductive FirstStatement (t : Token) (ts : List Token) : Statement → List Token → Prop
  | space (ht : t.kind = .space) : FirstStatement t ts (.space t) ts
  | semicolon (ht : t.kind = .semicolon) : FirstStatement t ts (.semicolon t) ts
  | close (ht : t.kind = .closeCurly) : FirstStatement t ts (.close t) ts
  | comment (ht : t.kind = .comment) : FirstStatement t ts (.comment t) ts
  | block (ht : t.kind = .openCurly) : FirstStatement t ts (.block t) ts
  | atRule (ht : t.kind = .atWord) :
    FirstStatement t ts (.atRule t (cutParams [] ts).1 (cutParams [] ts).2.1) (cutParams [] ts).2.2
  | rule {taken rest : List Token} {e : Token} (he : e.kind = .openCurly) :
    FirstStatement t ts (.rule taken e) rest
  | closed {taken rest : List Token} {e : Token} (he : e.kind = .semicolon)
    (hcolon : HasColon taken) :
    FirstStatement t ts (.declaration (t.text.startsWith "--") (taken ++ [e])) rest
  | custom {taken rest : List Token} (hcustom : t.text.startsWith "--" = true)
    (hcolon : HasColon taken) (hrest : EndsNow rest) :
    FirstStatement t ts (.declaration true taken) rest
  | plain {taken rest : List Token} (hplain : t.text.startsWith "--" = false)
    (hcolon : HasColon taken) (hrest : EndsNow rest) :
    FirstStatement t ts (.declaration false (cutGaps taken).1) ((cutGaps taken).2 ++ rest)

namespace FirstStatement

/-- A declaration that no semicolon ends. -/
theorem of_openDeclaration {taken left : List Token} (hcolon : HasColon taken)
    (hleft : EndsNow left)
    (h : openDeclaration (t.text.startsWith "--") taken left = (s, rest)) :
    FirstStatement t ts s rest := by
  cases hcustom : t.text.startsWith "--" with
  | true =>
    rw [hcustom] at h
    cases h
    exact .custom hcustom hcolon hleft
  | false =>
    rw [hcustom] at h
    cases h
    exact .plain hcustom hcolon hleft

theorem of_runStatement (h : runStatement pending t ts = .ok (s, rest)) :
    FirstStatement t ts s rest := by
  have hcolon : (cutRun (t.text.startsWith "--")
      (({} : RunState).step (t.text.startsWith "--") t) ts).state.colon = true →
      HasColon (t :: (cutRun (t.text.startsWith "--")
        (({} : RunState).step (t.text.startsWith "--") t) ts).taken) := by
    intro h
    rcases hasColon_of_cutRun h with hstep | ⟨u, hu, hk⟩
    · exact ⟨t, List.mem_cons_self, (RunState.colon_step hstep).resolve_left Bool.false_ne_true⟩
    · exact ⟨u, List.mem_cons_of_mem _ hu, hk⟩
  simp only [runStatement] at h
  cases hrest : (cutRun (t.text.startsWith "--")
    (({} : RunState).step (t.text.startsWith "--") t) ts).rest with
  | nil =>
    -- At the end of the text, the run is a declaration unless something was left open.
    rw [hrest] at h
    cases pending with
    | some u => cases h
    | none =>
      dsimp only at h
      split at h
      · cases h
      · split_ifs at h with hc
        exact .of_openDeclaration (hcolon hc) .nil (Except.ok.inj h)
  | cons e more =>
    have hkind := kind_of_cutRun hrest
    rw [hrest] at h
    rcases hkind with hk | hk | hk
    · simp only [hk] at h
      split_ifs at h with hc
      cases h
      exact .closed hk (hcolon hc)
    · simp only [hk] at h
      cases h
      exact .rule hk
    · simp only [hk] at h
      split_ifs at h with hc
      have hnow : EndsNow (e :: more) := by
        rintro u ⟨⟩
        exact hk
      exact .of_openDeclaration (hcolon hc) hnow (Except.ok.inj h)

/-- A statement was read in one of these ways. -/
theorem of_nextStatement (h : nextStatement pending t ts = .ok (s, rest)) :
    FirstStatement t ts s rest := by
  unfold nextStatement at h
  split at h
  case h_1 ht => cases h; exact .space ht
  case h_2 ht => cases h; exact .semicolon ht
  case h_3 ht => cases h; exact .close ht
  case h_4 ht => cases h; exact .comment ht
  case h_5 ht => cases h; exact .block ht
  case h_6 ht =>
    obtain ⟨rfl, rfl⟩ := atRuleStatement_eq_ok h
    exact .atRule ht
  case h_7 => exact .of_runStatement h

end FirstStatement

/-- The tokens of a statement fit. -/
theorem nextStatement_fits (hts : ∀ u ∈ t :: ts, u.Spelled)
    (h : nextStatement pending t ts = .ok (s, rest)) : s.Fits := by
  have ht := hts t List.mem_cons_self
  have htokens : ∀ u ∈ s.tokens, u.Spelled := by
    intro u hu
    refine hts u ?_
    rw [← nextStatement_append h]
    exact List.mem_append_left _ hu
  -- Statements of one token say its text; the others consist of tokens that say theirs.
  cases FirstStatement.of_nextStatement h with
  | space => trivial
  | semicolon hk => exact ht.text_of_semicolon hk
  | close hk => exact ht.text_of_closeCurly hk
  | comment hk => exact ⟨ht, hk⟩
  | block hk => exact ht.text_of_openCurly hk
  | atRule hk =>
    refine ⟨ht, hk, fun u hu => htokens u ?_, ?_⟩
    · rw [Statement.tokens, List.cons_append]
      exact List.mem_cons_of_mem _ (List.mem_append_left _ hu)
    · exact (cutParams_fits fun u hu => hts u (List.mem_cons_of_mem _ hu)).1
  | @rule taken rest e he =>
    exact (htokens e (by simp [Statement.tokens])).text_of_openCurly he
  | closed | custom | plain => exact htokens

/-- Nothing but the end of the block follows a statement that no semicolon and no brace ends. -/
theorem endsBlock_of_endsOpen (hts : ∀ u ∈ t :: ts, u.Spelled)
    (h : nextStatement pending t ts = .ok (s, rest)) (hopen : s.endsOpen = true) :
    EndsBlock rest := by
  cases FirstStatement.of_nextStatement h with
  | atRule =>
    have hend : (cutParams [] ts).2.1 = .textEnd := by
      cases hc : (cutParams [] ts).2.1 with
      | textEnd => rfl
      | _ => rw [hc, Statement.endsOpen] at hopen <;> cases hopen
    rw [(cutParams_fits fun u hu => hts u (List.mem_cons_of_mem _ hu)).2 hend]
    exact EndsBlock.nil
  | closed hk => simp [Statement.endsOpen, hk] at hopen
  | custom _ _ hrest => exact hrest.endsBlock
  | plain _ _ hrest =>
    refine hrest.endsBlock.append_gaps fun u hu => ?_
    rw [cutGaps, List.mem_reverse] at hu
    exact List.mem_takeWhile_imp hu
  | _ => cases hopen

/-- At the end of a block only white space, comments and the closing brace are read. -/
theorem EndsBlock.next (hend : EndsBlock (t :: ts))
    (h : nextStatement pending t ts = .ok (s, rest)) :
    s.isTrailing = true ∧ ((∃ u, s = .close u) ∨ EndsBlock rest) := by
  cases hgap : t.isGap with
  | true =>
    have hrest := hend.of_cons_gap hgap
    rw [Token.isGap, Bool.or_eq_true, beq_iff_eq, beq_iff_eq] at hgap
    rcases hgap with hk | hk
    · rw [nextStatement, hk] at h
      cases h
      exact ⟨rfl, Or.inr hrest⟩
    · rw [nextStatement, hk] at h
      cases h
      exact ⟨rfl, Or.inr hrest⟩
  | false =>
    rw [nextStatement, hend.kind_of_not_gap hgap] at h
    cases h
    exact ⟨rfl, Or.inl ⟨t, rfl⟩⟩

end Stylesheet
