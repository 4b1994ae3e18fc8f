import Stylesheet.Proofs.Outline.Read

/-!
# Statements in front of white space and comments

White space and comments behind a list of tokens are statements of their own, with two exceptions: a
custom property without a semicolon and an at-rule without an end take them in. The statements in
front of that are the same whatever white space and comments follow
(`statementsFrom_append_gaps`).
-/

namespace Stylesheet

/-- All of the tokens are white space or comments. -/
def Gaps (ts : List Token) : Prop :=
  ∀ t ∈ ts, t.isGap = true

/-! ### Runs -/

namespace RunState

/-- Only brackets are waited for. -/
def Plain (s : RunState) : Prop :=
  ∀ kind ∈ s.expected, kind = .closeParen ∨ kind = .closeSquare ∨ kind = .closeCurly

theorem Plain.opening {s : RunState} (hs : s.Plain) (t : Token) {close : TokenKind}
    (hclose : close = .closeParen ∨ close = .closeSquare ∨ close = .closeCurly) :
    (s.opening t close).Plain :=
  List.forall_mem_cons.mpr ⟨hclose, hs⟩

theorem Plain.step {s : RunState} (hs : s.Plain) (custom : Bool) (t : Token) :
    (s.step custom t).Plain := by
  unfold RunState.step
  -- A kind is pushed by an opening token only, and it is one of three.
  cases hclose : closingKind? t.kind with
  | some close =>
    refine hs.opening t ?_
    unfold closingKind? at hclose
    split at hclose <;> cases hclose <;> decide
  | none =>
    dsimp only
    by_cases hcurly : (custom && s.colon && t.kind == .openCurly) = true
    · rw [if_pos hcurly]
      exact hs.opening t (by decide)
    · rw [if_neg hcurly]
      cases hexpected : s.expected with
      | nil =>
        rw [Plain, hexpected] at hs
        dsimp only
        split_ifs
        · exact hs
        · rwa [Plain, hexpected]
      | cons kind more =>
        rw [Plain, hexpected] at hs
        dsimp only
        by_cases hkind : (t.kind == kind) = true
        · rw [if_pos hkind]
          exact fun k hk => hs k (List.mem_cons_of_mem _ hk)
        · rw [if_neg hkind]
          rwa [Plain, hexpected]

variable {t : Token}

theorem endsAt_of_isGap (ht : t.isGap = true) (custom : Bool) (s : RunState) :
    s.endsAt custom t = false := by
  rw [endsAt]
  rcases Token.isGap_iff.mp ht with hkind | hkind <;> simp [hkind]

theorem Plain.step_of_isGap {s : RunState} (hs : s.Plain) (ht : t.isGap = true) (custom : Bool) :
    s.step custom t = s := by
  have hopen : closingKind? t.kind = none ∧ t.kind ≠ .openCurly ∧ t.kind ≠ .colon := by
    rcases Token.isGap_iff.mp ht with hkind | hkind <;> rw [hkind] <;> exact ⟨rfl, by decide⟩
  obtain ⟨hclose, hcurly, hcolon⟩ := hopen
  unfold RunState.step
  rw [hclose]
  dsimp only
  rw [beq_false_of_ne hcurly, Bool.and_false, if_neg Bool.false_ne_true]
  cases hexpected : s.expected with
  | nil => rw [beq_false_of_ne hcolon]; rfl
  | cons kind more =>
    have hkind := hs kind (by rw [hexpected]; exact List.mem_cons_self)
    -- The awaited kind is a closing one, so a gap does not meet it.
    have hne : t.kind ≠ kind := by
      rcases Token.isGap_iff.mp ht with h | h <;> rcases hkind with rfl | rfl | rfl <;>
        (rw [h]; decide)
    dsimp only
    rw [beq_false_of_ne hne, if_neg Bool.false_ne_true]

/-- The outermost open bracket is known. -/
def Anchored (s : RunState) : Prop :=
  s.opened = none → s.expected = []

theorem Anchored.step {s : RunState} (hs : s.Anchored) (custom : Bool) (t : Token) :
    (s.step custom t).Anchored := by
  have hopening : ∀ close, (s.opening t close).Anchored := fun close hnone => by
    simp [RunState.opening] at hnone
  unfold RunState.step
  cases closingKind? t.kind with
  | some close => exact hopening close
  | none =>
    dsimp only
    by_cases hcurly : (custom && s.colon && t.kind == .openCurly) = true
    · rw [if_pos hcurly]
      exact hopening .closeCurly
    · rw [if_neg hcurly]
      cases hexpected : s.expected with
      | nil =>
        dsimp only
        split_ifs
        · exact fun _ => rfl
        · exact hs
      | cons kind more =>
        dsimp only
        -- The place is forgotten together with the last awaited kind.
        split_ifs with hkind hmore
        · exact fun _ => List.isEmpty_iff.mp hmore
        · intro hnone
          rw [hs hnone] at hexpected
          cases hexpected
        · exact hs

/-- Behind a bracket that opens, and behind a semicolon that does not end the run, brackets are
waited for. -/
theorem Plain.expected_step {s : RunState} (hs : s.Plain) {custom : Bool}
    (hend : s.endsAt custom t = false) (ht : t.kind = .openParen ∨ t.kind = .semicolon) :
    (s.step custom t).expected ≠ [] := by
  rcases ht with ht | ht
  · rw [RunState.step, ht]
    exact List.cons_ne_nil _ _
  · -- Inside of brackets a semicolon changes nothing.
    rw [endsAt, ht] at hend
    cases hexpected : s.expected with
    | nil =>
      rw [hexpected] at hend
      cases hend
    | cons kind more =>
      have hne : TokenKind.semicolon ≠ kind := by
        rcases hs kind (by rw [hexpected]; exact List.mem_cons_self) with rfl | rfl | rfl <;> decide
      rw [RunState.step, ht]
      simp [closingKind?, hexpected, hne]

end RunState

/-- One more token: it ends the run, or belongs to it, or comes too late. -/
theorem cutRun_concat (custom : Bool) (s : RunState) (ts : List Token) (t : Token) :
    cutRun custom s (ts ++ [t]) =
      if (cutRun custom s ts).rest = [] then
        if (cutRun custom s ts).state.endsAt custom t then ⟨ts, [t], (cutRun custom s ts).state⟩
        else ⟨ts ++ [t], [], (cutRun custom s ts).state.step custom t⟩
      else { cutRun custom s ts with rest := (cutRun custom s ts).rest ++ [t] } := by
  induction ts generalizing s with
  | nil => rw [List.nil_append, cutRun, cutRun, cutRun, if_pos rfl]
  | cons u ts ih =>
    rw [List.cons_append, cutRun, cutRun]
    by_cases hend : s.endsAt custom u = true
    · rw [if_pos hend, if_pos hend, if_neg (List.cons_ne_nil u ts)]
      rfl
    · rw [if_neg hend, if_neg hend, ih]
      dsimp only
      split_ifs <;> rfl

/-- A property that every token keeps holds at the end of a run. -/
theorem cutRun_state {P : RunState → Prop} {custom : Bool}
    (hP : ∀ s t, P s → P (s.step custom t)) {s : RunState} (hs : P s) (ts : List Token) :
    P (cutRun custom s ts).state := by
  induction ts generalizing s with
  | nil => exact hs
  | cons t ts ih =>
    rw [cutRun]
    split_ifs
    · exact hs
    · exact ih (hP s t hs)

/-- When no bracket is open at the end of the text, the last token opened none, and was no
semicolon. -/
theorem kind_of_cutRun_last {custom : Bool} {s : RunState} (hs : s.Plain) {ts : List Token}
    {t : Token} (hrest : (cutRun custom s (ts ++ [t])).rest = [])
    (hexpected : (cutRun custom s (ts ++ [t])).state.expected = []) :
    t.kind ≠ .openParen ∧ t.kind ≠ .semicolon := by
  have hplain := cutRun_state (P := RunState.Plain) (fun _ t h => h.step custom t) hs ts
  rw [cutRun_concat] at hrest hexpected
  split_ifs at hrest hexpected with hleft hend
  · rw [← not_or]
    exact fun ht => hplain.expected_step (Bool.eq_false_iff.mpr hend) ht hexpected
  · simp at hrest

variable {gs : List Token}

theorem cutRun_of_gaps (hgs : Gaps gs) (custom : Bool) {s : RunState} (hs : s.Plain) :
    cutRun custom s gs = ⟨gs, [], s⟩ := by
  induction gs with
  | nil => rfl
  | cons t gs ih =>
    obtain ⟨ht, hgs⟩ := List.forall_mem_cons.mp hgs
    rw [cutRun, RunState.endsAt_of_isGap ht, hs.step_of_isGap ht, if_neg Bool.false_ne_true,
      ih hgs]

/-- A run that nothing ends goes on over white space and comments. -/
theorem cutRun_append_gaps (hgs : Gaps gs) (custom : Bool) {s : RunState} (hs : s.Plain)
    (ts : List Token) :
    cutRun custom s (ts ++ gs) =
      if (cutRun custom s ts).rest = [] then ⟨ts ++ gs, [], (cutRun custom s ts).state⟩
      else { cutRun custom s ts with rest := (cutRun custom s ts).rest ++ gs } := by
  induction ts generalizing s with
  | nil => exact cutRun_of_gaps hgs custom hs
  | cons t ts ih =>
    rw [List.cons_append, cutRun, cutRun]
    by_cases hend : s.endsAt custom t = true
    · rw [if_pos hend, if_pos hend, if_neg (List.cons_ne_nil t ts)]
      rfl
    · rw [if_neg hend, if_neg hend, ih (hs.step custom t)]
      dsimp only
      split_ifs <;> rfl

theorem cutGaps_append_gaps (hgs : Gaps gs) (ts : List Token) :
    cutGaps (ts ++ gs) = ((cutGaps ts).1, (cutGaps ts).2 ++ gs) := by
  have hall : ∀ t ∈ gs.reverse, t.isGap = true := fun t ht => hgs t (List.mem_reverse.mp ht)
  rw [cutGaps, cutGaps, List.reverse_append, List.dropWhile_append_of_pos hall,
    List.takeWhile_append_of_pos hall, List.reverse_append, List.reverse_reverse]

/-! ### One statement -/

/-- Whether the statement takes in what follows it, up to a closing brace: an at-rule at the end of
the text, and a custom property without a semicolon. -/
def Statement.takesRest : Statement → Bool
  | .declaration custom ts => custom && !(ts.getLast?.any fun t => t.kind == .semicolon)
  | .atRule _ _ .textEnd => true
  | _ => false

theorem takesRest_of_gaps (hgs : Gaps gs) {ts : List Token}
    (hlast : ∀ t ∈ ts.getLast?, t.kind ≠ .semicolon) :
    (Statement.declaration true (ts ++ gs)).takesRest = true := by
  have hnone : ((ts ++ gs).getLast?.any fun t => t.kind == .semicolon) = false := by
    rw [List.getLast?_append]
    cases hg : gs.getLast? with
    | none =>
      rw [Option.none_or]
      cases ht : ts.getLast? with
      | none => rfl
      | some t => simpa using hlast t ht
    | some g =>
      rcases Token.isGap_iff.mp (hgs g (List.mem_of_getLast? hg)) with h | h <;> simp [h]
  rw [Statement.takesRest, hnone]
  rfl

theorem plain_empty : RunState.Plain {} := by
  intro kind hkind
  cases hkind

theorem anchored_empty : RunState.Anchored {} :=
  fun _ => rfl

theorem openDeclaration_behind (custom : Bool) (ts rest gs : List Token) :
    openDeclaration custom ts (rest ++ gs) =
      ((openDeclaration custom ts rest).1, (openDeclaration custom ts rest).2 ++ gs) := by
  cases custom with
  | true => rfl
  | false => simp [openDeclaration]

theorem openDeclaration_append_gaps (hgs : Gaps gs) (ts : List Token) :
    openDeclaration false (ts ++ gs) [] =
      ((openDeclaration false ts []).1, (openDeclaration false ts []).2 ++ gs) := by
  simp only [openDeclaration, Bool.false_eq_true, ↓reduceIte]
  rw [cutGaps_append_gaps hgs, List.append_nil, List.append_nil]

/-- What a run that starts with `t` is, at the end of the text or in front of what is left. -/
def Run.outcome (custom : Bool) (t : Token) (run : Run) : Except Issue (Statement × List Token) :=
  match run.rest with
  | e :: rest =>
    match e.kind with
    | .semicolon =>
      if run.state.colon then .ok (.declaration custom (t :: run.taken ++ [e]), rest)
      else .error (Issue.about .unknownWord t)
    | .openCurly => .ok (.rule (t :: run.taken) e, rest)
    | _ => if run.state.colon then .ok (openDeclaration custom (t :: run.taken) (e :: rest))
        else .error (Issue.about .unknownWord t)
  | [] =>
    match run.state.expected, run.state.opened with
    | _ :: _, some bracket =>
      .error ⟨.unclosed .bracket, bracket.start, some (bracket.start + 1)⟩
    | _, _ =>
      if run.state.colon then .ok (openDeclaration custom (t :: run.taken) [])
      else .error (Issue.about .unknownWord t)

theorem runStatement_none (t : Token) (ts : List Token) :
    runStatement none t ts = (cutRun (t.text.startsWith "--")
      (({} : RunState).step (t.text.startsWith "--") t) ts).outcome (t.text.startsWith "--") t :=
  rfl

theorem Run.outcome_behind (custom : Bool) (t e : Token) (taken more gs : List Token)
    (state : RunState) :
    outcome custom t ⟨taken, e :: (more ++ gs), state⟩ =
      (outcome custom t ⟨taken, e :: more, state⟩).map fun p => (p.1, p.2 ++ gs) := by
  have hopen := openDeclaration_behind custom (t :: taken) (e :: more) gs
  unfold outcome
  dsimp only
  cases e.kind with
  | semicolon => dsimp only; split_ifs <;> rfl
  | openCurly => rfl
  | _ =>
    dsimp only
    split_ifs
    · exact congrArg Except.ok hopen
    · rfl

/-- At the end of the text a run is a declaration, when no bracket is open and it has a colon. -/
theorem Run.outcome_eq_ok_iff {custom : Bool} {t : Token} {taken : List Token} {state : RunState}
    {p : Statement × List Token} : outcome custom t ⟨taken, [], state⟩ = .ok p ↔
      (state.expected = [] ∨ state.opened = none) ∧ state.colon = true ∧
        p = openDeclaration custom (t :: taken) [] := by
  rw [outcome]
  dsimp only
  cases state.expected <;> cases state.opened <;> cases state.colon <;> simp [eq_comm]

theorem Run.outcome_of_end (hgs : Gaps gs) (t : Token) (taken : List Token) (state : RunState) :
    outcome false t ⟨taken ++ gs, [], state⟩ =
      (outcome false t ⟨taken, [], state⟩).map fun p => (p.1, p.2 ++ gs) := by
  have hopen := openDeclaration_append_gaps hgs (t :: taken)
  unfold outcome
  dsimp only
  split
  · rfl
  · split_ifs
    · exact congrArg Except.ok hopen
    · rfl

theorem Run.outcome_of_custom (t : Token) (taken gs : List Token) (state : RunState) :
    outcome true t ⟨taken ++ gs, [], state⟩ =
      (outcome true t ⟨taken, [], state⟩).map
        fun _ => (.declaration true (t :: (taken ++ gs)), []) := by
  unfold outcome
  dsimp only
  split
  · rfl
  · split_ifs <;> rfl

/-- What becomes of a statement when white space and comments follow: they are left, or it takes
them in, or it fails either way. -/
inductive BeforeGaps (t : Token) (ts : List Token) : Prop
  | leaves (s : Statement) (rest : List Token)
    (next : ∀ gs, Gaps gs → nextStatement none t (ts ++ gs) = .ok (s, rest ++ gs))
  | declaration (last : ∀ u ∈ (t :: ts).getLast?, u.kind ≠ .semicolon)
    (next : ∀ gs, Gaps gs →
      nextStatement none t (ts ++ gs) = .ok (.declaration true (t :: (ts ++ gs)), []))
  | atRule
    (next : ∀ gs, Gaps gs →
      nextStatement none t (ts ++ gs) = .ok (.atRule t (ts ++ gs) .textEnd, []))
  | fails (issue : Issue)
    (next : ∀ gs, Gaps gs → nextStatement none t (ts ++ gs) = .error issue)

theorem BeforeGaps.of_run {t : Token} (hkind : t.kind ≠ .semicolon)
    (ht : ∀ us, nextStatement none t us = runStatement none t us) (ts : List Token) :
    BeforeGaps t ts := by
  have hplain := plain_empty.step (t.text.startsWith "--") t
  have hanchored := anchored_empty.step (t.text.startsWith "--") t
  simp only [runStatement_none] at ht
  generalize t.text.startsWith "--" = custom at *
  generalize ({} : RunState).step custom t = start at *
  cases hrest : (cutRun custom start ts).rest with
  | cons e more =>
    -- Something ends the run, and nothing behind that is looked at.
    have hnext : ∀ gs, Gaps gs → nextStatement none t (ts ++ gs) =
        ((cutRun custom start ts).outcome custom t).map fun p => (p.1, p.2 ++ gs) := by
      intro gs hgs
      rw [ht, cutRun_append_gaps hgs _ hplain, if_neg (by rw [hrest]; exact List.cons_ne_nil _ _)]
      rcases hrun : cutRun custom start ts with ⟨taken, rest, state⟩
      rw [hrun] at hrest
      dsimp only at hrest ⊢
      rw [hrest, List.cons_append, Run.outcome_behind]
    cases hout : (cutRun custom start ts).outcome custom t with
    | error issue => exact .fails issue fun gs hgs => by rw [hnext gs hgs, hout]; rfl
    | ok p => exact .leaves p.1 p.2 fun gs hgs => by rw [hnext gs hgs, hout]; rfl
  | nil =>
    have hrun : ∀ gs, Gaps gs → cutRun custom start (ts ++ gs) =
        ⟨ts ++ gs, [], (cutRun custom start ts).state⟩ := by
      intro gs hgs
      rw [cutRun_append_gaps hgs _ hplain, if_pos hrest]
    have hlast : ∀ p, Run.outcome custom t ⟨ts, [], (cutRun custom start ts).state⟩ = .ok p →
        ∀ u ∈ (t :: ts).getLast?, u.kind ≠ .semicolon := by
      intro p hout u hu
      obtain ⟨hclosed, -⟩ := Run.outcome_eq_ok_iff.mp hout
      have hexpected := hclosed.elim id
        (cutRun_state (P := RunState.Anchored) (fun _ t h => h.step custom t) hanchored ts)
      rcases List.eq_nil_or_concat ts with rfl | ⟨front, e, rfl⟩
      · obtain rfl : t = u := by simpa using hu
        exact hkind
      · rw [List.concat_eq_append] at hrest hexpected hu
        obtain rfl : e = u := by simpa [List.getLast?_cons] using hu
        exact (kind_of_cutRun_last hplain hrest hexpected).2
    generalize (cutRun custom start ts).state = state at hrun hlast
    cases hout : Run.outcome custom t ⟨ts, [], state⟩ with
    | error issue =>
      refine .fails issue fun gs hgs => ?_
      rw [ht, hrun gs hgs]
      cases custom with
      | true => rw [Run.outcome_of_custom, hout]; rfl
      | false => rw [Run.outcome_of_end hgs, hout]; rfl
    | ok p =>
      cases custom with
      | true =>
        refine .declaration (hlast p hout) fun gs hgs => ?_
        rw [ht, hrun gs hgs, Run.outcome_of_custom, hout]
        rfl
      | false =>
        refine .leaves p.1 p.2 fun gs hgs => ?_
        rw [ht, hrun gs hgs, Run.outcome_of_end hgs, hout]
        rfl

/-! ### At-rules -/

theorem atRuleEnd?_ne_textEnd {t : Token} {ending : AtRuleEnd} (h : atRuleEnd? t = some ending) :
    ending ≠ .textEnd := by
  rw [atRuleEnd?] at h
  split at h <;> cases h <;> simp

theorem atRuleEnd?_of_isGap {t : Token} (ht : t.isGap = true) : atRuleEnd? t = none := by
  rw [atRuleEnd?]
  rcases Token.isGap_iff.mp ht with hkind | hkind <;> rw [hkind]

theorem cutParams_of_gaps (hgs : Gaps gs) (expected : List TokenKind) :
    cutParams expected gs = (gs, .textEnd, []) := by
  induction gs generalizing expected with
  | nil => rfl
  | cons t gs ih =>
    obtain ⟨ht, hgs⟩ := List.forall_mem_cons.mp hgs
    rw [cutParams, atRuleEnd?_of_isGap ht, ite_self]
    dsimp only
    rw [ih hgs]

/-- Parameters that nothing ends go on over white space and comments. -/
theorem cutParams_append_gaps (hgs : Gaps gs) (expected : List TokenKind) (ts : List Token) :
    cutParams expected (ts ++ gs) =
      if (cutParams expected ts).2.1 = .textEnd then (ts ++ gs, .textEnd, [])
      else ((cutParams expected ts).1, (cutParams expected ts).2.1,
        (cutParams expected ts).2.2 ++ gs) := by
  -- Token by token; gaps end nothing, so they are passed or left over.
  induction ts generalizing expected with
  | nil => exact cutParams_of_gaps hgs expected
  | cons t ts ih =>
    rw [List.cons_append, cutParams, cutParams]
    dsimp only
    cases hend : (if (expectedAfter expected t.kind).isEmpty then atRuleEnd? t else none) with
    | some ending =>
      have hne : ending ≠ .textEnd := by
        split_ifs at hend
        exact atRuleEnd?_ne_textEnd hend
      dsimp only
      rw [if_neg hne]
    | none =>
      dsimp only
      rw [ih]
      split_ifs <;> rfl

theorem nextStatement_of_atWord {t : Token} (ht : t.kind = .atWord) (ts : List Token) :
    nextStatement none t ts =
      if t.text == "@" then .error (.about .missingName t)
      else .ok (.atRule t (cutParams [] ts).1 (cutParams [] ts).2.1, (cutParams [] ts).2.2) := by
  rw [nextStatement, ht]
  dsimp only
  rw [atRuleStatement]
  rcases cutParams [] ts with ⟨params, ending, rest⟩
  cases ending <;> rfl

theorem BeforeGaps.of_atWord {t : Token} (ht : t.kind = .atWord) (ts : List Token) :
    BeforeGaps t ts := by
  have hnext := nextStatement_of_atWord ht
  by_cases hname : (t.text == "@") = true
  · exact .fails _ fun gs hgs => by rw [hnext, if_pos hname]
  · simp only [if_neg hname] at hnext
    by_cases hend : (cutParams [] ts).2.1 = .textEnd
    · exact .atRule fun gs hgs => by rw [hnext, cutParams_append_gaps hgs, if_pos hend]
    · refine .leaves (.atRule t (cutParams [] ts).1 (cutParams [] ts).2.1) (cutParams [] ts).2.2
        fun gs hgs => ?_
      rw [hnext, cutParams_append_gaps hgs, if_neg hend]

/-! ### All statements -/

theorem beforeGaps (t : Token) (ts : List Token) : BeforeGaps t ts := by
  cases hkind : t.kind with
  | space => exact .leaves _ _ fun gs hgs => by rw [nextStatement, hkind]
  | semicolon => exact .leaves _ _ fun gs hgs => by rw [nextStatement, hkind]
  | closeCurly => exact .leaves _ _ fun gs hgs => by rw [nextStatement, hkind]
  | comment => exact .leaves _ _ fun gs hgs => by rw [nextStatement, hkind]
  | openCurly => exact .leaves _ _ fun gs hgs => by rw [nextStatement, hkind]
  | atWord => exact .of_atWord hkind ts
  | _ => exact .of_run (by rw [hkind]; decide) (fun us => by rw [nextStatement, hkind]) ts

/-- The statement that white space or a comment is. -/
def gapStatement (t : Token) : Statement :=
  if t.kind = .space then .space t else .comment t

/-- How the statements of a text end: white space and comments behind them are statements of their
own, or the last statement takes them in. -/
inductive TextEnd
  | free
  | declaration (tokens : List Token)
  | atRule (name : Token) (params : List Token)

namespace TextEnd

/-- The tokens of the last statement. -/
def tokens : TextEnd → List Token
  | free => []
  | declaration ts => ts
  | atRule name params => name :: params

/-- The statements at the end, when white space and comments follow. -/
def statements (gs : List Token) : TextEnd → List Statement
  | free => gs.map gapStatement
  | declaration ts => [.declaration true (ts ++ gs)]
  | atRule name params => [.atRule name (params ++ gs) .textEnd]

/-- What is not free is in the last statement. -/
theorem exists_statement {last : TextEnd} (h : last ≠ .free) (gs : List Token) :
    ∃ s, last.statements gs = [s] := by
  cases last with
  | free => exact absurd rfl h
  | declaration ts => exact ⟨_, rfl⟩
  | atRule name params => exact ⟨_, rfl⟩

end TextEnd

/-- Statement by statement, one comes from some tokens to those that are left. -/
inductive ReadTo : List Token → List Statement → List Token → Prop
  | refl (ts : List Token) : ReadTo ts [] ts
  | cons {t : Token} {ts rest left : List Token} {s : Statement} {ss : List Statement}
    (next : nextStatement none t ts = .ok (s, rest)) (more : ReadTo rest ss left) :
    ReadTo (t :: ts) (s :: ss) left

namespace ReadTo

variable {ts left : List Token} {ss : List Statement}

theorem trans {left' : List Token} {ss' : List Statement} (h : ReadTo ts ss left)
    (h' : ReadTo left ss' left') : ReadTo ts (ss ++ ss') left' := by
  induction h with
  | refl ts => exact h'
  | cons next _ ih => exact .cons next (ih h')

/-- The tokens are those of the statements and those that are left. -/
theorem tokens_append (h : ReadTo ts ss left) : ss.flatMap Statement.tokens ++ left = ts := by
  induction h with
  | refl ts => rfl
  | cons next _ ih => rw [List.flatMap_cons, List.append_assoc, ih, nextStatement_append next]

/-- The statements of the tokens that are left come behind those that were read. -/
theorem statementsFrom_eq (h : ReadTo ts ss left) :
    statementsFrom none ts =
      (ss ++ (statementsFrom none left).1, (statementsFrom none left).2) := by
  induction h with
  | refl ts => rfl
  | cons next _ ih =>
    rw [statementsFrom_of_ok next, ih]
    rfl

theorem of_gaps (hgs : Gaps gs) (left : List Token) :
    ReadTo (gs ++ left) (gs.map gapStatement) left := by
  induction gs with
  | nil => exact .refl left
  | cons t gs ih =>
    obtain ⟨ht, hgs⟩ := List.forall_mem_cons.mp hgs
    refine .cons ?_ (ih hgs)
    rw [nextStatement, gapStatement]
    rcases Token.isGap_iff.mp ht with hkind | hkind <;> rw [hkind] <;> rfl

end ReadTo

theorem statementsFrom_of_gaps (hgs : Gaps gs) :
    statementsFrom none gs = (gs.map gapStatement, none) := by
  have hread := (ReadTo.of_gaps hgs []).statementsFrom_eq
  rwa [List.append_nil, statementsFrom, List.append_nil] at hread

/-- The statements of a list of tokens are the same up to the last one, whatever white space and
comments follow. -/
theorem statementsFrom_append_gaps (ts : List Token) (hgs : Gaps gs)
    (hissue : (statementsFrom none (ts ++ gs)).2 = none) :
    ∃ (ss : List Statement) (last : TextEnd),
      (∀ s ∈ ss, ∀ t ∈ s.tokens, t ∈ ts) ∧ (∀ t ∈ last.tokens, t ∈ ts) ∧
      (last ≠ .free → ∀ gs, Gaps gs → ∀ s ∈ last.statements gs, s.takesRest = true) ∧
      ∀ gs, Gaps gs → statementsFrom none (ts ++ gs) = (ss ++ last.statements gs, none) := by
  induction hlen : ts.length using Nat.strong_induction_on generalizing ts with
  | _ n ih =>
    cases ts with
    | nil =>
      refine ⟨[], .free, by simp, fun t ht => ?_, fun hne => absurd rfl hne,
        fun gs hgs => statementsFrom_of_gaps hgs⟩
      cases ht
    | cons t ts =>
      rw [List.cons_append] at hissue
      cases beforeGaps t ts with
      | fails issue next =>
        rw [statementsFrom_of_error (next gs hgs)] at hissue
        cases hissue
      | declaration hlast next =>
        refine ⟨[], .declaration (t :: ts), by simp, fun u hu => hu, fun _ gs hgs s hs => ?_,
          fun gs hgs => ?_⟩
        · rw [List.mem_singleton.mp hs]
          exact takesRest_of_gaps hgs hlast
        · rw [List.cons_append, statementsFrom_of_ok (next gs hgs), statementsFrom]
          rfl
      | atRule next =>
        refine ⟨[], .atRule t ts, by simp, fun u hu => hu, fun _ gs hgs s hs => ?_,
          fun gs hgs => ?_⟩
        · rw [List.mem_singleton.mp hs]
          rfl
        · rw [List.cons_append, statementsFrom_of_ok (next gs hgs), statementsFrom]
          rfl
      | leaves s rest next =>
        have hnext := next [] (by simp [Gaps])
        rw [List.append_nil, List.append_nil] at hnext
        have htokens := nextStatement_append hnext
        have hlt := nextStatement_length_lt hnext
        -- What is left is shorter, and has the same tokens behind it.
        rw [statementsFrom_of_ok (next gs hgs)] at hissue
        obtain ⟨ss, last, hss, hlast, hopen, hall⟩ := ih rest.length (by omega) rest hissue rfl
        have hrest : ∀ u ∈ rest, u ∈ t :: ts := fun u hu => by
          rw [← htokens]
          exact List.mem_append_right _ hu
        refine ⟨s :: ss, last, List.forall_mem_cons.mpr ⟨fun u hu => ?_, fun s hs u hu => ?_⟩,
          fun u hu => hrest u (hlast u hu), hopen, fun gs hgs => ?_⟩
        · rw [← htokens]
          exact List.mem_append_left _ hu
        · exact hrest u (hss s hs u hu)
        · rw [List.cons_append, statementsFrom_of_ok (next gs hgs), hall gs hgs]
          rfl

end Stylesheet
