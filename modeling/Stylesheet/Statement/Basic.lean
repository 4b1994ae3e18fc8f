import Stylesheet.Token.Basic

/-!
# Statements

The tokens of a stylesheet fall into statements: white space, a comment, the head of a rule, a
declaration, an at-rule up to its block, a closing brace. `nextStatement` takes the first statement
off a list of tokens.

* A run of tokens that starts with anything but an at-word is a rule when an opening brace ends it,
  and a declaration when it holds a colon and a semicolon, a closing brace or the end of the text
  ends it. Brackets inside it have to match.
* `nextStatement_append` and `nextStatement_ne_nil`: a statement and what is left are the tokens,
  and a statement has a token.
* `statements` takes all statements off, up to the first issue.
* An `Issue` is a reason for which a text is no stylesheet, and the bytes that it is about.
-/

namespace Stylesheet

/-! ### What can be wrong with a stylesheet -/

/-- Why a text is no stylesheet. -/
inductive Reason
  | unclosed (what : UnclosedKind)
  | unknownWord
  | missingValue
  | missingName
  | unexpectedClose
  | unclosedBlock
  | doubleColon
  | missedSemicolon
deriving Repr, DecidableEq, Inhabited

/-- What to tell about a reason. -/
def Reason.text : Reason → String
  | .unclosed what => "Unclosed " ++ what.name
  | .unknownWord => "Unknown word"
  | .missingValue => "Declaration without value"
  | .missingName => "At-rule without name"
  | .unexpectedClose => "Unexpected \x7d"
  | .unclosedBlock => "Unclosed block"
  | .doubleColon => "Double colon"
  | .missedSemicolon => "Missed semicolon"

/-- A reason and the bytes that it is about. -/
structure Issue where
  reason : Reason
  start : Nat
  stop : Option Nat := none
deriving Repr, DecidableEq, Inhabited

namespace Issue

/-- Something that does not end. -/
def ofUnclosed (u : Unclosed) : Issue :=
  { reason := .unclosed u.what, start := u.offset }

/-- An issue with one token. -/
def about (reason : Reason) (t : Token) : Issue :=
  { reason, start := t.start, stop := some t.stop }

end Issue

/-! ### The kinds of statements -/

/-- What ends the head of an at-rule. -/
inductive AtRuleEnd
  | semicolon (token : Token)
  /-- The brace that opens its block. -/
  | block (token : Token)
  /-- The brace that closes the block around it. -/
  | close (token : Token)
  | textEnd
deriving Repr, DecidableEq, Inhabited

/-- The tokens of an end. -/
def AtRuleEnd.tokens : AtRuleEnd → List Token
  | .semicolon t => [t]
  | .block t => [t]
  | .close t => [t]
  | .textEnd => []

/-- A group of tokens that belong together. -/
inductive Statement
  | space (token : Token)
  /-- A semicolon that ends nothing. -/
  | semicolon (token : Token)
  | close (token : Token)
  | comment (token : Token)
  /-- A block without a selector. -/
  | block (token : Token)
  | rule (head : List Token) (brace : Token)
  /-- A declaration, with the semicolon that ends it. In a custom property, whose name starts with
  two dashes, any value is allowed. -/
  | declaration (custom : Bool) (tokens : List Token)
  | atRule (name : Token) (params : List Token) (ending : AtRuleEnd)
deriving Repr, DecidableEq, Inhabited

namespace Statement

/-- The tokens of a statement, in order. -/
def tokens : Statement → List Token
  | .space t => [t]
  | .semicolon t => [t]
  | .close t => [t]
  | .comment t => [t]
  | .block t => [t]
  | .rule head brace => head ++ [brace]
  | .declaration _ ts => ts
  | .atRule name params ending => name :: params ++ ending.tokens

end Statement

/-! ### Runs -/

/-- What is known about a run of tokens while it is read. -/
structure RunState where
  /-- A colon stood outside of all brackets. -/
  colon : Bool := false
  /-- The outermost bracket that is open. -/
  opened : Option Token := none
  /-- The brackets that have to come, the next one first. -/
  expected : List TokenKind := []
deriving Repr, DecidableEq, Inhabited

/-- The bracket that closes one. -/
def closingKind? : TokenKind → Option TokenKind
  | .openParen => some .closeParen
  | .openSquare => some .closeSquare
  | _ => none

namespace RunState

/-- The state behind an opening bracket. -/
def opening (s : RunState) (t : Token) (close : TokenKind) : RunState :=
  { s with opened := s.opened.or (some t), expected := close :: s.expected }

/-- The state behind a token that does not end the run. -/
def step (custom : Bool) (s : RunState) (t : Token) : RunState :=
  match closingKind? t.kind with
  | some close => s.opening t close
  | none =>
    if custom && s.colon && t.kind == .openCurly then s.opening t .closeCurly
    else
      match s.expected with
      | [] => if t.kind == .colon then { s with colon := true } else s
      | kind :: more =>
        if t.kind == kind then
          { s with expected := more, opened := if more.isEmpty then none else s.opened }
        else s

/-- Whether a token ends the run. -/
def endsAt (custom : Bool) (s : RunState) (t : Token) : Bool :=
  s.expected.isEmpty &&
    (t.kind == .semicolon || t.kind == .closeCurly ||
      (t.kind == .openCurly && !(custom && s.colon)))

end RunState

/-- A run: its tokens, what is left, which starts with the token that ended the run, and what is
known about it. -/
structure Run where
  taken : List Token
  rest : List Token
  state : RunState
deriving Repr, DecidableEq, Inhabited

/-- Reads a run. -/
def cutRun (custom : Bool) (s : RunState) : List Token → Run
  | [] => ⟨[], [], s⟩
  | t :: ts =>
    if s.endsAt custom t then ⟨[], t :: ts, s⟩
    else
      let run := cutRun custom (s.step custom t) ts
      { run with taken := t :: run.taken }

/-- Tokens without the white space and comments at their end, and those. -/
def cutGaps (ts : List Token) : List Token × List Token :=
  ((ts.reverse.dropWhile Token.isGap).reverse, (ts.reverse.takeWhile Token.isGap).reverse)

/-- A declaration that no semicolon ends. White space and comments behind it are left, unless it is
a custom property. -/
def openDeclaration (custom : Bool) (ts rest : List Token) : Statement × List Token :=
  if custom then (.declaration custom ts, rest)
  else
    let (kept, gaps) := cutGaps ts
    (.declaration custom kept, gaps ++ rest)

/-- The statement that starts with `t`, a token that starts a run. -/
def runStatement (pending : Option Unclosed) (t : Token) (ts : List Token) :
    Except Issue (Statement × List Token) :=
  let custom := t.text.startsWith "--"
  let run := cutRun custom (({} : RunState).step custom t) ts
  let taken := t :: run.taken
  let unknown := Issue.about .unknownWord t
  match run.rest with
  | e :: rest =>
    match e.kind with
    | .semicolon =>
      if run.state.colon then .ok (.declaration custom (taken ++ [e]), rest) else .error unknown
    | .openCurly => .ok (.rule taken e, rest)
    | _ => if run.state.colon then .ok (openDeclaration custom taken (e :: rest))
        else .error unknown
  | [] =>
    match pending with
    | some u => .error (.ofUnclosed u)
    | none =>
      match run.state.expected, run.state.opened with
      | _ :: _, some bracket =>
        .error ⟨.unclosed .bracket, bracket.start, some (bracket.start + 1)⟩
      | _, _ =>
        if run.state.colon then .ok (openDeclaration custom taken []) else .error unknown

/-! ### At-rules -/

/-- The brackets that have to come behind one more token. A brace counts inside brackets only. -/
def expectedAfter (expected : List TokenKind) (kind : TokenKind) : List TokenKind :=
  match closingKind? kind with
  | some close => close :: expected
  | none =>
    match expected with
    | [] => []
    | next :: more =>
      if kind == .openCurly then .closeCurly :: expected
      else if kind == next then more
      else expected

/-- What a token ends, outside of all brackets. -/
def atRuleEnd? (t : Token) : Option AtRuleEnd :=
  match t.kind with
  | .semicolon => some (.semicolon t)
  | .openCurly => some (.block t)
  | .closeCurly => some (.close t)
  | _ => none

/-- Reads the parameters of an at-rule up to what ends them. -/
def cutParams (expected : List TokenKind) : List Token → List Token × AtRuleEnd × List Token
  | [] => ([], .textEnd, [])
  | t :: ts =>
    let expected := expectedAfter expected t.kind
    match (if expected.isEmpty then atRuleEnd? t else none) with
    | some ending => ([], ending, ts)
    | none =>
      let (params, ending, rest) := cutParams expected ts
      (t :: params, ending, rest)

/-- The at-rule that starts with `t`. -/
def atRuleStatement (pending : Option Unclosed) (t : Token) (ts : List Token) :
    Except Issue (Statement × List Token) :=
  if t.text == "@" then .error (.about .missingName t)
  else
    let (params, ending, rest) := cutParams [] ts
    match ending, pending with
    | .textEnd, some u => .error (.ofUnclosed u)
    | ending, _ => .ok (.atRule t params ending, rest)

/-! ### All statements -/

/-- The statement that starts with `t` and what is left. The tokens may break off at something that
does not end. -/
def nextStatement (pending : Option Unclosed) (t : Token) (ts : List Token) :
    Except Issue (Statement × List Token) :=
  match t.kind with
  | .space => .ok (.space t, ts)
  | .semicolon => .ok (.semicolon t, ts)
  | .closeCurly => .ok (.close t, ts)
  | .comment => .ok (.comment t, ts)
  | .openCurly => .ok (.block t, ts)
  | .atWord => atRuleStatement pending t ts
  | _ => runStatement pending t ts

theorem cutRun_append (custom : Bool) (s : RunState) (ts : List Token) :
    (cutRun custom s ts).taken ++ (cutRun custom s ts).rest = ts := by
  induction ts generalizing s with
  | nil => rfl
  | cons t ts ih =>
    simp only [cutRun]
    split
    · rfl
    · simp [ih]

theorem cutGaps_append (ts : List Token) : (cutGaps ts).1 ++ (cutGaps ts).2 = ts := by
  simp only [cutGaps, ← List.reverse_append, List.takeWhile_append_dropWhile,
    List.reverse_reverse]

theorem openDeclaration_append (custom : Bool) (ts rest : List Token) :
    (openDeclaration custom ts rest).1.tokens ++ (openDeclaration custom ts rest).2 =
      ts ++ rest := by
  unfold openDeclaration
  split
  · rfl
  · simp [Statement.tokens, ← List.append_assoc, cutGaps_append]

theorem runStatement_append {pending : Option Unclosed} {t : Token} {ts rest : List Token}
    {s : Statement} (h : runStatement pending t ts = .ok (s, rest)) :
    s.tokens ++ rest = t :: ts := by
  have hrun := cutRun_append (t.text.startsWith "--")
    (({} : RunState).step (t.text.startsWith "--") t) ts
  simp only [runStatement] at h
  split at h
  · rename_i e es hrest
    rw [hrest] at hrun
    split at h
    · split at h
      · cases h; simpa [Statement.tokens] using hrun
      · cases h
    · cases h; simpa [Statement.tokens] using hrun
    · split at h
      · have ho := openDeclaration_append (t.text.startsWith "--")
          (t :: (cutRun (t.text.startsWith "--")
            (({} : RunState).step (t.text.startsWith "--") t) ts).taken) (e :: es)
        rw [Except.ok.inj h] at ho
        simpa [hrun] using ho
      · cases h
  · rename_i hrest
    rw [hrest, List.append_nil] at hrun
    split at h
    · cases h
    · split at h
      · cases h
      · split at h
        · have ho := openDeclaration_append (t.text.startsWith "--")
            (t :: (cutRun (t.text.startsWith "--")
              (({} : RunState).step (t.text.startsWith "--") t) ts).taken) []
          rw [Except.ok.inj h] at ho
          simpa [hrun] using ho
        · cases h

theorem cutParams_append (expected : List TokenKind) (ts : List Token) :
    (cutParams expected ts).1 ++ (cutParams expected ts).2.1.tokens ++
      (cutParams expected ts).2.2 = ts := by
  induction ts generalizing expected with
  | nil => rfl
  | cons t ts ih =>
    simp only [cutParams]
    split
    · rename_i ending hend
      split at hend
      · simp only [atRuleEnd?] at hend
        split at hend <;> first | cases hend; rfl | cases hend
      · cases hend
    · have := ih (expectedAfter expected t.kind)
      simpa using this

theorem atRuleStatement_append {pending : Option Unclosed} {t : Token} {ts rest : List Token}
    {s : Statement} (h : atRuleStatement pending t ts = .ok (s, rest)) :
    s.tokens ++ rest = t :: ts := by
  have hp := cutParams_append [] ts
  simp only [atRuleStatement] at h
  split at h
  · cases h
  · split at h
    · cases h
    · cases h
      simpa [Statement.tokens] using hp

/-- A statement and what is left are the tokens. -/
theorem nextStatement_append {pending : Option Unclosed} {t : Token} {ts rest : List Token}
    {s : Statement} (h : nextStatement pending t ts = .ok (s, rest)) :
    s.tokens ++ rest = t :: ts := by
  unfold nextStatement at h
  split at h
  case h_6 => exact atRuleStatement_append h
  case h_7 => exact runStatement_append h
  all_goals cases h; rfl

/-- Tokens without gaps at their end keep their first token, when that is no gap. -/
theorem cutGaps_ne_nil {t : Token} {ts : List Token} (h : t.isGap = false) :
    (cutGaps (t :: ts)).1 ≠ [] := by
  intro hnil
  have happ := cutGaps_append (t :: ts)
  rw [hnil, List.nil_append] at happ
  have hall : (List.takeWhile Token.isGap (t :: ts).reverse).all Token.isGap = true :=
    List.all_takeWhile
  rw [cutGaps, List.reverse_eq_iff] at happ
  rw [happ] at hall
  simp [h] at hall

theorem openDeclaration_ne_nil (custom : Bool) {t : Token} {ts rest : List Token}
    (h : t.isGap = false) : (openDeclaration custom (t :: ts) rest).1.tokens ≠ [] := by
  unfold openDeclaration
  split
  · simp [Statement.tokens]
  · exact cutGaps_ne_nil h

theorem runStatement_ne_nil {pending : Option Unclosed} {t : Token} {ts rest : List Token}
    {s : Statement} (ht : t.isGap = false) (h : runStatement pending t ts = .ok (s, rest)) :
    s.tokens ≠ [] := by
  simp only [runStatement] at h
  split at h
  · split at h
    · split at h
      · cases h; simp [Statement.tokens]
      · cases h
    · cases h; simp [Statement.tokens]
    · split at h
      · have := congrArg (·.1.tokens) (Except.ok.inj h)
        simp only at this
        rw [← this]
        exact openDeclaration_ne_nil _ ht
      · cases h
  · split at h
    · cases h
    · split at h
      · cases h
      · split at h
        · have := congrArg (·.1.tokens) (Except.ok.inj h)
          simp only at this
          rw [← this]
          exact openDeclaration_ne_nil _ ht
        · cases h

/-- A statement has a token. -/
theorem nextStatement_ne_nil {pending : Option Unclosed} {t : Token} {ts rest : List Token}
    {s : Statement} (h : nextStatement pending t ts = .ok (s, rest)) : s.tokens ≠ [] := by
  unfold nextStatement at h
  split at h
  case h_6 =>
    simp only [atRuleStatement] at h
    split at h
    · cases h
    · split at h
      · cases h
      · cases h; simp [Statement.tokens]
  case h_7 hs _ _ hc _ _ =>
    refine runStatement_ne_nil ?_ h
    simp only [Token.isGap, Bool.or_eq_false_iff, beq_eq_false_iff_ne]
    exact ⟨hs, hc⟩
  all_goals cases h; simp [Statement.tokens]

/-- What is left behind a statement is shorter than the tokens. -/
theorem nextStatement_length_lt {pending : Option Unclosed} {t : Token} {ts rest : List Token}
    {s : Statement} (h : nextStatement pending t ts = .ok (s, rest)) :
    rest.length < (t :: ts).length := by
  have hlen := congrArg List.length (nextStatement_append h)
  have hpos := List.length_pos_iff.2 (nextStatement_ne_nil h)
  simp only [List.length_append] at hlen
  omega

/-- The statements of a list of tokens, up to the first issue. -/
def statementsFrom (pending : Option Unclosed) : List Token → List Statement × Option Issue
  | [] => ([], pending.map .ofUnclosed)
  | t :: ts =>
    match h : nextStatement pending t ts with
    | .error issue => ([], some issue)
    | .ok (s, rest) =>
      have := nextStatement_length_lt h
      let (more, issue) := statementsFrom pending rest
      (s :: more, issue)
termination_by ts => ts.length
decreasing_by exact this

end Stylesheet
