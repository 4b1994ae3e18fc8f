import Stylesheet.Proofs.Reading.Careful

/-!
# Runs of tokens

What starts a rule, a declaration or an at-rule is pulled from the lexer token by token, up to one
that ends the run. `Careful.cutUntil` says which tokens that are: it goes through the list of those
that the lexer hands out. `Careful.pull_pulls` says that pulling comes to the same, with a lexer
that hands out the others, unless what is left does not end.

A run that the text breaks off may have a bracket that is open. It is one of the tokens of the run
(`Careful.OpenedIn.cutRun`), and one byte long (`Token.From.stop_of_opens`).
-/

namespace Stylesheet

open Text

/-! ### Brackets -/

/-- Tokens of the kind open brackets, in custom properties at least. -/
def TokenKind.opens (kind : TokenKind) : Bool :=
  (closingKind? kind).isSome || kind == .openCurly

theorem bytes_of_opens {word : String} {c : Char} {cs : List Char} {lexeme : Lexeme}
    (h : cutToken false word c cs = .ok lexeme) (hopens : lexeme.kind.opens = true) :
    bytes lexeme.cut.taken = 1 := by
  cases FirstToken.of_cutToken h with
  | punctuation hc =>
    unfold punctuation? at hc
    split at hc <;> first | rfl | cases hc
  | openParen => rfl
  | _ => exact absurd hopens Bool.false_ne_true

/-- A token that opens a bracket is one byte long. -/
theorem lexFrom_opens (words : List String) (offset : Nat) (cs : List Char) :
    ∀ t ∈ (lexFrom false words offset cs).1, t.kind.opens = true → t.stop = t.start + 1 := by
  intro t ht hopens
  obtain ⟨word, c, ds, lexeme, h, hkind, htext⟩ := exists_cutToken_of_mem_lexFrom ht
  have hsize : t.text.utf8ByteSize = bytes lexeme.cut.taken := by
    rw [← htext, ← utf8ByteSize_ofList, String.ofList_toList]
  rw [Token.stop, hsize, bytes_of_opens h (hkind ▸ hopens)]

theorem Token.From.stop_of_opens {css : String} {t : Token} (h : t.From css)
    (hopens : t.kind.opens = true) : t.stop = t.start + 1 :=
  lexFrom_opens [] 0 css.toList t h hopens

namespace Careful

/-- The outermost bracket that is open is one of the tokens. -/
def OpenedIn (s : RunState) (seen : List Token) : Prop :=
  ∀ b, s.opened = some b → b ∈ seen ∧ b.kind.opens = true

theorem OpenedIn.step {s : RunState} {seen : List Token} (h : OpenedIn s seen) (custom : Bool)
    (t : Token) : OpenedIn (s.step custom t) (seen ++ [t]) := by
  have hkept : OpenedIn s (seen ++ [t]) := fun b hb =>
    ⟨List.mem_append_left _ (h b hb).1, (h b hb).2⟩
  have hopening : t.kind.opens = true → ∀ kind, OpenedIn (s.opening t kind) (seen ++ [t]) := by
    intro hopens kind b hb
    rw [RunState.opening] at hb
    rcases Option.or_eq_some_iff.mp hb with hb | ⟨-, hb⟩
    · exact hkept b hb
    · cases hb
      exact ⟨List.mem_append_right _ List.mem_cons_self, hopens⟩
  rw [RunState.step]
  split
  next close hclose =>
    refine hopening ?_ close
    rw [TokenKind.opens, hclose]
    rfl
  next hclose =>
    split
    next hcurly =>
      refine hopening ?_ _
      rw [Bool.and_eq_true] at hcurly
      rw [TokenKind.opens, hcurly.2, Bool.or_true]
    next =>
      split
      · split <;> exact hkept
      · split
        · -- When the last bracket is closed, none is open.
          intro b hb
          dsimp only at hb
          split at hb
          · cases hb
          · exact hkept b hb
        · exact hkept

theorem OpenedIn.cutRun {s : RunState} {seen : List Token} (h : OpenedIn s seen) (custom : Bool)
    (ts : List Token) :
    OpenedIn (cutRun custom s ts).state (seen ++ (cutRun custom s ts).taken) := by
  induction ts generalizing s seen with
  | nil =>
    rw [Stylesheet.cutRun, List.append_nil]
    exact h
  | cons t ts ih =>
    rw [Stylesheet.cutRun]
    split
    · rw [List.append_nil]
      exact h
    · have hrun := ih (h.step custom t)
      rw [List.append_assoc] at hrun
      exact hrun

/-! ### Pulling tokens -/

/-- Tokens that were pulled from a lexer, the state behind them, and the token that ended the
pulling, if there was one. -/
structure Pulled (σ : Type) where
  taken : List Token
  state : σ
  ending : Option Token
  lexer : Lexer

/-- Pulls tokens behind `taken`, up to one for which there is no next state. -/
def pull {σ : Type} (css : String) (next : σ → Token → Option σ) (s : σ) (taken : List Token)
    (l : Lexer) : Careful (Pulled σ) :=
  match h : l.next false with
  | (.error u, _) => refuse css (.ofUnclosed u)
  | (.ok none, l) => .ok ⟨taken, s, none, l⟩
  | (.ok (some t), l) =>
    have := Lexer.length_of_next h
    match next s t with
    | none => .ok ⟨taken, s, some t, l⟩
    | some s => pull css next s (taken ++ [t]) l
termination_by l.rest.length + l.returned.length
decreasing_by exact this

/-- The state of a run behind a token, unless the token ends the run. -/
def runNext (custom : Bool) (s : RunState) (t : Token) : Option RunState :=
  if s.endsAt custom t then none else some (s.step custom t)

/-- The brackets that have to come behind a token, unless the token ends the parameters. -/
def paramsNext (expected : List TokenKind) (t : Token) : Option (List TokenKind) :=
  let expected := expectedAfter expected t.kind
  if expected.isEmpty && (atRuleEnd? t).isSome then none else some expected

/-- The tokens up to one for which there is no next state, the state behind them and the other
tokens. -/
def cutUntil (next : σ → Token → Option σ) (s : σ) : List Token → List Token × σ × List Token
  | [] => ([], s, [])
  | t :: ts =>
    match next s t with
    | none => ([], s, t :: ts)
    | some s =>
      let (taken, s, rest) := cutUntil next s ts
      (t :: taken, s, rest)

section

variable {css : String} {l l' : Lexer} {t : Token} {ts : List Token} {σ : Type}
  {next : σ → Token → Option σ}

theorem cutUntil_append (s : σ) (ts : List Token) :
    (cutUntil next s ts).1 ++ (cutUntil next s ts).2.2 = ts := by
  induction ts generalizing s with
  | nil => rfl
  | cons t ts ih =>
    rw [cutUntil]
    split
    · rfl
    · exact congrArg (t :: ·) (ih _)

theorem cutUntil_runNext (custom : Bool) (s : RunState) (ts : List Token) :
    cutUntil (runNext custom) s ts =
      let run := cutRun custom s ts
      (run.taken, run.state, run.rest) := by
  induction ts generalizing s with
  | nil => rfl
  | cons t ts ih =>
    rw [cutUntil, runNext, cutRun]
    split_ifs
    · rfl
    · dsimp only
      rw [ih]

theorem cutParams_eq_cutUntil (expected : List TokenKind) (ts : List Token) :
    cutParams expected ts =
      let cut := cutUntil paramsNext expected ts
      (cut.1, (cut.2.2.head?.bind atRuleEnd?).getD .textEnd, cut.2.2.tail) := by
  induction ts generalizing expected with
  | nil => rfl
  | cons t ts ih =>
    rw [cutUntil, paramsNext, cutParams]
    cases hend : atRuleEnd? t with
    | none =>
      -- No token of this kind ends the parameters, whatever is open.
      rw [ite_self, Option.isSome_none, Bool.and_false, ih]
      rfl
    | some ending =>
      dsimp only
      rw [Option.isSome_some, Bool.and_true, ih]
      cases (expectedAfter expected t.kind).isEmpty with
      | true =>
        show _ = ([], ((some t).bind atRuleEnd?).getD .textEnd, ts)
        rw [Option.bind_some, hend]
        rfl
      | false => rfl

theorem boundary_of_unclosed {u : Unclosed} (h : (lex false css).2 = some u) :
    Boundary css u.offset := by
  have hlex : lexFrom false [] 0 css.toList = ((lex false css).1 ++ [], some u) := by
    rw [List.append_nil]
    exact Prod.ext rfl h
  obtain ⟨rest, hcss, hrest⟩ := lexFrom_eq_append hlex
  -- What does not end starts right behind the tokens.
  have hoffset : u.offset = (Token.join (lex false css).1).utf8ByteSize := by
    rw [Nat.zero_add] at hrest
    cases rest with
    | nil =>
      rw [lexFrom] at hrest
      cases hrest
    | cons c cs =>
      cases hcut : cutToken false
          ((wordsBehind [] (lex false css).1).head?.getD "") c cs with
      | error what =>
        rw [lexFrom_of_error hcut] at hrest
        cases hrest
        rfl
      | ok lexeme =>
        rw [lexFrom_of_ok hcut] at hrest
        cases hrest
  have hparts : css = Token.join (lex false css).1 ++ String.ofList rest := by
    rw [← String.toList_inj, String.toList_append, String.toList_ofList]
    exact hcss
  rw [hoffset]
  conv => arg 1; rw [hparts]
  exact boundary_append _ _

theorem refuse_unclosed {α : Type} {u : Unclosed} (h : (lex false css).2 = some u) :
    (refuse css (.ofUnclosed u) : Careful α) = .error (.issue (.ofUnclosed u)) :=
  refuse_eq (boundary_of_unclosed h) nofun

theorem pull_of_next {s : σ} {taken : List Token} (h : l.next false = (.ok (some t), l')) :
    pull css next s taken l =
      match next s t with
      | none => .ok ⟨taken, s, some t, l'⟩
      | some s => pull css next s (taken ++ [t]) l' := by
  rw [pull]
  split
  all_goals
    rename_i h'
    rw [h] at h'
    cases h'
  rfl

theorem pull_of_end {s : σ} {taken : List Token} (h : l.next false = (.ok none, l')) :
    pull css next s taken l = .ok ⟨taken, s, none, l'⟩ := by
  rw [pull]
  split
  all_goals
    rename_i h'
    rw [h] at h'
    cases h'
  rfl

theorem pull_of_unclosed {s : σ} {taken : List Token} {u : Unclosed}
    (h : l.next false = (.error u, l')) (hstop : (lex false css).2 = some u) :
    pull css next s taken l = .error (.issue (.ofUnclosed u)) := by
  rw [pull]
  split
  all_goals
    rename_i h'
    rw [h] at h'
    cases h'
  exact refuse_unclosed hstop

/-- What pulling tokens behind `taken` comes to, when these tokens, the state behind them and the
other tokens are what there is to pull. -/
inductive Pulls (css : String) (next : σ → Token → Option σ) (taken : List Token)
    (x : Careful (Pulled σ)) : List Token × σ × List Token → Prop
  | ending {us rest : List Token} {s : σ} {e : Token} {l : Lexer} (hend : next s e = none)
      (h : x = .ok ⟨taken ++ us, s, some e, l⟩) (hfeeds : l.Feeds css rest) :
      Pulls css next taken x (us, s, e :: rest)
  | textEnd {us : List Token} {s : σ} {l : Lexer} (hstop : (lex false css).2 = none)
      (h : x = .ok ⟨taken ++ us, s, none, l⟩) (hfeeds : l.Feeds css []) :
      Pulls css next taken x (us, s, [])
  | unclosed {us : List Token} {s : σ} {u : Unclosed} (hstop : (lex false css).2 = some u)
      (h : x = .error (.issue (.ofUnclosed u))) : Pulls css next taken x (us, s, [])

theorem Pulls.cons {x : Careful (Pulled σ)} {taken us rest : List Token} {s : σ}
    (h : Pulls css next (taken ++ [t]) x (us, s, rest)) :
    Pulls css next taken x (t :: us, s, rest) := by
  cases h with
  | ending hend h hfeeds => exact .ending hend (by rw [h, List.append_assoc]; rfl) hfeeds
  | textEnd hstop h hfeeds => exact .textEnd hstop (by rw [h, List.append_assoc]; rfl) hfeeds
  | unclosed hstop h => exact .unclosed hstop h

theorem pull_pulls (h : l.Feeds css ts) (s : σ) (taken : List Token) :
    Pulls css next taken (pull css next s taken l) (cutUntil next s ts) := by
  -- Along the tokens that the lexer feeds; at their end it says how the text ends.
  induction ts generalizing l s taken with
  | nil =>
    have hnext := h.next_nil
    rw [cutUntil]
    cases hstop : (lex false css).2 with
    | none =>
      rw [hstop] at hnext
      refine .textEnd hstop ?_ h
      rw [List.append_nil]
      exact pull_of_end hnext.1
    | some u =>
      rw [hstop] at hnext
      obtain ⟨l', hnext⟩ := hnext
      exact .unclosed hstop (pull_of_unclosed hnext hstop)
  | cons t ts ih =>
    obtain ⟨l', hnext, hfeeds⟩ := h.next_cons
    rw [pull_of_next hnext, cutUntil]
    cases hstep : next s t with
    | none => exact .ending hstep (by rw [List.append_nil]) hfeeds
    | some s' => exact (ih hfeeds s' (taken ++ [t])).cons

end

end Careful

end Stylesheet
