import Stylesheet.Proofs.Chain.Statements

/-!
# Statements at the end of a text

A list of tokens whose last one is a statement of its own has the same other statements without it
(`statementsFrom_front`): a statement does not look at a token that it leaves.

Some statements take in whatever follows them (`Statement.takesRest`). Only a closing brace can
stand behind one (`exists_close_of_takesRest`), and a text that ends with a parenthesis that opens
ends with one (`takesRest_of_openParen`).
-/

namespace Stylesheet

/-! ### Runs -/

/-- A declaration without a semicolon leaves only white space and comments from the end. -/
theorem eq_of_openDeclaration {custom : Bool} {ts rest : List Token} {t : Token} {s : Statement}
    (h : (s, rest ++ [t]) = openDeclaration custom (ts ++ [t]) []) :
    custom = false ∧ t.isGap = true ∧ (s, rest) = openDeclaration custom ts [] := by
  cases custom with
  | true =>
    rw [openDeclaration, if_pos rfl] at h
    simp at h
  | false =>
    have hgap : t.isGap = true := by
      have hmem : t ∈ (openDeclaration false (ts ++ [t]) []).2 := by rw [← h]; simp
      rw [openDeclaration, if_neg Bool.false_ne_true, cutGaps] at hmem
      simp only [List.append_nil, List.mem_reverse] at hmem
      exact List.mem_takeWhile_imp hmem
    rw [openDeclaration_append_gaps (show Gaps [t] by simpa [Gaps] using hgap)] at h
    obtain ⟨rfl, hrest⟩ := Prod.mk.inj h
    rw [List.append_cancel_right hrest]
    exact ⟨rfl, hgap, rfl⟩

/-- A run that leaves the last token is the same without it. -/
theorem Run.outcome_front {custom : Bool} {start : RunState} (hplain : start.Plain) {u t : Token}
    {ts rest : List Token} {s : Statement}
    (h : (cutRun custom start (ts ++ [t])).outcome custom u = .ok (s, rest ++ [t])) :
    (cutRun custom start ts).outcome custom u = .ok (s, rest) := by
  have hrun := cutRun_append custom start ts
  have hstate := cutRun_state (P := RunState.Plain) (fun _ t h => h.step custom t) hplain ts
  rw [cutRun_concat] at h
  generalize cutRun custom start ts = run at h hrun hstate ⊢
  obtain ⟨taken, left, state⟩ := run
  cases left with
  | cons e more =>
    rw [if_neg (List.cons_ne_nil e more)] at h
    rw [List.cons_append, outcome_behind] at h
    cases hout : outcome custom u ⟨taken, e :: more, state⟩ with
    | error issue => rw [hout] at h; cases h
    | ok p =>
      rw [hout] at h
      obtain ⟨hs, hrest⟩ := Prod.mk.inj (Except.ok.inj h)
      rw [← hs, ← List.append_cancel_right hrest]
  | nil =>
    obtain rfl : taken = ts := by simpa using hrun
    rw [if_pos rfl] at h
    by_cases hend : state.endsAt custom t = true
    · -- A token that ends the run is left when it is a closing brace.
      rw [if_pos hend] at h
      have hexpected : state.expected = [] := by
        rw [RunState.endsAt, Bool.and_eq_true, List.isEmpty_iff] at hend
        exact hend.1
      have hopen := openDeclaration_behind custom (u :: taken) [] [t]
      rw [outcome] at h
      dsimp only at h
      split at h
      · split_ifs at h
        simp at h
      · simp at h
      · split_ifs at h with hcolon
        rw [List.nil_append] at hopen
        rw [hopen] at h
        obtain ⟨hs, hrest⟩ := Prod.mk.inj (Except.ok.inj h)
        refine outcome_eq_ok_iff.mpr ⟨Or.inl hexpected, hcolon, ?_⟩
        rw [← hs, ← List.append_cancel_right hrest]
    · rw [if_neg hend] at h
      obtain ⟨hclosed, hcolon, hleft⟩ := outcome_eq_ok_iff.mp h
      rw [← List.cons_append] at hleft
      obtain ⟨rfl, hgap, hsame⟩ := eq_of_openDeclaration hleft
      rw [hstate.step_of_isGap hgap] at hclosed hcolon
      exact outcome_eq_ok_iff.mpr ⟨hclosed, hcolon, hsame⟩

/-- Parameters that something ends do not depend on what follows. -/
theorem cutParams_append_of_ne {expected : List TokenKind} {ts : List Token}
    (h : (cutParams expected ts).2.1 ≠ .textEnd) (more : List Token) :
    cutParams expected (ts ++ more) = ((cutParams expected ts).1, (cutParams expected ts).2.1,
      (cutParams expected ts).2.2 ++ more) := by
  induction ts generalizing expected with
  | nil => exact absurd rfl h
  | cons t ts ih =>
    rw [cutParams] at h
    rw [List.cons_append, cutParams, cutParams]
    dsimp only at h ⊢
    cases hend : (if (expectedAfter expected t.kind).isEmpty then atRuleEnd? t else none) with
    | some ending => rfl
    | none =>
      rw [hend] at h
      dsimp only
      rw [ih h]

/-- One more token ends the parameters at the end of a text, or belongs to them. -/
theorem cutParams_concat_of_textEnd {expected : List TokenKind} {ts : List Token}
    (h : (cutParams expected ts).2.1 = .textEnd) (t : Token) :
    (cutParams expected (ts ++ [t])).2.2 = [] ∧
      (atRuleEnd? t = none → (cutParams expected (ts ++ [t])).2.1 = .textEnd) := by
  -- Every token is passed until the text is over; the new one comes last.
  induction ts generalizing expected with
  | nil =>
    rw [List.nil_append, cutParams]
    dsimp only
    split
    · rename_i ending hend
      refine ⟨rfl, fun hnone => ?_⟩
      rw [hnone, ite_self] at hend
      cases hend
    · exact ⟨rfl, fun _ => rfl⟩
  | cons u ts ih =>
    rw [cutParams] at h
    rw [List.cons_append, cutParams]
    dsimp only at h ⊢
    cases hend : (if (expectedAfter expected u.kind).isEmpty then atRuleEnd? u else none) with
    | some ending =>
      rw [hend] at h
      split_ifs at hend
      exact absurd h (atRuleEnd?_ne_textEnd hend)
    | none =>
      rw [hend] at h
      exact ih h

/-- A statement that leaves the last token is the same without it. -/
theorem nextStatement_front {u t : Token} {ts rest : List Token} {s : Statement}
    (h : nextStatement none u (ts ++ [t]) = .ok (s, rest ++ [t])) :
    nextStatement none u ts = .ok (s, rest) := by
  have hrun : ∀ us, runStatement none u us = (cutRun (u.text.startsWith "--")
      (({} : RunState).step (u.text.startsWith "--") u) us).outcome (u.text.startsWith "--") u :=
    runStatement_none u
  have hone : ∀ s', Except.ok (s', ts ++ [t]) = (Except.ok (s, rest ++ [t]) : Except Issue _) →
      Except.ok (s', ts) = (Except.ok (s, rest) : Except Issue _) := by
    intro s' heq
    obtain ⟨rfl, hts⟩ := Prod.mk.inj (Except.ok.inj heq)
    rw [List.append_cancel_right hts]
  cases hkind : u.kind with
  | space | semicolon | closeCurly | comment | openCurly =>
    rw [nextStatement, hkind] at h ⊢
    exact hone _ h
  | atWord =>
    rw [nextStatement_of_atWord hkind] at h ⊢
    split_ifs at h ⊢ with hname
    -- Params that run to the end of the text would have taken the last token along.
    by_cases hend : (cutParams [] ts).2.1 = .textEnd
    · have hrest := congrArg Prod.snd (Except.ok.inj h)
      rw [(cutParams_concat_of_textEnd hend t).1] at hrest
      simp at hrest
    · rw [cutParams_append_of_ne hend] at h
      obtain ⟨hs, hrest⟩ := Prod.mk.inj (Except.ok.inj h)
      rw [← hs, ← List.append_cancel_right hrest]
  | _ =>
    rw [nextStatement, hkind] at h ⊢
    dsimp only at h ⊢
    rw [hrun] at h ⊢
    exact Run.outcome_front (plain_empty.step _ u) h

/-- The first statement, and those of what it leaves. -/
theorem statementsFrom_cons_eq {t : Token} {ts : List Token} {ss : List Statement}
    (h : statementsFrom none (t :: ts) = (ss, none)) :
    ∃ s rest more, nextStatement none t ts = .ok (s, rest) ∧
      statementsFrom none rest = (more, none) ∧ ss = s :: more := by
  cases hnext : nextStatement none t ts with
  | error issue =>
    rw [statementsFrom_of_error hnext] at h
    cases h
  | ok p =>
    rw [statementsFrom_of_ok hnext, Prod.mk.injEq] at h
    exact ⟨p.1, p.2, _, rfl, Prod.ext rfl h.2, h.1.symm⟩

/-- Behind the first statements, some tokens are left for the others. -/
theorem ReadTo.of_statementsFrom {ts : List Token} {ss more : List Statement}
    (h : statementsFrom none ts = (ss ++ more, none)) :
    ∃ left, ReadTo ts ss left ∧ statementsFrom none left = (more, none) := by
  induction ss generalizing ts with
  | nil => exact ⟨ts, .refl ts, h⟩
  | cons s ss ih =>
    cases ts with
    | nil =>
      rw [statementsFrom] at h
      cases h
    | cons t ts =>
      obtain ⟨s', rest, more', hnext, hrest, hcons⟩ := statementsFrom_cons_eq h
      obtain ⟨rfl, rfl⟩ := List.cons.inj hcons
      obtain ⟨left, hread, hleft⟩ := ih hrest
      exact ⟨left, .cons hnext hread, hleft⟩

theorem eq_nil_of_statementsFrom {ts : List Token} (h : statementsFrom none ts = ([], none)) :
    ts = [] := by
  cases ts with
  | nil => rfl
  | cons t ts =>
    obtain ⟨s, rest, more, -, -, hnil⟩ := statementsFrom_cons_eq h
    cases hnil

/-- A property of all statements of a list of tokens, and the tokens of these. -/
theorem statementsFrom_induction {P : List Token → List Statement → Prop} (hnil : P [] [])
    (hcons : ∀ t ts s rest more, nextStatement none t ts = .ok (s, rest) → P rest more →
      P (t :: ts) (s :: more)) {ts : List Token} {ss : List Statement}
    (h : statementsFrom none ts = (ss, none)) : P ts ss := by
  induction ts using statementsFrom.induct none generalizing ss with
  | case1 =>
    rw [statementsFrom] at h
    cases h
    exact hnil
  | case2 t ts issue hnext =>
    rw [statementsFrom_of_error hnext] at h
    cases h
  | case3 t ts s rest hnext _ _ _ _ ih =>
    rw [statementsFrom_of_ok hnext] at h
    obtain ⟨rfl, hmore⟩ := Prod.mk.inj h
    exact hcons t ts s rest _ hnext (ih (Prod.ext rfl hmore))

/-- The tokens of the statements are the tokens that they were read from. -/
theorem flatMap_tokens {ts : List Token} {ss : List Statement}
    (h : statementsFrom none ts = (ss, none)) : ss.flatMap Statement.tokens = ts := by
  refine statementsFrom_induction (P := fun ts ss => ss.flatMap Statement.tokens = ts) rfl
    (fun t ts s rest more hnext hmore => ?_) h
  rw [List.flatMap_cons, hmore, nextStatement_append hnext]

/-- White space and semicolons that end nothing are what they are said to be. -/
theorem kind_of_nextStatement {t u : Token} {ts rest : List Token} {s : Statement}
    (h : nextStatement none t ts = .ok (s, rest)) (hs : s = .space u ∨ s = .semicolon u) :
    u.kind = .space ∨ u.kind = .semicolon := by
  cases FirstStatement.of_nextStatement h with
  | space ht =>
    obtain rfl : t = u := by simpa using hs
    exact Or.inl ht
  | semicolon ht =>
    obtain rfl : t = u := by simpa using hs
    exact Or.inr ht
  | _ => simp at hs

theorem kind_of_mem_statementsFrom {ts : List Token} {ss : List Statement} {s : Statement}
    {u : Token} (h : statementsFrom none ts = (ss, none)) (hmem : s ∈ ss)
    (hs : s = .space u ∨ s = .semicolon u) : u.kind = .space ∨ u.kind = .semicolon := by
  rw [← show (statementsFrom none ts).1 = ss by rw [h]] at hmem
  obtain ⟨t, us, rest, hnext, -⟩ := exists_nextStatement hmem
  exact kind_of_nextStatement hnext hs

/-- The statements of a list of tokens whose last one is a statement of its own are the same without
that. -/
theorem statementsFrom_front {ts : List Token} {t : Token} {ss : List Statement} {s : Statement}
    (hs : s.tokens = [t]) (h : statementsFrom none (ts ++ [t]) = (ss ++ [s], none)) :
    statementsFrom none ts = (ss, none) := by
  induction hlen : ts.length using Nat.strong_induction_on generalizing ts ss with
  | _ n ih =>
    obtain ⟨u, us, hts⟩ := List.exists_cons_of_ne_nil (List.append_ne_nil_of_right_ne_nil ts
      (List.cons_ne_nil t []))
    rw [hts] at h
    obtain ⟨s₁, left, more, hnext, hleft, hss⟩ := statementsFrom_cons_eq h
    have htokens := nextStatement_append hnext
    rw [← hts] at htokens
    cases ss with
    | nil =>
      -- The last statement is the first one, so nothing is in front of its token.
      obtain ⟨rfl, rfl⟩ := List.cons.inj hss
      obtain rfl := eq_nil_of_statementsFrom hleft
      rw [hs, List.append_nil] at htokens
      rw [List.append_left_eq_self.mp htokens.symm, statementsFrom]
      rfl
    | cons s₂ ss =>
      obtain ⟨rfl, rfl⟩ := List.cons.inj hss
      -- The first statement leaves the last token, for another one follows.
      rcases List.eq_nil_or_concat left with rfl | ⟨rest, last, rfl⟩
      · rw [statementsFrom] at hleft
        simp at hleft
      · rw [List.concat_eq_append] at *
        rw [← List.append_assoc] at htokens
        obtain ⟨rfl, hlast⟩ := List.append_inj' htokens rfl
        obtain rfl : last = t := by simpa using hlast
        obtain ⟨v, vs, hv⟩ := List.exists_cons_of_ne_nil (nextStatement_ne_nil hnext)
        rw [hv, List.cons_append, List.cons_append] at hts
        obtain ⟨rfl, rfl⟩ := List.cons.inj hts
        have hfront := nextStatement_front hnext
        rw [hv] at hlen ⊢
        have hlt : rest.length < n := by
          rw [← hlen, List.length_append, List.length_cons]
          omega
        rw [List.cons_append, statementsFrom_of_ok hfront, ih rest.length hlt hleft rfl]

/-! ### Statements that take in what follows -/

theorem cutParams_of_textEnd {expected : List TokenKind} {ts : List Token}
    (h : (cutParams expected ts).2.1 = .textEnd) : (cutParams expected ts).2.2 = [] := by
  have happ := cutParams_append_gaps (show Gaps [] by simp [Gaps]) expected ts
  rw [List.append_nil, if_pos h] at happ
  rw [happ]

/-- Only a closing brace can follow a statement that takes in what comes. -/
theorem endsNow_of_takesRest {t : Token} {ts rest : List Token} {s : Statement}
    (h : nextStatement none t ts = .ok (s, rest)) (hs : s.takesRest = true) : EndsNow rest := by
  cases FirstStatement.of_nextStatement h with
  | atRule =>
    have hend : (cutParams [] ts).2.1 = .textEnd := by
      cases hc : (cutParams [] ts).2.1 <;> rw [hc] at hs <;> first | rfl | cases hs
    rw [cutParams_of_textEnd hend]
    exact EndsNow.nil
  | closed he => simp [Statement.takesRest, he] at hs
  | custom _ _ hrest => exact hrest
  | plain => simp [Statement.takesRest] at hs
  | _ => cases hs

theorem exists_close_of_takesRest {ts : List Token} {ss more : List Statement} {s s' : Statement}
    (h : statementsFrom none ts = (ss ++ s :: s' :: more, none)) (hs : s.takesRest = true) :
    ∃ t, s' = .close t := by
  induction ss generalizing ts with
  | nil =>
    cases ts with
    | nil => rw [statementsFrom] at h; cases h
    | cons t ts =>
      obtain ⟨s₁, rest, left, hnext, hleft, hss⟩ := statementsFrom_cons_eq h
      obtain ⟨rfl, rfl⟩ := List.cons.inj hss
      -- What takes the rest stops in front of a closing brace, or has nothing behind it.
      have hend := endsNow_of_takesRest hnext hs
      cases rest with
      | nil => rw [statementsFrom] at hleft; cases hleft
      | cons u us =>
        obtain ⟨s₂, _, _, hnext', -, hss'⟩ := statementsFrom_cons_eq hleft
        rw [nextStatement, hend u rfl] at hnext'
        cases hnext'
        exact ⟨u, (List.cons.inj hss').1⟩
  | cons s₁ ss ih =>
    cases ts with
    | nil => rw [statementsFrom] at h; cases h
    | cons t ts =>
      obtain ⟨_, rest, left, -, hleft, hss⟩ := statementsFrom_cons_eq h
      obtain ⟨-, rfl⟩ := List.cons.inj hss
      exact ih hleft

/-- No run ends with a parenthesis that opens. -/
theorem Run.outcome_ne_of_openParen {custom : Bool} {t e : Token} {ts us : List Token}
    {s : Statement} (hts : t :: ts = us ++ [e]) (he : e.kind = .openParen) :
    (cutRun custom (({} : RunState).step custom t) ts).outcome custom t ≠ .ok (s, []) := by
  have hplain := plain_empty.step custom t
  have hend : ∀ state : RunState, state.endsAt custom e = false := fun state => by
    simp [RunState.endsAt, he]
  -- At the end of the text a bracket is open.
  have hopen : ∀ state : RunState, state.Plain → state.Anchored → ∀ taken p,
      outcome custom t ⟨taken, [], state.step custom e⟩ ≠ .ok p := by
    intro state hstate hanchored taken p hout
    obtain ⟨hclosed, -⟩ := outcome_eq_ok_iff.mp hout
    exact hstate.expected_step (hend state) (Or.inl he)
      (hclosed.elim id (hanchored.step custom e))
  cases us with
  | nil =>
    obtain ⟨rfl, rfl⟩ := List.cons.inj hts
    exact hopen {} plain_empty anchored_empty [] _
  | cons u us =>
    rw [List.cons_append] at hts
    obtain ⟨rfl, rfl⟩ := List.cons.inj hts
    intro hout
    rw [cutRun_concat] at hout
    split_ifs at hout with hrest hends
    · exact absurd hends (by rw [hend]; exact Bool.false_ne_true)
    · exact hopen _ (cutRun_state (P := RunState.Plain) (fun _ t h => h.step custom t) hplain us)
        (cutRun_state (P := RunState.Anchored) (fun _ t h => h.step custom t)
          (anchored_empty.step custom _) us) _ _ hout
    · obtain ⟨x, xs, hx⟩ := List.exists_cons_of_ne_nil hrest
      rw [hx, List.cons_append, outcome_behind] at hout
      cases hfront : outcome custom t ⟨(cutRun custom (({} : RunState).step custom t) us).taken,
          x :: xs, (cutRun custom (({} : RunState).step custom t) us).state⟩ with
      | error issue => rw [hfront] at hout; cases hout
      | ok p =>
        rw [hfront] at hout
        simp [Except.map] at hout

/-- A statement at the end of the text whose last token opens a bracket takes in what follows. -/
theorem takesRest_of_nextStatement {t e : Token} {ts us : List Token} {s : Statement}
    (h : nextStatement none t ts = .ok (s, [])) (hts : t :: ts = us ++ [e])
    (he : e.kind = .openParen) : s.takesRest = true := by
  -- A statement of one token would consist of the parenthesis itself.
  have hfirst : ts = [] → t.kind = .openParen := by
    rintro rfl
    obtain ⟨-, hlast⟩ := List.append_inj' (show [] ++ [t] = us ++ [e] from hts) rfl
    rw [(List.cons.inj hlast).1, he]
  cases hkind : t.kind with
  | space | semicolon | closeCurly | comment | openCurly =>
    rw [nextStatement, hkind] at h
    have hnil := hfirst (Prod.mk.inj (Except.ok.inj h)).2
    rw [hkind] at hnil
    cases hnil
  | atWord =>
    rw [nextStatement_of_atWord hkind] at h
    split_ifs at h with hname
    obtain ⟨rfl, hrest⟩ := Prod.mk.inj (Except.ok.inj h)
    cases us with
    | nil =>
      have hnil := hfirst (List.cons.inj hts).2
      rw [hkind] at hnil
      cases hnil
    | cons u us =>
      rw [List.cons_append] at hts
      obtain ⟨rfl, rfl⟩ := List.cons.inj hts
      have hend : (cutParams [] (us ++ [e])).2.1 = .textEnd := by
        by_cases hfront : (cutParams [] us).2.1 = .textEnd
        · refine (cutParams_concat_of_textEnd hfront e).2 ?_
          rw [atRuleEnd?, he]
        · rw [cutParams_append_of_ne hfront] at hrest
          simp at hrest
      rw [hend]
      rfl
  | _ =>
    rw [nextStatement, hkind] at h
    exact absurd h (Run.outcome_ne_of_openParen hts he)

/-- A parenthesis at the end of the text is open, so an at-rule takes it in. -/
theorem takesRest_of_openParen {ts : List Token} {ss : List Statement} {e : Token}
    (h : statementsFrom none (ts ++ [e]) = (ss, none)) (he : e.kind = .openParen) :
    ∃ s ∈ ss.getLast?, s.takesRest = true := by
  -- By induction on the number of tokens: the statement in front is dropped until the last is
  -- reached.
  induction hlen : ts.length using Nat.strong_induction_on generalizing ts ss with
  | _ n ih =>
    obtain ⟨t, us, hts⟩ := List.exists_cons_of_ne_nil (List.append_ne_nil_of_right_ne_nil ts
      (List.cons_ne_nil e []))
    rw [hts] at h
    obtain ⟨s, left, more, hnext, hleft, rfl⟩ := statementsFrom_cons_eq h
    have htokens := nextStatement_append hnext
    have hlt := nextStatement_length_lt hnext
    rw [← hts] at htokens hlt
    rcases List.eq_nil_or_concat left with rfl | ⟨rest, last, rfl⟩
    · rw [statementsFrom] at hleft
      cases hleft
      exact ⟨s, rfl, takesRest_of_nextStatement hnext hts.symm he⟩
    · rw [List.concat_eq_append] at *
      rw [← List.append_assoc] at htokens
      obtain ⟨-, hlast⟩ := List.append_inj' htokens rfl
      obtain rfl : last = e := by simpa using hlast
      simp only [List.length_append, List.length_singleton] at hlt
      obtain ⟨s', hs', htakes⟩ := ih rest.length (by omega) hleft rfl
      exact ⟨s', by rw [List.getLast?_cons, Option.mem_def.mp hs']; rfl, htakes⟩

end Stylesheet
