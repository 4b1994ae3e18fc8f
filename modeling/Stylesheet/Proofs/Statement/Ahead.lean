import Stylesheet.Proofs.Chain.Ending
import Stylesheet.Proofs.Token.Ahead

/-!
# Statements in front of an at-rule

Statements are read without a look at what follows them, but for one token: a run of tokens is ended
by a brace or a semicolon that need not belong to it. An at-word ends nothing, so the statements in
front of an at-rule stay when something else follows them (`ReadTo.ahead`).

In such statements each parenthesis that opens is closed (`ReadTo.parensClose`).
-/

namespace Stylesheet

variable {custom : Bool} {state : RunState} {t : Token} {ts us rest : List Token} {s : Statement}

/-! ### Parentheses that close -/

theorem ParensClose.append (h : ParensClose ts) (h' : ParensClose us) : ParensClose (ts ++ us) := by
  induction ts with
  | nil => exact h'
  | cons t ts ih =>
    refine ⟨fun ht => ?_, ih h.2⟩
    obtain ⟨u, hu, hkind⟩ := h.1 ht
    exact ⟨u, List.mem_append_left _ hu, hkind⟩

theorem parensClose_singleton (ht : t.kind ≠ .openParen) : ParensClose [t] :=
  ⟨fun h => absurd h ht, trivial⟩

/-- White space and comments close nothing. -/
theorem ParensClose.of_append_gaps (hus : Gaps us) (h : ParensClose (ts ++ us)) :
    ParensClose ts := by
  induction ts with
  | nil => trivial
  | cons t ts ih =>
    refine ⟨fun ht => ?_, ih h.2⟩
    obtain ⟨u, hu, hkind⟩ := h.1 ht
    refine ⟨u, (List.mem_append.mp hu).resolve_right fun hgap => ?_, hkind⟩
    rcases Token.isGap_iff.mp (hus u hgap) with h | h <;> rw [h] at hkind <;> cases hkind

/-- What is waited for is waited for still, or has come. -/
theorem RunState.mem_expected_step {kind : TokenKind} (h : kind ∈ state.expected) (t : Token) :
    kind ∈ (state.step custom t).expected ∨ t.kind = kind := by
  unfold RunState.step
  cases closingKind? t.kind with
  | some close => exact .inl (List.mem_cons_of_mem _ h)
  | none =>
    dsimp only
    by_cases hcurly : (custom && state.colon && t.kind == .openCurly) = true
    · rw [if_pos hcurly]
      exact .inl (List.mem_cons_of_mem _ h)
    · rw [if_neg hcurly]
      cases hexpected : state.expected with
      | nil =>
        rw [hexpected] at h
        cases h
      | cons next more =>
        rw [hexpected] at h
        dsimp only
        -- One kind leaves the stack at a time, by a token of that kind.
        by_cases hnext : (t.kind == next) = true
        · rw [if_pos hnext]
          rcases List.mem_cons.mp h with rfl | h
          · exact .inr (beq_iff_eq.mp hnext)
          · exact .inl h
        · rw [if_neg hnext, hexpected]
          exact .inl h

theorem RunState.closeParen_mem_step (ht : t.kind = .openParen) :
    .closeParen ∈ (state.step custom t).expected := by
  rw [RunState.step, ht]
  exact List.mem_cons_self

/-- When nothing is waited for at the end of a run, all that was waited for has come. -/
theorem parensClose_cutRun (h : (cutRun custom state ts).state.expected = []) :
    (∀ kind ∈ state.expected, ∃ u ∈ (cutRun custom state ts).taken, u.kind = kind) ∧
      ParensClose (cutRun custom state ts).taken := by
  induction ts generalizing state with
  | nil =>
    rw [cutRun] at h ⊢
    exact ⟨by rw [h]; exact List.forall_mem_nil _, trivial⟩
  | cons t ts ih =>
    rw [cutRun] at h ⊢
    split_ifs at h ⊢ with hend
    · exact ⟨by rw [h]; exact List.forall_mem_nil _, trivial⟩
    · obtain ⟨hcome, hclose⟩ := ih h
      refine ⟨fun kind hkind => ?_, fun ht => hcome _ (RunState.closeParen_mem_step ht), hclose⟩
      rcases RunState.mem_expected_step hkind t with hkind | rfl
      · obtain ⟨u, hu, hkind⟩ := hcome kind hkind
        exact ⟨u, List.mem_cons_of_mem _ hu, hkind⟩
      · exact ⟨t, List.mem_cons_self, rfl⟩

/-- Nothing is waited for where something ends a run. -/
theorem expected_of_cutRun {e : Token} (h : (cutRun custom state ts).rest = e :: rest) :
    (cutRun custom state ts).state.expected = [] := by
  induction ts generalizing state with
  | nil => cases h
  | cons t ts ih =>
    rw [cutRun] at h ⊢
    split_ifs at h ⊢ with hend
    · rw [RunState.endsAt, Bool.and_eq_true] at hend
      exact List.isEmpty_iff.mp hend.1
    · exact ih h

theorem parensClose_of_atRuleEnd {ending : AtRuleEnd} (h : atRuleEnd? t = some ending) :
    ParensClose ending.tokens := by
  rw [atRuleEnd?] at h
  split at h <;> cases h <;> exact parensClose_singleton (by simp [*])

/-- The parentheses in the head of an at-rule that something ends are closed. -/
theorem parensClose_cutParams {expected : List TokenKind}
    (h : (cutParams expected ts).2.1 ≠ .textEnd) :
    (.closeParen ∈ expected → ∃ u ∈ (cutParams expected ts).1, u.kind = .closeParen) ∧
      ParensClose ((cutParams expected ts).1 ++ (cutParams expected ts).2.1.tokens) := by
  induction ts generalizing expected with
  | nil => exact absurd rfl h
  | cons t ts ih =>
    -- A parenthesis that is awaited is awaited behind the token as well, or is the token.
    have hmem : .closeParen ∈ expected →
        .closeParen ∈ expectedAfter expected t.kind ∨ t.kind = .closeParen := by
      intro hclose
      unfold expectedAfter
      cases closingKind? t.kind with
      | some close => exact .inl (List.mem_cons_of_mem _ hclose)
      | none =>
        cases expected with
        | nil => cases hclose
        | cons next more =>
          dsimp only
          split_ifs with hcurly hnext
          · exact .inl (List.mem_cons_of_mem _ hclose)
          · rcases List.mem_cons.mp hclose with rfl | hclose
            · exact .inr (beq_iff_eq.mp hnext)
            · exact .inl hclose
          · exact .inl hclose
    rw [cutParams] at h ⊢
    dsimp only at h ⊢
    cases hend : (if (expectedAfter expected t.kind).isEmpty then atRuleEnd? t else none) with
    | some ending =>
      rw [hend] at h
      split_ifs at hend with hempty
      refine ⟨fun hclose => ?_, parensClose_of_atRuleEnd hend⟩
      rw [List.isEmpty_iff] at hempty
      rcases hmem hclose with hclose | hkind
      · rw [hempty] at hclose
        cases hclose
      · rw [atRuleEnd?, hkind] at hend
        cases hend
    | none =>
      rw [hend] at h
      dsimp only at h ⊢
      obtain ⟨hcome, hclose⟩ := ih h
      refine ⟨fun hexpected => ?_, fun ht => ?_, hclose⟩
      · rcases hmem hexpected with hexpected | hkind
        · obtain ⟨u, hu, hkind⟩ := hcome hexpected
          exact ⟨u, List.mem_cons_of_mem _ hu, hkind⟩
        · exact ⟨t, List.mem_cons_self, hkind⟩
      · obtain ⟨u, hu, hkind⟩ := hcome (by rw [ht]; exact List.mem_cons_self)
        exact ⟨u, List.mem_append_left _ hu, hkind⟩

theorem parensClose_openDeclaration (h : ParensClose ts) (left : List Token) :
    ParensClose (openDeclaration custom ts left).1.tokens := by
  cases custom with
  | true => exact h
  | false =>
    rw [← cutGaps_append ts] at h
    refine h.of_append_gaps fun u hu => ?_
    rw [cutGaps, List.mem_reverse] at hu
    exact List.mem_takeWhile_imp hu

theorem Run.parensClose_outcome {run : Run}
    (hclose : run.state.expected = [] → ParensClose (t :: run.taken))
    (hends : ∀ e more, run.rest = e :: more → e.kind ≠ .openParen ∧ run.state.expected = [])
    (hanchored : run.state.Anchored) (h : run.outcome custom t = .ok (s, rest)) :
    ParensClose s.tokens := by
  obtain ⟨taken, left, state⟩ := run
  -- The run used up all tokens, or it stopped at one that ends it.
  cases left with
  | nil =>
    obtain ⟨hopen, -, hs⟩ := Run.outcome_eq_ok_iff.mp h
    obtain ⟨rfl, -⟩ := Prod.mk.inj hs
    exact parensClose_openDeclaration (hclose (hopen.elim id hanchored)) []
  | cons e more =>
    obtain ⟨he, hexpected⟩ := hends e more rfl
    have htaken := hclose hexpected
    unfold outcome at h
    dsimp only at h
    split at h
    · split_ifs at h
      cases h
      exact htaken.append (parensClose_singleton he)
    · cases h
      exact htaken.append (parensClose_singleton he)
    · split_ifs at h
      obtain ⟨rfl, -⟩ := Prod.mk.inj (Except.ok.inj h)
      exact parensClose_openDeclaration htaken _

/-- In a statement that does not come last, each parenthesis that opens is closed. -/
theorem parensClose_of_nextStatement (h : nextStatement none t ts = .ok (s, rest))
    (hrest : rest ≠ []) : ParensClose s.tokens := by
  have hsingle : ∀ kind, t.kind = kind → kind ≠ .openParen → ParensClose [t] :=
    fun kind hkind hne => parensClose_singleton (hkind ▸ hne)
  unfold nextStatement at h
  split at h
  -- At-rules and runs take many tokens; every other statement is one.
  case h_6 hkind =>
    obtain ⟨rfl, rfl⟩ := atRuleStatement_eq_ok h
    obtain ⟨-, hclose⟩ := parensClose_cutParams fun hend => hrest (cutParams_of_textEnd hend)
    rw [Statement.tokens]
    exact (hsingle _ hkind (by decide)).append hclose
  case h_7 =>
    rw [runStatement_none] at h
    refine Run.parensClose_outcome (fun hexpected => ?_) (fun e more hleft => ?_) ?_ h
    · obtain ⟨hcome, hclose⟩ := parensClose_cutRun hexpected
      exact ⟨fun ht => hcome _ (RunState.closeParen_mem_step ht), hclose⟩
    · refine ⟨?_, expected_of_cutRun hleft⟩
      rcases kind_of_cutRun hleft with he | he | he <;> rw [he] <;> decide
    · exact cutRun_state (fun _ t h => h.step _ t) (anchored_empty.step _ t) ts
  case h_1 hkind => cases h; exact hsingle _ hkind (by decide)
  case h_2 hkind => cases h; exact hsingle _ hkind (by decide)
  case h_3 hkind => cases h; exact hsingle _ hkind (by decide)
  case h_4 hkind => cases h; exact hsingle _ hkind (by decide)
  case h_5 hkind => cases h; exact hsingle _ hkind (by decide)

/-! ### What stands behind an at-word -/

/-- A run goes on over more tokens, or comes to its end in front of them. -/
theorem cutRun_front (custom : Bool) (state : RunState) (ts us : List Token) :
    cutRun custom state (ts ++ us) =
      if (cutRun custom state ts).rest = [] then
        let run := cutRun custom (cutRun custom state ts).state us
        { run with taken := ts ++ run.taken }
      else { cutRun custom state ts with rest := (cutRun custom state ts).rest ++ us } := by
  induction ts generalizing state with
  | nil => rfl
  | cons t ts ih =>
    rw [List.cons_append, cutRun, cutRun]
    by_cases hend : state.endsAt custom t = true
    · rw [if_pos hend, if_pos hend, if_neg (List.cons_ne_nil t ts)]
      rfl
    · rw [if_neg hend, if_neg hend, ih]
      dsimp only
      split_ifs <;> rfl

/-- Nothing but white space and comments is given back of a run. -/
theorem Run.exists_gaps_of_outcome {run : Run} (h : run.outcome custom t = .ok (s, rest)) :
    ∃ gaps, Gaps gaps ∧ t :: run.taken <+: s.tokens ++ gaps := by
  have hopen : ∀ left, (s, rest) = openDeclaration custom (t :: run.taken) left →
      ∃ gaps, Gaps gaps ∧ t :: run.taken <+: s.tokens ++ gaps := by
    intro left hs
    obtain ⟨rfl, -⟩ := Prod.mk.inj hs
    -- A custom property keeps its gaps; any other declaration gives the last ones back.
    cases custom with
    | true => exact ⟨[], List.forall_mem_nil _, List.prefix_append _ _⟩
    | false =>
      refine ⟨(cutGaps (t :: run.taken)).2, fun u hu => ?_, ?_⟩
      · rw [cutGaps, List.mem_reverse] at hu
        exact List.mem_takeWhile_imp hu
      · exact (cutGaps_append (t :: run.taken)).symm ▸ List.prefix_rfl
  obtain ⟨taken, left, state⟩ := run
  cases left with
  | nil => exact hopen [] (Run.outcome_eq_ok_iff.mp h).2.2
  | cons e more =>
    unfold outcome at h
    dsimp only at h
    split at h
    · split_ifs at h
      cases h
      exact ⟨[], List.forall_mem_nil _, ⟨[e], by simp [Statement.tokens]⟩⟩
    · cases h
      exact ⟨[], List.forall_mem_nil _, ⟨[e], by simp [Statement.tokens]⟩⟩
    · split_ifs at h
      exact hopen _ (Except.ok.inj h).symm

theorem atRuleStatement_none (ht : t.text ≠ "@") : atRuleStatement none t ts =
    .ok (.atRule t (cutParams [] ts).1 (cutParams [] ts).2.1, (cutParams [] ts).2.2) := by
  rw [atRuleStatement, if_neg (by simpa using ht)]
  obtain ⟨params, ending, rest⟩ := cutParams [] ts
  cases ending <;> rfl

theorem prefix_cutParams {expected : List TokenKind} (h : (cutParams expected ts).2.1 = .textEnd)
    (us : List Token) : ts <+: (cutParams expected (ts ++ us)).1 := by
  induction ts generalizing expected with
  | nil => exact List.nil_prefix
  | cons t ts ih =>
    rw [List.cons_append, cutParams]
    rw [cutParams] at h
    dsimp only at h ⊢
    cases hend : (if (expectedAfter expected t.kind).isEmpty then atRuleEnd? t else none) with
    | some ending =>
      rw [hend] at h
      split_ifs at hend
      exact absurd h (atRuleEnd?_ne_textEnd hend)
    | none =>
      rw [hend] at h
      exact (List.cons_prefix_cons).mpr ⟨rfl, ih h⟩

section

variable {name name' : Token} {back : List Token}

/-- A run that leaves an at-word knows nothing of what stands behind it. -/
theorem runStatement_ahead (hname : name.kind = .atWord)
    (h : runStatement none t (ts ++ name :: back) = .ok (s, rest ++ name :: back))
    (us : List Token) : runStatement none t (ts ++ us) = .ok (s, rest ++ us) := by
  have htokens := runStatement_append h
  rw [runStatement_none] at h ⊢
  set custom := t.text.startsWith "--"
  set start := ({} : RunState).step custom t
  cases hleft : (cutRun custom start ts).rest with
  | cons e more =>
    have hrun : ∀ us, cutRun custom start (ts ++ us) =
        ⟨(cutRun custom start ts).taken, e :: (more ++ us), (cutRun custom start ts).state⟩ := by
      intro us
      rw [cutRun_front, hleft, if_neg (List.cons_ne_nil e more)]
      rfl
    rw [hrun, Run.outcome_behind] at h ⊢
    cases hout : Run.outcome custom t
        ⟨(cutRun custom start ts).taken, e :: more, (cutRun custom start ts).state⟩ with
    | error issue =>
      rw [hout] at h
      cases h
    | ok p =>
      rw [hout] at h
      obtain ⟨rfl, hrest⟩ := Prod.mk.inj (Except.ok.inj h)
      rw [← List.append_cancel_right hrest]
      rfl
  | nil =>
    -- The at-word ends no run, and would not be given back.
    have hname_taken : ∃ more, (cutRun custom start (ts ++ name :: back)).taken =
        ts ++ name :: more := by
      have hend : (cutRun custom start ts).state.endsAt custom name = false := by
        rw [RunState.endsAt, hname]
        simp
      rw [cutRun_front, if_pos hleft, cutRun, if_neg (by rw [hend]; exact Bool.false_ne_true)]
      exact ⟨_, rfl⟩
    obtain ⟨more, htaken⟩ := hname_taken
    obtain ⟨gaps, hgaps, left, hprefix⟩ := Run.exists_gaps_of_outcome h
    have hsplit : s.tokens ++ rest = t :: ts := by
      rw [← List.append_assoc, ← List.cons_append] at htokens
      exact List.append_cancel_right htokens
    rw [htaken, ← List.cons_append, ← hsplit, List.append_assoc, List.append_assoc] at hprefix
    have hgap := hgaps name (by rw [← List.append_cancel_left hprefix]; simp)
    rw [Token.isGap, hname] at hgap
    cases hgap

/-- The head of an at-rule that leaves something has come to its end. -/
theorem atRuleStatement_ahead (h : atRuleStatement none t (ts ++ name :: back) =
    .ok (s, rest ++ name :: back)) (us : List Token) :
    atRuleStatement none t (ts ++ us) = .ok (s, rest ++ us) := by
  have htokens := atRuleStatement_append h
  have hleft := (atRuleStatement_eq_ok h).2
  have hname : t.text ≠ "@" := by
    intro hempty
    rw [atRuleStatement, if_pos (beq_iff_eq.mpr hempty)] at h
    cases h
  by_cases hend : (cutParams [] ts).2.1 = .textEnd
  · -- All tokens in front of the at-word would be taken, and the at-word is left.
    exfalso
    have hprefix := prefix_cutParams hend (name :: back)
    obtain ⟨rfl, -⟩ := atRuleStatement_eq_ok h
    have hlength := congrArg List.length htokens
    have hle := hprefix.length_le
    simp only [Statement.tokens, List.length_append, List.length_cons] at hlength
    have hnone : (cutParams [] (ts ++ name :: back)).2.1.tokens = [] :=
      List.eq_nil_of_length_eq_zero (by omega)
    have htext : (cutParams [] (ts ++ name :: back)).2.1 = .textEnd := by
      cases hlast : (cutParams [] (ts ++ name :: back)).2.1 <;> rw [hlast] at hnone <;>
        first | rfl | cases hnone
    rw [cutParams_of_textEnd htext] at hleft
    exact absurd hleft (by simp)
  · rw [cutParams_append_of_ne hend] at hleft
    have hrest : rest = (cutParams [] ts).2.2 := List.append_cancel_right hleft
    obtain ⟨rfl, -⟩ := atRuleStatement_eq_ok h
    rw [atRuleStatement_none hname, cutParams_append_of_ne hend, cutParams_append_of_ne hend, hrest]

theorem nextStatement_ahead (hname : name.kind = .atWord)
    (h : nextStatement none t (ts ++ name :: back) = .ok (s, rest ++ name :: back))
    (us : List Token) : nextStatement none t (ts ++ us) = .ok (s, rest ++ us) := by
  unfold nextStatement at h ⊢
  split at h
  case h_6 => exact atRuleStatement_ahead h us
  case h_7 => exact runStatement_ahead hname h us
  all_goals
    obtain ⟨rfl, hrest⟩ := Prod.mk.inj (Except.ok.inj h)
    rw [List.append_cancel_right hrest]

/-- Statements in front of an at-word stay when something else follows them. -/
theorem ReadTo.ahead {ss : List Statement} (hname : name.kind = .atWord)
    (h : ReadTo (ts ++ name :: back) ss (name :: back)) (us : List Token) :
    ReadTo (ts ++ us) ss us := by
  obtain ⟨left, hleft⟩ : ∃ left, left = name :: back := ⟨_, rfl⟩
  obtain ⟨all, hall⟩ : ∃ all, all = ts ++ left := ⟨_, rfl⟩
  rw [← hleft, ← hall] at h
  rw [hleft] at hall
  induction h generalizing ts with
  | refl all =>
    obtain rfl : ts = [] := by simpa using hall.symm.trans hleft
    exact .refl us
  | cons hnext hmore ih =>
    subst hleft
    obtain ⟨front, rfl⟩ : ∃ front, front ++ name :: back = _ := ⟨_, hmore.tokens_append⟩
    cases ts with
    | nil =>
      -- A statement has a token, so that less than all is left.
      obtain ⟨rfl, rfl⟩ := List.cons.inj hall
      have hlength := nextStatement_length_lt hnext
      rw [List.length_append] at hlength
      omega
    | cons u ts =>
      obtain ⟨rfl, rfl⟩ := List.cons.inj hall
      exact .cons (nextStatement_ahead hname hnext us) (ih rfl rfl)

end

/-- In statements that something follows, each parenthesis that opens is closed. -/
theorem ReadTo.parensClose {ss : List Statement} (h : ReadTo ts ss us) (hus : us ≠ []) :
    ParensClose (ss.flatMap Statement.tokens) := by
  induction h with
  | refl => trivial
  | cons hnext hmore ih =>
    rw [List.flatMap_cons]
    refine (parensClose_of_nextStatement hnext fun hrest => ?_).append (ih hus)
    rw [hrest] at hmore
    have hnil := hmore.tokens_append
    exact hus (List.append_eq_nil_iff.mp hnil).2

end Stylesheet
