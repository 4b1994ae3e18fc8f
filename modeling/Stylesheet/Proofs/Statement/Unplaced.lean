import Stylesheet.Proofs.Chain.Statements
import Stylesheet.Proofs.Outline.Effect
import Stylesheet.Proofs.Token.Parens

/-!
# Statements without places

Which statements tokens fall into, and what a statement does to an outline, depends on the kinds and
the texts of the tokens. Where they stand matters for positions and for errors only.

Each function of the reader commutes with forgetting the places of its tokens, up to the issue it
reports (`nextStatement_unplaced`, `Statement.effect_unplaced`). So tokens that are alike up to
their places fall into statements that do the same (`exists_statements_alike`).
-/

namespace Stylesheet

open Text

variable {ts us : List Token}

/-! ### Tokens -/

namespace Token

@[simp] theorem kind_unplaced (t : Token) : t.unplaced.kind = t.kind := rfl

@[simp] theorem text_unplaced (t : Token) : t.unplaced.text = t.text := rfl

@[simp] theorem isGap_unplaced (t : Token) : t.unplaced.isGap = t.isGap := rfl

@[simp] theorem join_map_unplaced (ts : List Token) : join (ts.map unplaced) = join ts := by
  rw [join, join, List.map_map]
  rfl

end Token

open Token (unplaced)

theorem takeWhile_unplaced {p : Token → Bool} (hp : ∀ t, p t.unplaced = p t) (ts : List Token) :
    (ts.map unplaced).takeWhile p = (ts.takeWhile p).map unplaced := by
  rw [List.takeWhile_map, show p ∘ unplaced = p from funext hp]

theorem dropWhile_unplaced {p : Token → Bool} (hp : ∀ t, p t.unplaced = p t) (ts : List Token) :
    (ts.map unplaced).dropWhile p = (ts.dropWhile p).map unplaced := by
  rw [List.dropWhile_map, show p ∘ unplaced = p from funext hp]

theorem cutGaps_unplaced (ts : List Token) :
    cutGaps (ts.map unplaced) = ((cutGaps ts).1.map unplaced, (cutGaps ts).2.map unplaced) := by
  simp only [cutGaps, ← List.map_reverse, takeWhile_unplaced Token.isGap_unplaced,
    dropWhile_unplaced Token.isGap_unplaced]

/-! ### Fields and marks -/

theorem cleanFrom_unplaced (custom : Bool) (prev : Option TokenKind) (value : String)
    (clean : Bool) (ts : List Token) :
    cleanFrom custom prev value clean (ts.map unplaced) = cleanFrom custom prev value clean ts := by
  induction ts generalizing prev value clean with
  | nil => rfl
  | cons t ts ih =>
    have hnext : (ts.map unplaced).head?.map Token.kind = ts.head?.map Token.kind := by
      cases ts <;> rfl
    rw [List.map_cons, cleanFrom, cleanFrom, hnext, List.isEmpty_map, ih, ih]
    rfl

theorem cleanField_unplaced (custom : Bool) (ts : List Token) :
    cleanField custom (ts.map unplaced) = cleanField custom ts := by
  rw [cleanField, cleanField, cleanFrom_unplaced, Token.join_map_unplaced]

theorem cutSpaces_unplaced (ts : List Token) :
    cutSpaces (ts.map unplaced) = ((cutSpaces ts).1.map unplaced, (cutSpaces ts).2) := by
  have htake := takeWhile_unplaced (p := fun t => t.kind == .space) (fun _ => rfl) ts.reverse
  have hdrop := dropWhile_unplaced (p := fun t => t.kind == .space) (fun _ => rfl) ts.reverse
  simp only [cutSpaces, ← List.map_reverse, htake, hdrop, Token.join_map_unplaced]

theorem collectMark_unplaced (mark : String) (kinds : List TokenKind) (left : List Token) :
    collectMark mark kinds (left.map unplaced) =
      ((collectMark mark kinds left).1, (collectMark mark kinds left).2.map unplaced) := by
  induction kinds generalizing mark left with
  | nil => rfl
  | cons kind kinds ih =>
    cases left with
    | nil =>
      rw [List.map_nil, collectMark]
      split_ifs <;> rfl
    | cons t left =>
      rw [List.map_cons, collectMark, collectMark]
      split_ifs
      · rfl
      · exact ih _ left

theorem cutImportant_unplaced (ts : List Token) :
    cutImportant (ts.map unplaced) =
      ((cutImportant ts).1.map unplaced, (cutImportant ts).2.1, (cutImportant ts).2.2) := by
  have hfront : ((ts.map unplaced).reverse.dropWhile Token.isGap).reverse =
      (ts.reverse.dropWhile Token.isGap).reverse.map unplaced := by
    rw [← List.map_reverse, dropWhile_unplaced Token.isGap_unplaced, List.map_reverse]
  have htail : Token.join ((ts.map unplaced).reverse.takeWhile Token.isGap).reverse =
      Token.join (ts.reverse.takeWhile Token.isGap).reverse := by
    rw [← List.map_reverse, takeWhile_unplaced Token.isGap_unplaced, ← List.map_reverse,
      Token.join_map_unplaced]
  have hkinds : (((ts.reverse.dropWhile Token.isGap).reverse.map unplaced).drop 1).reverse.map
      Token.kind = ((ts.reverse.dropWhile Token.isGap).reverse.drop 1).reverse.map Token.kind := by
    rw [← List.map_drop, ← List.map_reverse, List.map_map]
    rfl
  rw [cutImportant, cutImportant]
  dsimp only
  rw [hfront, htail, hkinds, List.getLast?_map]
  cases (ts.reverse.dropWhile Token.isGap).reverse.getLast? with
  | none => rfl
  | some word =>
    rw [Option.map_some]
    dsimp only
    rw [← List.map_dropLast, cutSpaces_unplaced, ← List.map_reverse, collectMark_unplaced,
      Token.text_unplaced]
    split_ifs
    · rfl
    · rfl
    · exact Prod.ext (List.map_reverse).symm rfl
    · rfl
    · rfl

/-! ### Declarations -/

theorem cutLead_unplaced (ts : List Token) : (cutLead (ts.map unplaced)).toOption =
    (cutLead ts).toOption.map fun parts =>
      (parts.1.map unplaced, parts.2.1.unplaced, parts.2.2.map unplaced) := by
  induction ts with
  | nil => rfl
  | cons t ts ih =>
    rw [List.map_cons, cutLead, cutLead, List.isEmpty_map, Token.kind_unplaced]
    split_ifs
    · rfl
    · rfl
    · cases hlead : cutLead ts <;> cases hlead' : cutLead (ts.map unplaced) <;>
        rw [hlead, hlead'] at ih <;> cases ih <;> rfl

theorem cutBetween_unplaced (between : String) (ts : List Token) :
    (cutBetween between (ts.map unplaced)).toOption =
      (cutBetween between ts).toOption.map fun parts => (parts.1, parts.2.map unplaced) := by
  induction ts generalizing between with
  | nil => rfl
  | cons t ts ih =>
    rw [List.map_cons, cutBetween, cutBetween, Token.kind_unplaced, Token.text_unplaced]
    split_ifs
    · rfl
    · rfl
    · exact ih _

theorem findColon_unplaced (depth : Int) (prev : Option Token) (seen ts : List Token) :
    (findColon depth (prev.map unplaced) (seen.map unplaced) (ts.map unplaced)).toOption =
      (findColon depth prev seen ts).toOption.map (Option.map (List.map unplaced)) := by
  induction ts generalizing depth prev seen with
  | nil => rfl
  | cons t ts ih =>
    rw [List.map_cons]
    unfold findColon
    dsimp only
    rw [Token.kind_unplaced]
    generalize (if t.kind == .openParen then depth + 1
      else if t.kind == .closeParen then depth - 1 else depth) = depth
    by_cases hcolon : (depth == 0 && t.kind == .colon) = true
    · rw [if_pos hcolon, if_pos hcolon]
      cases prev with
      | none => rfl
      | some p =>
        rw [Option.map_some]
        dsimp only
        rw [Token.kind_unplaced, Token.text_unplaced]
        split_ifs
        · exact ih depth (some p) (t :: seen)
        · rfl
    · rw [if_neg hcolon, if_neg hcolon]
      exact ih depth (some t) (t :: seen)

theorem secondWord_unplaced (found : Nat) (last : Option Token) (ts : List Token) :
    secondWord found (last.map unplaced) (ts.map unplaced) =
      (secondWord found last ts).map unplaced := by
  induction ts generalizing found last with
  | nil => rfl
  | cons t ts ih =>
    rw [List.map_cons, secondWord, secondWord, Token.kind_unplaced]
    split_ifs
    · exact ih _ (some t)
    · rfl
    · exact ih _ (some t)

theorem missedSemicolon?_unplaced (ts : List Token) :
    (missedSemicolon? (ts.map unplaced)).toOption = (missedSemicolon? ts).toOption := by
  have hcolon := findColon_unplaced 0 none [] ts
  rw [missedSemicolon?, missedSemicolon?]
  cases hfound : findColon 0 none [] ts with
  | error issue =>
    cases hfound' : findColon 0 none [] (ts.map unplaced) with
    | error issue' => rfl
    | ok seen' =>
      rw [Option.map_none, List.map_nil, hfound, hfound'] at hcolon
      cases hcolon
  | ok seen =>
    cases hfound' : findColon 0 none [] (ts.map unplaced) with
    | error issue' =>
      rw [Option.map_none, List.map_nil, hfound, hfound'] at hcolon
      cases hcolon
    | ok seen' =>
      rw [Option.map_none, List.map_nil, hfound, hfound'] at hcolon
      obtain rfl : seen' = seen.map (List.map unplaced) := Option.some.inj hcolon
      cases seen with
      | none => rfl
      | some seen =>
        have hword : secondWord 0 none (seen.map unplaced) =
            (secondWord 0 none seen).map unplaced := secondWord_unplaced 0 none seen
        simp only [bind, Except.bind, Option.map_some, hword]
        cases secondWord 0 none seen <;> rfl

/-- The parts without the place of the first token of the property. -/
def DeclarationParts.unplaced (parts : DeclarationParts) : DeclarationParts :=
  { parts with first := parts.first.unplaced }

theorem toOption_bind {ε α β : Type} (x : Except ε α) (f : α → Except ε β) :
    (x >>= f).toOption = x.toOption.bind fun a => (f a).toOption := by
  cases x <;> rfl

/-- A value may be searched for a second declaration. -/
theorem checked_unplaced (searched : Bool) (kept : List Token) {parts parts' : DeclarationParts}
    (h : parts' = parts.unplaced) :
    (if searched = true then do missedSemicolon? (kept.map unplaced); Except.ok parts'
      else Except.ok parts').toOption =
      (if searched = true then do missedSemicolon? kept; Except.ok parts
        else Except.ok parts).toOption.map DeclarationParts.unplaced := by
  subst h
  cases searched with
  | true =>
    rw [if_pos rfl, if_pos rfl, toOption_bind, toOption_bind, missedSemicolon?_unplaced,
      Option.map_bind]
    rfl
  | false => rfl

theorem readDeclaration_unplaced (custom : Bool) (ts : List Token) :
    (readDeclaration custom (ts.map unplaced)).toOption =
      (readDeclaration custom ts).toOption.map DeclarationParts.unplaced := by
  have htake := fun ts => takeWhile_unplaced (p := fun t => !endsProperty t) (fun _ => rfl) ts
  have hdrop := fun ts => dropWhile_unplaced (p := fun t => !endsProperty t) (fun _ => rfl) ts
  rw [readDeclaration, readDeclaration, toOption_bind, toOption_bind, cutLead_unplaced,
    Option.bind_map, Option.map_bind]
  refine congrArg _ (funext fun cut => ?_)
  obtain ⟨lead, first, rest⟩ := cut
  simp only [Function.comp_apply, ← List.map_cons, htake, hdrop, toOption_bind, cutBetween_unplaced,
    Option.bind_map, Option.map_bind, Token.join_map_unplaced]
  refine congrArg _ (funext fun cut => ?_)
  obtain ⟨between, rest⟩ := cut
  simp only [takeWhile_unplaced Token.isGap_unplaced, dropWhile_unplaced Token.isGap_unplaced,
    List.isEmpty_map, cutImportant_unplaced]
  have hany : ∀ kept : List Token, (kept.map unplaced).any (fun t => !t.isGap) =
      kept.any fun t => !t.isGap := fun kept => List.any_map
  rw [hany, ← List.map_append, ← apply_ite (List.map unplaced), cleanField_unplaced,
    Token.join_map_unplaced]
  by_cases hempty : ((rest.dropWhile Token.isGap).isEmpty && !custom) = true
  · rw [if_pos hempty, if_pos hempty]
    rfl
  · rw [if_neg hempty, if_neg hempty]
    exact checked_unplaced _ _ rfl

/-! ### Runs -/

/-- What is known about a run, without the place of the bracket that is open. -/
def RunState.unplaced (s : RunState) : RunState :=
  { s with opened := s.opened.map Token.unplaced }

/-- The run without the places of its tokens. -/
def Run.unplaced (run : Run) : Run :=
  ⟨run.taken.map Token.unplaced, run.rest.map Token.unplaced, run.state.unplaced⟩

theorem RunState.step_unplaced (custom : Bool) (s : RunState) (t : Token) :
    s.unplaced.step custom t.unplaced = (s.step custom t).unplaced := by
  obtain ⟨colon, opened, expected⟩ := s
  have hopen : ∀ close, RunState.opening (RunState.unplaced ⟨colon, opened, expected⟩) t.unplaced
      close = (RunState.opening ⟨colon, opened, expected⟩ t close).unplaced := by
    intro close
    cases opened <;> rfl
  rw [RunState.step, RunState.step, Token.kind_unplaced]
  cases closingKind? t.kind with
  | some close => exact hopen close
  | none =>
    dsimp only
    by_cases hcurly : (custom && colon && t.kind == .openCurly) = true
    · rw [if_pos hcurly]
      exact (if_pos hcurly).trans (hopen .closeCurly)
    · rw [if_neg hcurly]
      refine (if_neg hcurly).trans ?_
      cases expected with
      | nil =>
        dsimp only [RunState.unplaced]
        split_ifs <;> rfl
      | cons next more =>
        dsimp only [RunState.unplaced]
        split_ifs <;> rfl

theorem cutRun_unplaced (custom : Bool) (s : RunState) (ts : List Token) :
    cutRun custom s.unplaced (ts.map unplaced) = (cutRun custom s ts).unplaced := by
  induction ts generalizing s with
  | nil => rfl
  | cons t ts ih =>
    have hends : s.unplaced.endsAt custom t.unplaced = s.endsAt custom t := rfl
    rw [List.map_cons, cutRun, cutRun, hends, RunState.step_unplaced, ih]
    split_ifs <;> rfl

/-! ### Reading statements -/

/-- The end without its place. -/
def AtRuleEnd.unplaced : AtRuleEnd → AtRuleEnd
  | .semicolon t => .semicolon t.unplaced
  | .block t => .block t.unplaced
  | .close t => .close t.unplaced
  | .textEnd => .textEnd

namespace Statement

/-- The statement without the places of its tokens. -/
def unplaced : Statement → Statement
  | space t => space t.unplaced
  | semicolon t => semicolon t.unplaced
  | close t => close t.unplaced
  | comment t => comment t.unplaced
  | block t => block t.unplaced
  | rule head brace => rule (head.map Token.unplaced) brace.unplaced
  | declaration custom ts => declaration custom (ts.map Token.unplaced)
  | atRule name params ending =>
    atRule name.unplaced (params.map Token.unplaced) ending.unplaced

end Statement

/-- A statement with the tokens that are left, without places. -/
def unplacedRead (p : Statement × List Token) : Statement × List Token :=
  (p.1.unplaced, p.2.map unplaced)

theorem openDeclaration_unplaced (custom : Bool) (ts rest : List Token) :
    openDeclaration custom (ts.map unplaced) (rest.map unplaced) =
      unplacedRead (openDeclaration custom ts rest) := by
  cases custom with
  | true => rfl
  | false =>
    rw [openDeclaration, openDeclaration, cutGaps_unplaced, unplacedRead]
    simp only [Bool.false_eq_true, ↓reduceIte, ← List.map_append]
    rfl

theorem Run.outcome_unplaced (custom : Bool) (t : Token) (run : Run) :
    (outcome custom t.unplaced run.unplaced).toOption =
      (outcome custom t run).toOption.map unplacedRead := by
  obtain ⟨taken, rest, colon, opened, expected⟩ := run
  have hopen := openDeclaration_unplaced custom (t :: taken)
  rw [outcome, outcome, Run.unplaced]
  cases rest with
  | nil =>
    cases expected <;> cases opened <;> cases colon <;>
      first | rfl | exact congrArg some (hopen [])
  | cons e rest =>
    rw [List.map_cons]
    dsimp only
    rw [Token.kind_unplaced]
    have hclosed : Statement.declaration custom
        (t.unplaced :: taken.map Token.unplaced ++ [e.unplaced]) =
          (Statement.declaration custom (t :: taken ++ [e])).unplaced := by
      rw [Statement.unplaced, List.map_append]
      rfl
    cases e.kind <;> cases colon <;>
      first
      | rfl
      | exact congrArg some (hopen (e :: rest))
      | exact congrArg (fun s => some (s, rest.map Token.unplaced)) hclosed

theorem runStatement_unplaced (t : Token) (ts : List Token) :
    (runStatement none t.unplaced (ts.map unplaced)).toOption =
      (runStatement none t ts).toOption.map unplacedRead := by
  rw [runStatement_none, runStatement_none, Token.text_unplaced]
  have hstart := RunState.step_unplaced (t.text.startsWith "--") {} t
  rw [show RunState.unplaced {} = {} from rfl] at hstart
  rw [hstart, cutRun_unplaced, Run.outcome_unplaced]

theorem cutParams_unplaced (expected : List TokenKind) (ts : List Token) :
    cutParams expected (ts.map unplaced) =
      ((cutParams expected ts).1.map unplaced, (cutParams expected ts).2.1.unplaced,
        (cutParams expected ts).2.2.map unplaced) := by
  induction ts generalizing expected with
  | nil => rfl
  | cons t ts ih =>
    have hend : atRuleEnd? t.unplaced = (atRuleEnd? t).map AtRuleEnd.unplaced := by
      rw [atRuleEnd?, atRuleEnd?, Token.kind_unplaced]
      cases t.kind <;> rfl
    rw [List.map_cons, cutParams, cutParams, Token.kind_unplaced, hend]
    dsimp only
    rw [ih]
    cases (expectedAfter expected t.kind).isEmpty <;> cases atRuleEnd? t <;> rfl

theorem atRuleStatement_unplaced (t : Token) (ts : List Token) :
    (atRuleStatement none t.unplaced (ts.map unplaced)).toOption =
      (atRuleStatement none t ts).toOption.map unplacedRead := by
  rw [atRuleStatement, atRuleStatement, Token.text_unplaced, cutParams_unplaced]
  split_ifs
  · rfl
  · obtain ⟨params, ending, rest⟩ := cutParams [] ts
    cases ending <;> rfl

theorem nextStatement_unplaced (t : Token) (ts : List Token) :
    (nextStatement none t.unplaced (ts.map unplaced)).toOption =
      (nextStatement none t ts).toOption.map unplacedRead := by
  rw [nextStatement, nextStatement, Token.kind_unplaced]
  cases t.kind
  case atWord => exact atRuleStatement_unplaced t ts
  all_goals first | rfl | exact runStatement_unplaced t ts

/-- Tokens without places fall into the same statements, as far as there is no issue. -/
theorem statementsFrom_unplaced (ts : List Token) :
    (statementsFrom none (ts.map unplaced)).1 = (statementsFrom none ts).1.map Statement.unplaced ∧
      ((statementsFrom none (ts.map unplaced)).2 = none ↔ (statementsFrom none ts).2 = none) := by
  induction ts using statementsFrom.induct none with
  | case1 =>
    rw [List.map_nil, statementsFrom]
    exact ⟨rfl, Iff.rfl⟩
  | case2 t ts issue hnext =>
    have hread := nextStatement_unplaced t ts
    rw [hnext] at hread
    cases hnext' : nextStatement none t.unplaced (ts.map unplaced) with
    | ok p =>
      rw [hnext'] at hread
      cases hread
    | error issue' =>
      rw [List.map_cons, statementsFrom_of_error hnext, statementsFrom_of_error hnext']
      exact ⟨rfl, iff_of_false (Option.some_ne_none _) (Option.some_ne_none _)⟩
  | case3 t ts s rest hnext _ _ _ _ ih =>
    have hread := nextStatement_unplaced t ts
    rw [hnext] at hread
    cases hnext' : nextStatement none t.unplaced (ts.map unplaced) with
    | error issue =>
      rw [hnext'] at hread
      cases hread
    | ok p =>
      rw [hnext'] at hread
      obtain rfl := Option.some.inj hread
      rw [List.map_cons, statementsFrom_of_ok hnext, statementsFrom_of_ok hnext']
      exact ⟨congrArg (s.unplaced :: ·) ih.1, ih.2⟩

/-! ### What statements do -/

namespace Statement

theorem withoutSemicolon_unplaced (ts : List Token) :
    withoutSemicolon (ts.map Token.unplaced) = (withoutSemicolon ts).map Token.unplaced := by
  have hany : (ts.map Token.unplaced).getLast?.any (fun t => t.kind == .semicolon) =
      ts.getLast?.any fun t => t.kind == .semicolon := by
    rw [List.getLast?_map]
    cases ts.getLast? <;> rfl
  rw [withoutSemicolon, withoutSemicolon, hany, ← List.map_dropLast]
  exact (apply_ite _ _ _ _).symm

theorem atRuleCore_unplaced (name : Token) (params : List Token) (ending : AtRuleEnd) :
    atRuleCore name.unplaced (params.map Token.unplaced) ending.unplaced =
      atRuleCore name params ending := by
  have hend : (ending.unplaced == .textEnd) = (ending == .textEnd) := by
    cases ending <;> rfl
  rw [atRuleCore, atRuleCore, cutGaps_unplaced]
  simp only [takeWhile_unplaced Token.isGap_unplaced, dropWhile_unplaced Token.isGap_unplaced,
    cleanField_unplaced, Token.join_map_unplaced, List.isEmpty_map, hend, Token.text_unplaced]

/-- What a statement does has nothing to do with its place. -/
theorem effect_unplaced (s : Statement) : s.unplaced.effect = s.effect := by
  cases s with
  | space t => rfl
  | semicolon t => rfl
  | close t => rfl
  | comment t => rfl
  | block t => rfl
  | rule head brace =>
    simp only [unplaced, effect, Outline.ruleDetail, cutGaps_unplaced, cleanField_unplaced,
      Token.join_map_unplaced]
    rfl
  | declaration custom ts =>
    have hread := readDeclaration_unplaced custom (withoutSemicolon ts)
    rw [unplaced, effect, effect, withoutSemicolon_unplaced]
    cases hparts : readDeclaration custom (withoutSemicolon ts) <;>
      cases hparts' : readDeclaration custom ((withoutSemicolon ts).map Token.unplaced) <;>
      rw [hparts, hparts'] at hread
    · cases hread
    · cases hread
    · obtain rfl := Option.some.inj hread
      rfl
  | atRule name params ending =>
    have hcore := atRuleCore_unplaced name params ending
    cases ending with
    | semicolon t => exact congrArg (fun d => some (Effect.leaf d)) hcore
    | block t => exact congrArg (fun d => some (Effect.opens { d with block := true })) hcore
    | close t => exact congrArg (fun d => some (Effect.last d)) hcore
    | textEnd => exact congrArg (fun d => some (Effect.leaf d)) hcore

variable {ss ss' : List Statement}

/-- Statements that do the same leave as many blocks open. -/
theorem foldlM_level?_congr (h : ss'.map effect = ss.map effect) (n : Nat) :
    ss'.foldlM level? n = ss.foldlM level? n := by
  have hfold := congrArg (List.foldlM (fun n (e : Option Effect) => e.bind (·.level? n)) n) h
  rwa [List.foldlM_map, List.foldlM_map] at hfold

/-- Statements that do the same make the same nodes. -/
theorem filterMap_made?_congr (h : ss'.map effect = ss.map effect) :
    ss'.filterMap made? = ss.filterMap made? := by
  have hmade := congrArg (List.filterMap fun e : Option Effect => e.bind Effect.made?) h
  rwa [List.filterMap_map, List.filterMap_map] at hmade

end Statement

/-- Tokens that are alike up to their places fall into statements that do the same. -/
theorem exists_statements_alike {ss : List Statement} (h : statementsFrom none ts = (ss, none))
    (halike : us.map unplaced = ts.map unplaced) :
    ∃ ss', statementsFrom none us = (ss', none) ∧
      ss'.map Statement.effect = ss.map Statement.effect := by
  have hts := statementsFrom_unplaced ts
  obtain ⟨hus, hissue⟩ := statementsFrom_unplaced us
  rw [halike, hts.1] at hus
  rw [halike, hts.2, h] at hissue
  have heffect : Statement.effect ∘ Statement.unplaced = Statement.effect :=
    funext Statement.effect_unplaced
  refine ⟨(statementsFrom none us).1, Prod.ext rfl (hissue.mp rfl), ?_⟩
  rw [← heffect, ← List.map_map, ← hus, List.map_map, h]

end Stylesheet
