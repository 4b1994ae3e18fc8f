import Stylesheet.Proofs.Chain.Statements
import Stylesheet.Proofs.Outline.Read
import Stylesheet.Proofs.Reading.Nodes
import Stylesheet.Proofs.Reading.Runs
import Stylesheet.Proofs.Statement.Ahead

/-!
# Reading in rounds

A reader goes on in rounds. Each round pulls a token from the lexer and reads the statement that
starts with it: it pulls more tokens, looks into them by index, slices the text, and hands tokens
back that belong to what follows. `Careful.round` is a round that checks every place it asks for.

* `Careful.statement_agrees`: what a round makes of the tokens is the next statement of plain
  reading, carried out, and the lexer still hands out the tokens behind that statement.
* `Careful.turn_plainFrom`: so a round ends the reading, stops with an issue, or takes tokens off.
* `Careful.reading_ends`: from there on by induction on the rounds. Less is left after each round,
  although tokens are handed back, so there are no more rounds than bytes. No round asks for a place
  that is not there, and all rounds together come to what plain reading comes to.
-/

namespace Stylesheet

open Text

namespace Careful

/-- The state of reading: the lexer and what was read so far. -/
structure Reader where
  lexer : Lexer
  outline : Outline

section Rounds

variable (css : String) (locate : Nat → Position)

/-- A run that no semicolon and no opening brace ended: a declaration without a semicolon, when it
has `ended` and has a colon. White space and comments at its end are handed back, unless it is a
custom property. -/
def openRun (o : Outline) (custom ended : Bool) (s : RunState) (taken : List Token) (l : Lexer) :
    Careful Reader :=
  match s.expected, s.opened with
  | _ :: _, some bracket =>
    refuse css ⟨.unclosed .bracket, bracket.start, some (bracket.start + 1)⟩
  | _, _ =>
    if (ended || l.atEnd) && s.colon then
      if custom then (declaration css locate o custom taken).map (Reader.mk l)
      else
        let (kept, gaps) := cutGaps taken
        (declaration css locate o custom kept).map
          (Reader.mk (gaps.foldr (fun t l => l.back t) l))
    else refuseUnknown css taken

/-- A run that was pulled: a rule or a declaration, by the token that ended it. -/
def pulledRun (o : Outline) (custom : Bool) (pulled : Pulled RunState) : Careful Reader :=
  match pulled.ending with
  | some e =>
    match e.kind with
    | .semicolon =>
      if pulled.state.colon then
        (declaration css locate o custom (pulled.taken ++ [e])).map (Reader.mk pulled.lexer)
      else openRun css locate o custom false pulled.state (pulled.taken ++ [e]) pulled.lexer
    | .openCurly => (rule css locate o pulled.taken).map (Reader.mk pulled.lexer)
    | _ => openRun css locate o custom true pulled.state pulled.taken (pulled.lexer.back e)
  | none => openRun css locate o custom false pulled.state pulled.taken pulled.lexer

/-- What starts with a token that is no statement of its own. -/
def run (o : Outline) (t : Token) (l : Lexer) : Careful Reader := do
  let custom := (← textOf css t).startsWith "--"
  let pulled ← pull css (runNext custom) (({} : RunState).step custom t) [t] l
  pulledRun css locate o custom pulled

/-- An at-rule, with the tokens up to what ends its parameters. -/
def atStatement (o : Outline) (t : Token) (l : Lexer) : Careful Reader := do
  let full ← textOf css t
  let name ← slice full 1 full.utf8ByteSize
  if name.isEmpty then refuse css (.about .missingName t)
  else
    let pulled ← pull css paramsNext [] [] l
    let ending := (pulled.ending.bind atRuleEnd?).getD .textEnd
    (atRule css locate o name t pulled.taken ending).map (Reader.mk pulled.lexer)

/-- The statement that starts with a token. -/
def statement (o : Outline) (t : Token) (l : Lexer) : Careful Reader :=
  match t.kind with
  | .space => (textOf css t).map fun text => ⟨l, { o with spaces := o.spaces ++ text }⟩
  | .semicolon => (freeSemicolon css locate o t).map (Reader.mk l)
  | .closeCurly => (close css locate o t).map (Reader.mk l)
  | .comment => (comment css locate o t).map (Reader.mk l)
  | .atWord => atStatement css locate o t l
  | .openCurly => (emptyRule css locate o t).map (Reader.mk l)
  | _ => run css locate o t l

/-- One round of reading: what starts with the next token, unless the text is at its end. -/
def round (r : Reader) : Careful (Option Reader) :=
  if r.lexer.atEnd then .ok none
  else
    match r.lexer.next false with
    | (.error u, _) => refuse css (.ofUnclosed u)
    | (.ok none, _) => .ok none
    | (.ok (some t), l) => (statement css locate r.outline t l).map some

/-- The whole branch, behind the last round. -/
def finish (r : Reader) : Careful (Branch Detail) :=
  match r.outline.parents with
  | [] => do
    let stop ← position css locate r.lexer.offset
    return .node (Outline.withStop r.outline.sealed stop) r.outline.current.kids.reverse
  | _ :: _ =>
    let start := (r.outline.current.detail.source.bind Source.start).map Position.offset
    throw (.issue { reason := .unclosedBlock, start := start.getD 0 })

/-- In front of the whole text. -/
def Reader.start (css : String) : Reader :=
  ⟨.ofText css false, .empty⟩

/-- The state behind a number of rounds. -/
inductive Reached : Nat → Reader → Prop
  | start : Reached 0 (.start css)
  | round {n : Nat} {r r' : Reader} (h : Reached n r)
      (hround : round css locate r = .ok (some r')) : Reached (n + 1) r'

/-- What reading on from a state comes to, round by round. -/
inductive Reads : Reader → Careful (Branch Detail) → Prop
  | finish {r : Reader} (h : round css locate r = .ok none) : Reads r (finish css locate r)
  | halt {r : Reader} {halt : Halt} (h : round css locate r = .error halt) : Reads r (.error halt)
  | round {r r' : Reader} {x : Careful (Branch Detail)}
      (h : round css locate r = .ok (some r')) (hrest : Reads r' x) : Reads r x

end Rounds

/-! ### Statements -/

section Statements

variable {css : String} {locate : Nat → Position} {l : Lexer} {o : Outline} {t : Token}
  {ts rest : List Token}

/-- A statement, carried out. -/
def carryOut (locate : Nat → Position) (o : Outline)
    (found : Except Issue (Statement × List Token)) : Except Issue (Outline × List Token) :=
  found >>= fun (s, rest) => (o.step locate s).map fun o => (o, rest)

/-- The state of reading is the outline, in front of the tokens that are left, or the issue is the
same. -/
def Agrees (css : String) (x : Careful Reader) : Except Issue (Outline × List Token) → Prop
  | .error issue => x = .error (.issue issue)
  | .ok (o, rest) => ∃ l, x = .ok ⟨l, o⟩ ∧ l.Feeds css rest

theorem agrees_map {x : Careful Outline} {y : Except Issue Outline} (hx : x = lift y)
    (h : l.Feeds css rest) : Agrees css (x.map (Reader.mk l)) (y.map fun o => (o, rest)) := by
  subst hx
  cases y with
  | error issue => rfl
  | ok o => exact ⟨l, rfl, h⟩

/-- Without a colon, a run that nothing ended is no statement. -/
theorem openRun_unknown {custom ended : Bool} {s : RunState} (us : List Token) (h : t.From css)
    (hcolon : s.colon = false) (hstate : s.expected = [] ∨ s.opened = none) :
    openRun css locate o custom ended s (t :: us) l = .error (.issue (.about .unknownWord t)) := by
  rw [openRun]
  split
  next hexpected hopened =>
    rw [hexpected, hopened] at hstate
    exact absurd hstate (by simp)
  next =>
    rw [hcolon, Bool.and_false]
    exact refuseUnknown_cons h

/-- A run that the text breaks off inside of a bracket. -/
theorem openRun_unclosed {custom ended : Bool} {s : RunState} {us : List Token} {kind : TokenKind}
    {kinds : List TokenKind} {bracket : Token} (hfrom : ∀ u ∈ us, u.From css)
    (hopened : OpenedIn s us) (hexpected : s.expected = kind :: kinds)
    (hbracket : s.opened = some bracket) :
    openRun css locate o custom ended s us l =
      .error (.issue ⟨.unclosed .bracket, bracket.start, some (bracket.start + 1)⟩) := by
  obtain ⟨hmem, hopens⟩ := hopened bracket hbracket
  have hplace := hfrom bracket hmem
  rw [openRun, hexpected, hbracket]
  refine refuse_eq ?_ fun stop hend => ?_
  · exact hplace.standsIn.start_boundary
  · cases hend
    rw [← hplace.stop_of_opens hopens]
    exact hplace.standsIn.stop_boundary

theorem openRun_agrees {custom ended : Bool} {s : RunState} {us : List Token}
    (hfrom : ∀ u ∈ t :: us, u.From css) (hgap : t.isGap = false) (hkind : t.kind ≠ .semicolon)
    (hfeeds : l.Feeds css rest) (hsuffix : t :: us ++ rest <:+ (lex false css).1)
    (hended : (ended || l.atEnd) = true) (hstate : s.expected = [] ∨ s.opened = none) :
    Agrees css (openRun css locate o custom ended s (t :: us) l) (carryOut locate o
      (if s.colon then .ok (openDeclaration custom (t :: us) rest)
        else .error (.about .unknownWord t))) := by
  cases hcolon : s.colon with
  | false => exact openRun_unknown us (hfrom t List.mem_cons_self) hcolon hstate
  | true =>
    rw [openRun]
    split
    next hexpected hopened =>
      rw [hexpected, hopened] at hstate
      exact absurd hstate (by simp)
    next =>
      rw [hcolon, hended, openDeclaration]
      cases custom with
      | true => exact agrees_map (declaration_eq hkind hfrom) hfeeds
      | false =>
        -- The gaps at the end are handed back, and the first token is none of them.
        have hsplit := cutGaps_append (t :: us)
        have hne : (cutGaps (t :: us)).1 ≠ [] := cutGaps_ne_nil hgap
        dsimp only
        generalize cutGaps (t :: us) = cut at hsplit hne ⊢
        obtain ⟨kept, gaps⟩ := cut
        dsimp only at hsplit hne ⊢
        obtain ⟨u, more, rfl⟩ := List.exists_cons_of_ne_nil hne
        obtain ⟨rfl, -⟩ := List.cons.inj hsplit
        rw [← hsplit, List.append_assoc] at hsuffix
        rw [← hsplit] at hfrom
        exact agrees_map (declaration_eq hkind (List.forall_mem_append.mp hfrom).1)
          (hfeeds.handBack ((List.suffix_append _ _).trans hsuffix))

/-- A run in front of the token that ended it. -/
theorem pulledRun_agrees_of_ending {custom : Bool} {s : RunState} {us : List Token} {e : Token}
    (hsuffix : t :: us ++ e :: rest <:+ (lex false css).1) (hgap : t.isGap = false)
    (hkind : t.kind ≠ .semicolon) (hfeeds : l.Feeds css rest) (hexpected : s.expected = [])
    (hend : e.kind = .semicolon ∨ e.kind = .openCurly ∨ e.kind = .closeCurly) :
    Agrees css (pulledRun css locate o custom ⟨t :: us, s, some e, l⟩)
      (carryOut locate o (Run.outcome custom t ⟨us, e :: rest, s⟩)) := by
  have hall : ∀ u ∈ t :: us ++ e :: rest, u.From css := fun _ hu => hsuffix.subset hu
  have hfrom : ∀ u ∈ t :: us, u.From css := fun u hu => hall u (List.mem_append_left _ hu)
  rw [pulledRun, Run.outcome]
  dsimp only
  rcases hend with he | he | he <;> rw [he] <;> dsimp only
  · cases hcolon : s.colon with
    | true =>
      have hclosed : ∀ u ∈ t :: (us ++ [e]), u.From css := fun u hu => hall u (by
        rw [show t :: us ++ e :: rest = t :: (us ++ [e]) ++ rest by simp]
        exact List.mem_append_left rest hu)
      exact agrees_map (declaration_eq hkind hclosed) hfeeds
    | false =>
      exact openRun_unknown (us ++ [e]) (hfrom t List.mem_cons_self) hcolon (.inl hexpected)
  · exact agrees_map (rule_eq (List.cons_ne_nil t us) hfrom) hfeeds
  · -- The brace ends the block, so it is handed back.
    have hbrace : e :: rest <:+ (lex false css).1 :=
      (List.suffix_append (t :: us) (e :: rest)).trans hsuffix
    exact openRun_agrees hfrom hgap hkind (hfeeds.back hbrace) hsuffix rfl (.inl hexpected)

/-- A run that the end of the text breaks off. -/
theorem pulledRun_agrees_of_textEnd {custom : Bool} {s : RunState} {us : List Token}
    (hsuffix : t :: us ++ [] <:+ (lex false css).1) (hgap : t.isGap = false)
    (hkind : t.kind ≠ .semicolon) (hfeeds : l.Feeds css []) (hopened : OpenedIn s (t :: us))
    (hstop : (lex false css).2 = none) :
    Agrees css (pulledRun css locate o custom ⟨t :: us, s, none, l⟩)
      (carryOut locate o (Run.outcome custom t ⟨us, [], s⟩)) := by
  have hfrom : ∀ u ∈ t :: us, u.From css := fun _ hu =>
    hsuffix.subset (List.mem_append_left [] hu)
  have hended : (false || l.atEnd) = true := by
    rw [hfeeds.atEnd_eq, hstop]
    rfl
  have hopen : _ → Agrees css (openRun css locate o custom false s (t :: us) l) _ :=
    openRun_agrees hfrom hgap hkind hfeeds hsuffix hended
  rw [pulledRun, Run.outcome]
  dsimp only
  cases hexpected : s.expected with
  | nil => exact hopen (.inl hexpected)
  | cons kind kinds =>
    cases hbracket : s.opened with
    | none => exact hopen (.inr hbracket)
    | some bracket => exact openRun_unclosed hfrom hopened hexpected hbracket

theorem run_agrees (h : l.Feeds css ts) (hsuffix : t :: ts <:+ (lex false css).1)
    (hgap : t.isGap = false) (hkind : t.kind ≠ .semicolon) :
    Agrees css (run css locate o t l) (carryOut locate o
      (runStatement (lex false css).2 t ts)) := by
  rw [run, textOf_eq (hsuffix.subset List.mem_cons_self), ok_bind, runStatement.eq_def]
  dsimp only
  generalize t.text.startsWith "--" = custom
  generalize hfirst : ({} : RunState).step custom t = first
  -- The tokens are pulled one by one here, and cut off a list there.
  have hpull : Pulls css (runNext custom) [t] _ _ := pull_pulls h first [t]
  have hopened : OpenedIn (cutRun custom first ts).state (t :: (cutRun custom first ts).taken) := by
    rw [← hfirst]
    have hempty : OpenedIn {} [] := fun b hb => by cases hb
    exact (hempty.step custom t).cutRun custom ts
  have hsplit := cutRun_append custom first ts
  rw [cutUntil_runNext] at hpull
  rcases hrun : cutRun custom first ts with ⟨us, rest, s⟩
  rw [hrun] at hpull hopened hsplit
  dsimp only at hpull hopened hsplit
  rw [← hsplit] at hsuffix
  -- Three ends: at a token that ends the run, at the end of the text, and inside a token.
  cases hpull with
  | @ending _ rest _ e l hend hpulled hfeeds =>
    have hrest : (cutRun custom first ts).rest = e :: rest := by rw [hrun]
    have hexpected : s.expected = [] := by
      have hstate := expected_of_cutRun hrest
      rwa [hrun] at hstate
    rw [hpulled]
    exact pulledRun_agrees_of_ending hsuffix hgap hkind hfeeds hexpected (kind_of_cutRun hrest)
  | textEnd hstop hpulled hfeeds =>
    rw [hpulled, hstop]
    exact pulledRun_agrees_of_textEnd hsuffix hgap hkind hfeeds hopened hstop
  | unclosed hstop hpulled =>
    rw [hpulled, hstop]
    rfl

theorem atStatement_agrees (h : l.Feeds css ts) (hsuffix : t :: ts <:+ (lex false css).1)
    (hkind : t.kind = .atWord) :
    Agrees css (atStatement css locate o t l) (carryOut locate o
      (atRuleStatement (lex false css).2 t ts)) := by
  have hall : ∀ u ∈ t :: ts, u.From css := fun _ hu => hsuffix.subset hu
  obtain ⟨ht, hts⟩ := List.forall_mem_cons.mp hall
  have hspelled := ht.tidy.spelled
  rw [Token.Spelled, hkind] at hspelled
  obtain ⟨cs, hcs⟩ := List.head?_eq_some_iff.mp hspelled
  have hname : slice t.text 1 t.text.utf8ByteSize = .ok (String.ofList (t.text.toList.drop 1)) := by
    rw [(slice_char hcs rfl).2, hcs]
    rfl
  have hempty : (String.ofList (t.text.toList.drop 1)).isEmpty = (t.text == "@") := by
    rw [isEmpty_ofList, Bool.eq_iff_iff, beq_iff_eq, ← String.toList_inj, hcs, List.isEmpty_iff]
    exact ⟨fun h => congrArg ('@' :: ·) h, fun h => (List.cons.inj h).2⟩
  rw [atStatement, textOf_eq ht, ok_bind, hname, ok_bind, hempty, atRuleStatement]
  cases t.text == "@" with
  | true => exact refuse_about ht .missingName
  | false =>
    have hpull : Pulls css paramsNext [] _ _ := pull_pulls h [] []
    have hsplit : (cutUntil paramsNext [] ts).1 ++ (cutUntil paramsNext [] ts).2.2 = ts :=
      cutUntil_append [] ts
    rw [cutParams_eq_cutUntil]
    dsimp only
    generalize cutUntil paramsNext [] ts = cut at hpull hsplit ⊢
    -- Params end at one of three tokens, or with the text.
    cases hpull with
    | @ending us rest s e l' hend hpulled hfeeds =>
      rw [← hsplit] at hts
      obtain ⟨hparams, hbehind⟩ := List.forall_mem_append.mp hts
      have he : e.From css := hbehind e List.mem_cons_self
      rw [hpulled, ok_bind]
      dsimp only [List.head?_cons, Option.bind_some]
      cases hending : atRuleEnd? e with
      | none =>
        rw [paramsNext, hending] at hend
        simp at hend
      | some ending =>
        rw [atRuleEnd?] at hending
        split at hending <;> cases hending
        next hk => exact agrees_map (atRule_eq (.semicolon e) ht hparams ⟨he, hk⟩) hfeeds
        next hk => exact agrees_map (atRule_eq (.block e) ht hparams trivial) hfeeds
        next hk => exact agrees_map (atRule_eq (.close e) ht hparams ⟨he, hk⟩) hfeeds
    | @textEnd us _ l' hstop hpulled hfeeds =>
      obtain rfl : us = ts := by simpa using hsplit
      rw [hpulled, ok_bind, hstop]
      exact agrees_map (atRule_eq .textEnd ht hts trivial) hfeeds
    | unclosed hstop hpulled =>
      rw [hpulled, hstop]
      rfl

theorem statement_agrees (h : l.Feeds css ts) (hsuffix : t :: ts <:+ (lex false css).1) :
    Agrees css (statement css locate o t l) (carryOut locate o
      (nextStatement (lex false css).2 t ts)) := by
  have ht : t.From css := hsuffix.subset List.mem_cons_self
  have hrun : t.isGap = false → t.kind ≠ .semicolon → Agrees css (run css locate o t l)
      (carryOut locate o (runStatement (lex false css).2 t ts)) := run_agrees h hsuffix
  rw [statement, nextStatement.eq_def]
  -- The first token decides what is read.
  cases hkind : t.kind with
  | space =>
    dsimp only
    rw [textOf_eq ht]
    exact ⟨l, rfl, h⟩
  | semicolon =>
    dsimp only
    rw [freeSemicolon_eq ht]
    exact ⟨l, rfl, h⟩
  | closeCurly => exact agrees_map (close_eq ht hkind) h
  | comment => exact agrees_map (comment_eq ht hkind) h
  | openCurly => exact agrees_map (emptyRule_eq ht) h
  | atWord => exact atStatement_agrees h hsuffix hkind
  | _ => exact hrun (by rw [Token.isGap, hkind]; rfl) (by rw [hkind]; decide)

end Statements

/-! ### All rounds -/

section All

variable {css : String} {locate : Nat → Position} {r : Reader} {o : Outline} {t : Token}
  {ts : List Token}

/-- What plain reading of the tokens that are left comes to. -/
def plainFrom (css : String) (locate : Nat → Position) (o : Outline) (ts : List Token) :
    Except Issue (Branch Detail) := do
  let (statements, issue) := statementsFrom (lex false css).2 ts
  let outline ← statements.foldlM (Outline.step locate) o
  match issue with
  | some issue => .error issue
  | none => outline.finish (locate css.utf8ByteSize)

theorem plainFrom_cons (css : String) (locate : Nat → Position) (o : Outline) (t : Token)
    (ts : List Token) :
    plainFrom css locate o (t :: ts) =
      carryOut locate o (nextStatement (lex false css).2 t ts) >>= fun (o, rest) =>
        plainFrom css locate o rest := by
  cases hnext : nextStatement (lex false css).2 t ts with
  | error issue =>
    rw [plainFrom, statementsFrom_of_error hnext]
    rfl
  | ok found =>
    obtain ⟨s, rest⟩ := found
    rw [plainFrom, statementsFrom_of_ok hnext]
    dsimp only
    rw [List.foldlM_cons]
    show (o.step locate s >>= _) >>= _ = ((o.step locate s).map fun o => (o, rest)) >>= _
    cases o.step locate s <;> rfl

theorem carryOut_eq_ok {found : Except Issue (Statement × List Token)} {o' : Outline}
    {rest : List Token} (h : carryOut locate o found = .ok (o', rest)) :
    ∃ s, found = .ok (s, rest) := by
  obtain ⟨⟨s, rest'⟩, rfl, hstep⟩ := Except.bind_eq_ok h
  refine ⟨s, ?_⟩
  dsimp only at hstep
  cases hs : o.step locate s with
  | error issue =>
    rw [hs] at hstep
    cases hstep
  | ok o'' =>
    rw [hs] at hstep
    cases hstep
    rfl

theorem finish_eq (hplace : r.lexer.offset = css.utf8ByteSize) :
    finish css locate r = lift (r.outline.finish (locate css.utf8ByteSize)) := by
  have hboundary : Boundary css css.utf8ByteSize := by
    have hend := boundary_append css ""
    rwa [String.append_empty] at hend
  rw [finish, Outline.finish, hplace, position_eq hboundary]
  cases r.outline.parents <;> rfl

/-- What a round comes to: it ends the reading, it stops with an issue, or it takes tokens off, and
then plain reading goes on from there. -/
inductive Turn (css : String) (locate : Nat → Position) (r : Reader) (ts : List Token)
    (plain : Except Issue (Branch Detail)) : Prop
  | ends (hround : round css locate r = .ok none) (hfinish : finish css locate r = lift plain)
  | stops {issue : Issue} (hround : round css locate r = .error (.issue issue))
      (hplain : plain = .error issue)
  | goesOn {r' : Reader} {us rest : List Token} (hround : round css locate r = .ok (some r'))
      (hne : us ≠ []) (hsplit : us ++ rest = ts) (hfeeds : r'.lexer.Feeds css rest)
      (hplain : plain = plainFrom css locate r'.outline rest)

/-- A round does what plain reading does with the next statement. -/
theorem turn_plainFrom (locate : Nat → Position) (h : r.lexer.Feeds css ts) :
    Turn css locate r ts (plainFrom css locate r.outline ts) := by
  have hend := h.atEnd_eq
  -- Without tokens the reading is over, in one of two ways; with one, a round reads a statement.
  cases ts with
  | nil =>
    have hnext := h.next_nil
    rw [plainFrom, statementsFrom]
    cases hstop : (lex false css).2 with
    | none =>
      rw [hstop] at hend hnext
      have hplace : r.lexer.offset = css.utf8ByteSize := by
        rw [← h.place, hnext.2.1]
        rfl
      refine .ends ?_ (finish_eq hplace)
      rw [round, hend]
      rfl
    | some u =>
      rw [hstop] at hend hnext
      obtain ⟨l, hnext⟩ := hnext
      refine .stops ?_ rfl
      rw [round, hend, hnext]
      exact refuse_unclosed hstop
  | cons t ts =>
    obtain ⟨l, hnext, hfeeds⟩ := h.next_cons
    have hround : round css locate r = (statement css locate r.outline t l).map some := by
      rw [round, hend, hnext]
      rfl
    have hagrees : Agrees css (statement css locate r.outline t l) _ :=
      statement_agrees hfeeds h.suffix
    rw [plainFrom_cons]
    cases hout : carryOut locate r.outline (nextStatement (lex false css).2 t ts) with
    | error issue =>
      rw [hout] at hagrees
      rw [show statement css locate r.outline t l = .error (.issue issue) from hagrees] at hround
      exact .stops hround rfl
    | ok left =>
      obtain ⟨o, rest⟩ := left
      rw [hout] at hagrees
      obtain ⟨l', hstatement, hrest⟩ := hagrees
      obtain ⟨s, hs⟩ := carryOut_eq_ok hout
      rw [hstatement] at hround
      exact .goesOn hround (nextStatement_ne_nil hs) (nextStatement_append hs) hrest rfl

/-- Round by round, reading comes to what plain reading comes to. -/
theorem reads_plainFrom (locate : Nat → Position) (h : r.lexer.Feeds css ts) :
    Reads css locate r (lift (plainFrom css locate r.outline ts)) := by
  -- On the tokens that are left, since a round takes any number of them.
  induction hlength : ts.length using Nat.strong_induction_on generalizing r ts with
  | _ n ih =>
    cases turn_plainFrom locate h with
    | ends hround hfinish => exact hfinish ▸ Reads.finish hround
    | stops hround hplain =>
      rw [hplain]
      exact .halt hround
    | @goesOn r' us rest hround hne hsplit hfeeds hplain =>
      have hlt : rest.length < n := by
        have hpos := List.length_pos_of_ne_nil hne
        rw [← hlength, ← hsplit, List.length_append]
        omega
      rw [hplain]
      exact .round hround (ih rest.length hlt hfeeds rfl)

theorem Reads.unique {x y : Careful (Branch Detail)} (hx : Reads css locate r x)
    (hy : Reads css locate r y) : x = y := by
  -- A round ends in one way, so the second derivation takes the same turn each time.
  induction hx with
  | finish h =>
    cases hy with
    | finish h' => rfl
    | halt h' => rw [h] at h'; cases h'
    | round h' hrest => rw [h] at h'; cases h'
  | halt h =>
    cases hy with
    | finish h' => rw [h] at h'; cases h'
    | halt h' => rw [h] at h'; cases h'; rfl
    | round h' hrest => rw [h] at h'; cases h'
  | round h hrest ih =>
    cases hy with
    | finish h' => rw [h] at h'; cases h'
    | halt h' => rw [h] at h'; cases h'
    | round h' hrest' => rw [h] at h'; cases h'; exact ih hrest'

theorem round_ne_outside (h : r.lexer.Feeds css ts) : round css locate r ≠ .error .outside := by
  cases turn_plainFrom locate h with
  | ends hround | stops hround | goesOn hround =>
    rw [hround]
    nofun

/-- A round takes tokens off, and less is left. -/
theorem left_lt_of_round {r' : Reader} (h : r.lexer.Feeds css ts)
    (hround : round css locate r = .ok (some r')) :
    ∃ rest, r'.lexer.Feeds css rest ∧ r'.lexer.left < r.lexer.left := by
  cases turn_plainFrom locate h with
  | ends hround' | stops hround' =>
    rw [hround] at hround'
    cases hround'
  | @goesOn _ us rest hround' hne hsplit hfeeds =>
    rw [hround] at hround'
    cases hround'
    rw [← hsplit] at h
    exact ⟨rest, hfeeds, h.left_lt hfeeds hne⟩

/-- As many bytes were taken off as there were rounds, or more. -/
theorem Reached.feeds {n : Nat} (h : Reached css locate n r) :
    (∃ ts, r.lexer.Feeds css ts) ∧ n + r.lexer.left ≤ css.utf8ByteSize := by
  induction h with
  | start =>
    refine ⟨⟨_, Lexer.Feeds.ofText css⟩, ?_⟩
    rw [Nat.zero_add]
    exact Nat.le_of_eq (Lexer.Feeds.left_ofText css)
  | round h hround ih =>
    obtain ⟨⟨ts, hfeeds⟩, hle⟩ := ih
    obtain ⟨rest, hrest, hlt⟩ := left_lt_of_round hfeeds hround
    exact ⟨⟨rest, hrest⟩, by omega⟩

/-- **Reading ends and stays inside of the text.** Each round leaves fewer bytes to be read, be they
not cut yet or handed back, so no round begins when there were as many as the text has bytes. No
round asks for a place outside of a list or of the text or inside of a character. Reading comes to
one outcome only, the one that the tree of the input is made of: a branch or an issue. -/
theorem reading_ends (k : Packages) (i : Input) :
    (∀ n r, Reached i.css i.position n r →
      n + r.lexer.left ≤ i.css.utf8ByteSize ∧
      (r.lexer.atEnd = false → n < i.css.utf8ByteSize) ∧
      round i.css i.position r ≠ .error .outside ∧
      ∀ r', round i.css i.position r = .ok (some r') → r'.lexer.left < r.lexer.left) ∧
    ∃ x, (∀ y, Reads i.css i.position (.start i.css) y ↔ y = x) ∧
      match x with
      | .ok b => i.tree k = .ok (Tree.ofDraft i b)
      | .error (.issue issue) =>
        i.tree k = .error (.malformed (i.errorAt k issue.reason.text issue.start issue.stop))
      | .error .outside => False := by
  constructor
  -- Every round starts where tokens of the text are fed, which bounds it by what is left.
  · intro n r hreached
    obtain ⟨⟨ts, hfeeds⟩, hle⟩ := hreached.feeds
    refine ⟨hle, fun hend => ?_, round_ne_outside hfeeds, fun r' hround => ?_⟩
    · have hpos := hfeeds.left_pos hend
      omega
    · obtain ⟨-, -, hlt⟩ := left_lt_of_round hfeeds hround
      exact hlt
  · have hreads : Reads i.css i.position (.start i.css) _ :=
      reads_plainFrom i.position (Lexer.Feeds.ofText i.css)
    -- The plain reading is the result, and there is no other.
    refine ⟨lift (outlineText i.position i.css), fun y => ⟨fun hy => hy.unique hreads, ?_⟩, ?_⟩
    · rintro rfl
      exact hreads
    · rw [Input.tree]
      cases outlineText i.position i.css <;> rfl

end All

end Careful

end Stylesheet
