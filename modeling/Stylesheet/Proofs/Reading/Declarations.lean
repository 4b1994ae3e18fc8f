import Mathlib.Data.List.Induction
import Stylesheet.Proofs.Reading.Careful
import Stylesheet.Proofs.Statement.Text

/-!
# Careful reading of declarations

A declaration is taken apart by indices: the mark of importance is looked for from the last token
on, a colon of a second declaration has an index, and tokens are removed from the front one by one.
Of tokens of the text, careful reading makes what plain reading makes of them
(`Careful.parts_eq`).

* `Careful.markFrom_eq`: the mark. While tokens are taken off a copy of the list, the list is
  looked at by index, and no index is behind what is left (`Careful.collectFrom_eq`).
* `Careful.checkMissed_eq`: the second declaration. The tokens in front of its colon are there.
* `Careful.cutHack_eq`: the mark of old browsers is a character of one byte.
-/

namespace Stylesheet

open Text

namespace Careful

variable {css : String} {t word : Token} {ts front tail : List Token}

/-! ### The mark of importance -/

/-- Takes tokens off the end, with the kinds of the tokens up to index `i`, and puts their texts in
front of `mark`. -/
def collectFrom (css : String) (left : List Token) (mark : String) :
    Nat → Careful (String × List Token)
  | 0 => return (mark, left)
  | i + 1 => do
    let t ← item left (i + 1)
    if startsWithBang mark && t.kind != .space then return (mark, left)
    else
      match left.getLast? with
      | some last => do
        let text ← textOf css last
        collectFrom css left.dropLast (text ++ mark) i
      | none => collectFrom css left mark i

/-- A value without the mark that is the token at index `i`. -/
def wholeMark (css : String) (ts : List Token) (i : Nat) :
    Careful (List Token × Bool × Option String) := do
  let tail ← joined css (← behind ts i)
  let (kept, spaces) ← cutEnd css (fun t => t.kind == .space) (ts.take i)
  let mark := spaces ++ tail
  return (kept, true, if mark == " !important" then none else some mark)

/-- A value without the mark whose word is the token at index `i`. -/
def partedMark (css : String) (ts : List Token) (i : Nat) :
    Careful (List Token × Bool × Option String) := do
  let (mark, left) ← collectFrom css ts "" i
  return if startsWithBang mark then (left, true, some mark) else (ts, false, none)

/-- Looks for the mark in front of an index. What is found is kept in `found`: the value, whether it
had a mark, and the spelling when that is unusual. -/
def markFrom (css : String) (found : List Token × Bool × Option String) :
    Nat → Careful (List Token × Bool × Option String)
  | 0 => return found
  | i + 1 => do
    let t ← item found.1 i
    let lower := Text.lower (← textOf css t)
    if lower == "!important" then wholeMark css found.1 i
    else
      let found ← (if lower == "important" then partedMark css found.1 i else return found)
      if t.isGap then markFrom css found i else return found

theorem collectFrom_eq {left : List Token} {mark : String} {i : Nat} (h : ∀ t ∈ left, t.From css)
    (hi : i < left.length) :
    collectFrom css left mark i =
      let collected :=
        collectMark mark (((left.take (i + 1)).drop 1).reverse.map Token.kind) left.reverse
      .ok (collected.1, collected.2.reverse) := by
  induction i generalizing left mark with
  | zero =>
    have htake : (left.take 1).drop 1 = [] := List.drop_eq_nil_of_le (List.length_take_le _ _)
    rw [collectFrom, Nat.zero_add, htake, List.reverse_nil, List.map_nil, collectMark]
    dsimp only
    rw [List.reverse_reverse]
    rfl
  | succ i ih =>
    obtain ⟨front, last, rfl⟩ : ∃ front last, left = front ++ [last] :=
      ⟨_, _, (List.dropLast_append_getLast (List.ne_nil_of_length_pos (by omega))).symm⟩
    obtain ⟨hfront, hlast⟩ := List.forall_mem_append.mp h
    obtain ⟨t, ht⟩ : ∃ t, (front ++ [last])[i + 1]? = some t :=
      ⟨_, List.getElem?_eq_getElem hi⟩
    have hlength : i + 1 ≤ front.length := by
      rw [List.length_append] at hi
      exact Nat.le_of_lt_succ hi
    -- The tokens up to the next index are still there when the last one is taken off.
    have hkinds : ((front ++ [last]).take (i + 1 + 1)).drop 1 =
        (front.take (i + 1)).drop 1 ++ [t] := by
      rw [List.take_add_one, ht, List.take_append_of_le_length hlength]
      exact List.drop_append_of_le_length (by rw [List.length_take]; omega)
    rw [collectFrom, item, ht, hkinds, List.reverse_concat, List.map_cons, List.reverse_concat,
      List.getLast?_concat, List.dropLast_concat, collectMark]
    dsimp only [ok_bind]
    rw [textOf_eq (hlast last List.mem_cons_self), ok_bind, ih hfront hlength]
    split
    · rw [List.reverse_cons, List.reverse_reverse]
      rfl
    · rfl

theorem wholeMark_eq (h : ∀ t ∈ front ++ word :: tail, t.From css) :
    wholeMark css (front ++ word :: tail) front.length =
      let mark := (cutSpaces front).2 ++ word.text ++ Token.join tail
      .ok ((cutSpaces front).1, true, if mark == " !important" then none else some mark) := by
  obtain ⟨hfront, htail⟩ := List.forall_mem_append.mp h
  rw [wholeMark, behind_append, ok_bind, joined_eq htail, ok_bind, List.take_left, cutEnd_eq hfront,
    ok_bind, String.append_assoc, ← Token.join_cons]
  rfl

theorem partedMark_eq (h : ∀ t ∈ front ++ word :: tail, t.From css) :
    partedMark css (front ++ word :: tail) front.length =
      let kinds := ((front ++ [word]).drop 1).reverse.map Token.kind
      let collected := collectMark "" kinds (front ++ word :: tail).reverse
      .ok (if startsWithBang collected.1 then (collected.2.reverse, true, some collected.1)
        else (front ++ word :: tail, false, none)) := by
  have htake : (front ++ word :: tail).take (front.length + 1) = front ++ [word] := by
    rw [List.take_length_add_append, List.take_succ_cons, List.take_zero]
  rw [partedMark, collectFrom_eq h (by simp), htake]
  rfl

/-- White space and comments are no part of a mark. -/
theorem lower_of_isGap (h : t.From css) (hgap : t.isGap = true) :
    (lower t.text == "!important") = false ∧ (lower t.text == "important") = false := by
  obtain ⟨c, cs, htext, hascii, hbang, hi⟩ : ∃ c cs, t.text.toList = c :: cs ∧ c.toNat < 0x80 ∧
      c.toLower ≠ '!' ∧ c.toLower ≠ 'i' := by
    rcases Token.isGap_iff.mp hgap with hspace | hcomment
    · obtain ⟨c, cs, htext⟩ := List.exists_cons_of_ne_nil fun hnil =>
        h.tidy.spelled.text_ne (String.toList_inj.mp hnil)
      have hc := h.tidy.blank hspace c (by rw [htext]; exact List.mem_cons_self)
      simp only [isSpace, Bool.or_eq_true, beq_iff_eq] at hc
      refine ⟨c, cs, htext, ?_⟩
      rcases hc with (((rfl | rfl) | rfl) | rfl) | rfl <;> decide
    · have hspelled := h.tidy.spelled
      rw [Token.Spelled, hcomment] at hspelled
      obtain ⟨body, hbody⟩ := hspelled
      exact ⟨_, _, hbody, by decide, by decide, by decide⟩
  -- An ASCII first character stays the first one in lower case.
  obtain ⟨ds, hlower⟩ := exists_toList_lower htext hascii
  constructor
  · refine beq_false_of_ne fun heq => ?_
    rw [heq] at hlower
    exact hbang (List.cons.inj hlower).1.symm
  · refine beq_false_of_ne fun heq => ?_
    rw [heq] at hlower
    exact hi (List.cons.inj hlower).1.symm

theorem markFrom_succ (front tail : List Token) (ht : t.From css) :
    markFrom css (front ++ t :: tail, false, none) (front.length + 1) =
      if lower t.text == "!important" then wholeMark css (front ++ t :: tail) front.length
      else
        (if lower t.text == "important" then partedMark css (front ++ t :: tail) front.length
          else .ok (front ++ t :: tail, false, none)) >>= fun found =>
        if t.isGap then markFrom css found front.length else .ok found := by
  rw [markFrom, item_append, ok_bind, textOf_eq ht, ok_bind]
  rfl

/-- White space and comments behind the mark are skipped. -/
theorem markFrom_gaps (front tail : List Token) {gaps : List Token} (h : ∀ t ∈ gaps, t.From css)
    (hgaps : ∀ t ∈ gaps, t.isGap = true) :
    markFrom css (front ++ (gaps ++ tail), false, none) (front.length + gaps.length) =
      markFrom css (front ++ (gaps ++ tail), false, none) front.length := by
  induction gaps using List.reverseRecOn generalizing tail with
  | nil => rfl
  | append_singleton gs t ih =>
    obtain ⟨hgs, ht⟩ := List.forall_mem_append.mp h
    obtain ⟨hgs', ht'⟩ := List.forall_mem_append.mp hgaps
    have hfrom := ht t List.mem_cons_self
    have hgap := ht' t List.mem_cons_self
    have hstep := markFrom_succ (front ++ gs) tail hfrom
    rw [(lower_of_isGap hfrom hgap).1, (lower_of_isGap hfrom hgap).2, hgap] at hstep
    rw [List.length_append, List.append_assoc] at hstep
    rw [List.length_append, List.append_assoc, List.singleton_append, ← Nat.add_assoc]
    exact hstep.trans (ih (t :: tail) hgs hgs')

theorem markFrom_eq (h : ∀ t ∈ ts, t.From css) :
    markFrom css (ts, false, none) ts.length = .ok (cutImportant ts) := by
  rcases hcut : cutGaps ts with ⟨front, tail⟩
  have hsplit : front ++ tail = ts := by rw [← cutGaps_append ts, hcut]
  have hgaps : ∀ t ∈ tail, t.isGap = true := fun t ht => by
    rw [← show (cutGaps ts).2 = tail from congrArg Prod.snd hcut] at ht
    exact List.mem_takeWhile_imp (List.mem_reverse.mp ht)
  subst hsplit
  obtain ⟨hfront, htail⟩ := List.forall_mem_append.mp h
  have hskip := markFrom_gaps front [] htail hgaps
  rw [List.append_nil, ← List.length_append] at hskip
  rw [hskip]
  rcases List.eq_nil_or_concat front with rfl | ⟨front, word, rfl⟩
  · obtain ⟨hnone, -⟩ := Prod.mk.inj hcut
    rw [List.length_nil, markFrom, cutImportant, hnone]
    rfl
  · -- The last token that is no gap is the word of the mark, or there is no mark.
    rw [List.concat_eq_append] at hcut h hfront ⊢
    have hgap := isGap_of_cutGaps hcut
    rw [cutImportant_eq_of_cutGaps hcut]
    rw [List.append_assoc, List.singleton_append] at h ⊢
    rw [List.length_append, List.length_singleton,
      markFrom_succ _ _ (hfront word (List.mem_append_right _ List.mem_cons_self)), wholeMark_eq h,
      partedMark_eq h, hgap]
    split
    · rfl
    split
    · rfl
    · rfl

/-! ### A second declaration -/

/-- Index of the first colon outside of parentheses, among the tokens from index `i` on. -/
def colonFrom (css : String) (depth : Int) (prev : Option Token) (i : Nat) :
    List Token → Careful (Option Nat)
  | [] => return none
  | t :: ts =>
    let depth :=
      if t.kind == .openParen then depth + 1 else if t.kind == .closeParen then depth - 1 else depth
    if depth == 0 && t.kind == .colon then
      match prev with
      | none => refuse css (.about .doubleColon t)
      | some p => do
        let text ← textOf css p
        if p.kind == .word && text == "progid" then colonFrom css depth prev (i + 1) ts
        else return some i
    else colonFrom css depth (some t) (i + 1) ts

/-- Stops when a value holds a second declaration. -/
def checkMissed (css : String) (ts : List Token) : Careful Unit := do
  match ← colonFrom css 0 none 0 ts with
  | none => return ()
  | some colon =>
    let front ← upTo ts colon
    match secondWord 0 none front.reverse with
    | none => return ()
    | some t =>
      let offset := if t.kind == .word then t.stop else t.start
      refuse css { reason := .missedSemicolon, start := offset }

/-- The index of the colon is the number of tokens seen in front of it. -/
theorem colonFrom_eq {depth : Int} {prev : Option Token} (seen : List Token)
    (hprev : ∀ p, prev = some p → p.From css) (h : ∀ t ∈ ts, t.From css) :
    colonFrom css depth prev seen.length ts =
      lift ((findColon depth prev seen ts).map (Option.map List.length)) := by
  -- What was seen is carried in one list here and as a count there.
  induction ts generalizing depth prev seen with
  | nil => rfl
  | cons t ts ih =>
    obtain ⟨ht, hts⟩ := List.forall_mem_cons.mp h
    rw [colonFrom.eq_def, findColon.eq_def]
    dsimp only
    generalize (if t.kind == .openParen then depth + 1
      else if t.kind == .closeParen then depth - 1 else depth) = depth'
    split
    · cases prev with
      | none => exact refuse_about ht _
      | some p =>
        dsimp only
        rw [textOf_eq (hprev p rfl), ok_bind]
        split
        · exact ih (t :: seen) hprev hts
        · rfl
    · refine ih (t :: seen) (fun p hp => ?_) hts
      cases hp
      exact ht

theorem checkMissed_eq (h : ∀ t ∈ ts, t.From css) :
    checkMissed css ts = lift (missedSemicolon? ts) := by
  have hcolon : colonFrom css 0 none 0 ts = _ := colonFrom_eq [] (fun p hp => by cases hp) h
  rw [checkMissed, hcolon, missedSemicolon?]
  cases hfind : findColon 0 none [] ts with
  | error issue => rfl
  | ok found =>
    cases found with
    | none => rfl
    | some seen =>
      have hfront := prefix_of_findColon hfind
      rw [List.reverse_nil, List.nil_append] at hfront
      -- So the index of the colon is no more than the number of tokens.
      have hupTo : upTo ts seen.length = .ok seen.reverse := by
        rw [upTo, if_pos (by simpa using hfront.length_le), List.prefix_iff_eq_take.mp hfront,
          List.length_reverse]
      dsimp only [lift, Except.map, Except.mapError, Option.map_some, ok_bind, bind, Except.bind]
      rw [hupTo]
      dsimp only
      rw [List.reverse_reverse]
      cases hword : secondWord 0 none seen with
      | none => rfl
      | some t =>
        have ht : t.From css := by
          rcases mem_of_secondWord hword with hmem | hlast
          · exact h t (hfront.subset (List.mem_reverse.mpr hmem))
          · cases hlast
        refine refuse_eq ?_ fun stop hstop => by cases hstop
        dsimp only
        split
        · exact ht.standsIn.stop_boundary
        · exact ht.standsIn.start_boundary

/-! ### Parts -/

/-- The text of the tokens in front of the first word, behind `lead`, and the other tokens. -/
def cutLead (css : String) (lead : String) (ts : List Token) : Careful (String × List Token) :=
  if ts.head?.any fun t => t.kind != .word then
    if ts.length == 1 then refuseUnknown css ts
    else
      match h : removeFirst ts with
      | .error e => .error e
      | .ok (t, rest) =>
        have := length_of_removeFirst h
        textOf css t >>= fun text => cutLead css (lead ++ text) rest
  else .ok (lead, ts)
termination_by ts.length
decreasing_by exact this

/-- The text up to the colon, behind `between`, and the tokens behind it. -/
def cutBetween (css : String) (between : String) (ts : List Token) :
    Careful (String × List Token) :=
  if ts.isEmpty then .ok (between, [])
  else
    match h : removeFirst ts with
    | .error e => .error e
    | .ok (t, rest) =>
      have := length_of_removeFirst h
      textOf css t >>= fun text =>
        if t.kind == .colon then .ok (between ++ text, rest)
        else if t.kind == .word && text.toList.any fun c => c.isAlphanum || c == '_' then
          refuseUnknown css [t]
        else cutBetween css (between ++ text) rest
termination_by ts.length
decreasing_by exact this

/-- A mark of old browsers at the start of a property, and the property without it. -/
def cutHack (prop : String) : Careful (String × String) :=
  if prop.startsWith '_' || prop.startsWith '*' then do
    let hack ← slice prop 0 1
    let prop ← slice prop 1 prop.utf8ByteSize
    return (hack, prop)
  else return ("", prop)

/-- The parts of a declaration whose value has been found: `gaps` and `body` stand behind its
colon. -/
def valueParts (css : String) (custom : Bool) (lead : String) (first : Token)
    (prop between : String) (gaps body : List Token) : Careful DeclarationParts := do
  let (kept, important, rawImportant) ← markFrom css (body, false, none) body.length
  let hasWord := kept.any fun t => !t.isGap
  let space ← joined css gaps
  let (value, rawValue) ← field css custom (if hasWord then kept else gaps ++ kept)
  if value.toList.contains ':' && !custom then checkMissed css kept
  return {
    lead
    first
    prop
    between := if hasWord then between ++ space else between
    value
    rawValue
    important
    rawImportant }

/-- Takes the tokens of a declaration apart. They have no semicolon at their end. -/
def parts (css : String) (custom : Bool) (ts : List Token) : Careful DeclarationParts := do
  let (lead, ts) ← cutLead css "" ts
  let first ← item ts 0
  let (name, ts) ← removeWhile (fun t => !endsProperty t) ts
  let prop ← joined css name
  let (between, ts) ← cutBetween css "" ts
  let (hack, prop) ← cutHack prop
  let (gaps, body) ← removeWhile Token.isGap ts
  if body.isEmpty && !custom then refuse css (.about .missingValue first)
  else valueParts css custom (lead ++ hack) first prop between gaps body

theorem cutLead_eq {lead : String} (hne : ts ≠ []) (h : ∀ t ∈ ts, t.From css) :
    cutLead css lead ts = lift ((Stylesheet.cutLead ts).map fun (front, first, rest) =>
      (lead ++ Token.join front, first :: rest)) := by
  -- The checked reader joins as it goes, the plain one at the end.
  induction ts generalizing lead with
  | nil => exact absurd rfl hne
  | cons t ts ih =>
    obtain ⟨ht, hts⟩ := List.forall_mem_cons.mp h
    rw [cutLead, List.head?_cons, Option.any_some, Stylesheet.cutLead, bne]
    cases t.kind == .word with
    | true =>
      rw [if_pos rfl]
      show _ = Except.ok (lead ++ "", t :: ts)
      rw [String.append_empty]
      rfl
    | false =>
      cases ts with
      | nil => exact refuseUnknown_cons ht
      | cons u us =>
        show (textOf css t >>= fun text => cutLead css (lead ++ text) (u :: us)) = _
        rw [textOf_eq ht, ok_bind, ih (List.cons_ne_nil u us) hts]
        show _ = lift (((Stylesheet.cutLead (u :: us)).map _).map _)
        cases Stylesheet.cutLead (u :: us) with
        | error issue => rfl
        | ok found =>
          show Except.ok (lead ++ t.text ++ Token.join found.1, _) =
            Except.ok (lead ++ Token.join (t :: found.1), _)
          rw [Token.join_cons, String.append_assoc]

theorem cutBetween_eq {between : String} (h : ∀ t ∈ ts, t.From css) :
    cutBetween css between ts = lift (Stylesheet.cutBetween between ts) := by
  induction ts generalizing between with
  | nil =>
    rw [cutBetween]
    rfl
  | cons t ts ih =>
    obtain ⟨ht, hts⟩ := List.forall_mem_cons.mp h
    rw [cutBetween, Stylesheet.cutBetween]
    show (textOf css t >>= fun text => _) = _
    rw [textOf_eq ht, ok_bind]
    split
    · rfl
    split
    · exact refuseUnknown_cons ht
    · exact ih hts

theorem cutHack_eq (prop : String) : cutHack prop = .ok (Stylesheet.cutHack prop) := by
  rw [Stylesheet.cutHack]
  -- An underscore, a star, or neither: the two marks are one byte long, so both slices hold.
  split
  next cs hprop =>
    obtain ⟨hfirst, hrest⟩ := slice_char hprop rfl
    rw [cutHack, String.startsWith_char_eq_head?, hprop, hfirst, hrest]
    rfl
  next cs hprop =>
    obtain ⟨hfirst, hrest⟩ := slice_char hprop rfl
    rw [cutHack, String.startsWith_char_eq_head?, String.startsWith_char_eq_head?, hprop, hfirst,
      hrest]
    rfl
  next hunder hstar =>
    rw [cutHack, String.startsWith_char_eq_head?, String.startsWith_char_eq_head?, if_neg]
    · rfl
    · rw [Bool.or_eq_true, beq_iff_eq, beq_iff_eq, List.head?_eq_some_iff, List.head?_eq_some_iff]
      rintro (⟨cs, hcs⟩ | ⟨cs, hcs⟩)
      · exact hunder cs hcs
      · exact hstar cs hcs

/-- What plain reading does behind the colon. -/
theorem valueParts_eq {custom : Bool} {lead prop between : String} {first : Token}
    {gaps body : List Token} (hgaps : ∀ t ∈ gaps, t.From css) (hbody : ∀ t ∈ body, t.From css) :
    valueParts css custom lead first prop between gaps body = lift (do
      let (kept, important, rawImportant) := cutImportant body
      let hasWord := kept.any fun t => !t.isGap
      let (value, rawValue) := cleanField custom (if hasWord then kept else gaps ++ kept)
      if value.toList.contains ':' && !custom then missedSemicolon? kept
      .ok
        { lead
          first
          prop
          between := if hasWord then between ++ Token.join gaps else between
          value
          rawValue
          important
          rawImportant }) := by
  rw [valueParts, markFrom_eq hbody, ok_bind]
  have hsubset := cutImportant_subset body
  generalize cutImportant body = found at hsubset ⊢
  obtain ⟨kept, important, raw⟩ := found
  have hkept : ∀ t ∈ kept, t.From css := fun t ht => hbody t (hsubset ht)
  have hfield : ∀ t ∈ (if kept.any fun t => !t.isGap then kept else gaps ++ kept),
      t.From css := by
    split
    · exact hkept
    · exact List.forall_mem_append.mpr ⟨hgaps, hkept⟩
  dsimp only
  rw [joined_eq hgaps, ok_bind, field_eq hfield, ok_bind, checkMissed_eq hkept]
  exact (lift_checked _ _ _).symm

theorem parts_eq {custom : Bool} (hne : ts ≠ []) (h : ∀ t ∈ ts, t.From css) :
    parts css custom ts = lift (readDeclaration custom ts) := by
  rw [parts, readDeclaration, cutLead_eq hne h]
  cases hlead : Stylesheet.cutLead ts with
  | error issue => rfl
  | ok found =>
    obtain ⟨lead, first, rest⟩ := found
    -- Everything that is cut out below comes from the tokens of the text.
    have hall : ∀ t ∈ first :: rest, t.From css := fun t ht => h t (by
      rw [← append_cutLead hlead]
      exact List.mem_append_right lead ht)
    have hname : ∀ t ∈ (first :: rest).takeWhile fun t => !endsProperty t, t.From css :=
      fun t ht => hall t (List.takeWhile_subset _ ht)
    have hbehind : ∀ t ∈ (first :: rest).dropWhile fun t => !endsProperty t, t.From css :=
      fun t ht => hall t (List.dropWhile_subset _ ht)
    show (removeWhile (fun t => !endsProperty t) (first :: rest) >>= fun x => _) = _
    rw [removeWhile_eq, ok_bind]
    dsimp only
    rw [joined_eq hname, ok_bind, cutBetween_eq hbehind]
    show _ = lift (Stylesheet.cutBetween "" _ >>= fun x => _)
    cases hcut : Stylesheet.cutBetween ""
        ((first :: rest).dropWhile fun t => !endsProperty t) with
    | error issue => rfl
    | ok found =>
      obtain ⟨between, body⟩ := found
      have hbody : ∀ t ∈ body, t.From css := fun t ht =>
        hbehind t ((suffix_of_cutBetween hcut).subset ht)
      show (cutHack (Token.join _) >>= fun x => _) = _
      rw [cutHack_eq, ok_bind]
      dsimp only
      rw [removeWhile_eq, ok_bind]
      dsimp only
      -- The value is missing; both stop with the same complaint about the same token.
      by_cases hmissing : ((body.dropWhile Token.isGap).isEmpty && !custom) = true
      · rw [if_pos hmissing]
        show _ = lift (if _ then _ else _)
        rw [if_pos hmissing]
        exact refuse_about (hall first List.mem_cons_self) .missingValue
      · rw [if_neg hmissing, String.empty_append]
        show _ = lift (if _ then _ else _)
        rw [if_neg hmissing]
        exact valueParts_eq (fun t ht => hbody t (List.takeWhile_subset _ ht))
          fun t ht => hbody t (List.dropWhile_subset _ ht)

end Careful

end Stylesheet
