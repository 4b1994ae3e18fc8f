import Stylesheet.Proofs.Token.Feeds
import Stylesheet.Statement.Outline

/-!
# Reading that checks the places it asks for

Plain reading takes lists and texts apart by their shape. A reader that works with indices and byte
offsets can ask for a place that is not there: an element behind the end of a list, a byte outside
of the text, a byte inside of a character. `Careful` is reading with indices and offsets that checks
each of them, and that stops with `Halt.outside` at a place that is not there.

For each function of plain reading there is a careful one with the same name. It comes to the same
result, and never to `Halt.outside`, when the tokens are tokens of the text (`Token.From`): then
their texts are slices of the text (`Careful.textOf_eq`), and all offsets that are taken from them
are places where a character starts.
-/

namespace Stylesheet

open Text

/-- Why careful reading stops. -/
inductive Halt
  | issue (issue : Issue)
  /-- A place outside of a list or of the text, or inside of a character, was asked for. -/
  | outside
deriving Repr, DecidableEq, Inhabited

/-- Reading that checks every place that it asks for. -/
abbrev Careful := Except Halt

namespace Careful

variable {css : String} {locate : Nat → Position} {t : Token} {ts : List Token} {α β : Type}

@[simp] theorem ok_bind (a : α) (f : α → Careful β) : (Except.ok a >>= f) = f a := rfl

@[simp] theorem error_bind (h : Halt) (f : α → Careful β) : (Except.error h >>= f) = .error h := rfl

/-- What plain reading says, as careful reading says it. -/
def lift (x : Except Issue α) : Careful α :=
  x.mapError .issue

@[simp] theorem lift_ok (a : α) : lift (.ok a) = .ok a := rfl

@[simp] theorem lift_error (issue : Issue) : (lift (.error issue) : Careful α) =
    .error (.issue issue) := rfl

theorem lift_checked (c : Bool) (check : Except Issue Unit) (a : α) :
    lift (if c then check >>= fun _ => .ok a else .ok a) =
      if c then lift check >>= fun _ => .ok a else .ok a := by
  cases c with
  | true => cases check <;> rfl
  | false => rfl

/-! ### Lists -/

/-- The element at an index. -/
def item (xs : List α) (i : Nat) : Careful α :=
  match xs[i]? with
  | some x => .ok x
  | none => .error .outside

/-- The elements in front of an index. -/
def upTo (xs : List α) (i : Nat) : Careful (List α) :=
  if i ≤ xs.length then .ok (xs.take i) else .error .outside

/-- The elements from an index on. -/
def behind (xs : List α) (i : Nat) : Careful (List α) :=
  if i ≤ xs.length then .ok (xs.drop i) else .error .outside

/-- The first element, removed, and the others. -/
def removeFirst : List α → Careful (α × List α)
  | [] => .error .outside
  | x :: xs => .ok (x, xs)

theorem length_of_removeFirst {xs rest : List α} {x : α} (h : removeFirst xs = .ok (x, rest)) :
    rest.length < xs.length := by
  cases xs with
  | nil => cases h
  | cons y ys =>
    cases h
    exact Nat.lt_succ_self _

/-- Elements removed from the front one by one, while the first one passes the test. -/
def removeWhile (p : α → Bool) (xs : List α) : Careful (List α × List α) :=
  if xs.head?.any p then
    match h : removeFirst xs with
    | .error e => .error e
    | .ok (x, rest) =>
      have := length_of_removeFirst h
      (removeWhile p rest).map fun (removed, rest) => (x :: removed, rest)
  else .ok ([], xs)
termination_by xs.length
decreasing_by exact this

theorem item_append (as bs : List α) (b : α) : item (as ++ b :: bs) as.length = .ok b := by
  rw [item, List.getElem?_append_right (Nat.le_refl _), Nat.sub_self]
  rfl

theorem behind_append (as bs : List α) : behind (as ++ bs) as.length = .ok bs := by
  rw [behind, if_pos (by simp), List.drop_left]

theorem removeWhile_eq (p : α → Bool) (xs : List α) :
    removeWhile p xs = .ok (xs.takeWhile p, xs.dropWhile p) := by
  induction xs with
  | nil => rw [removeWhile]; rfl
  | cons x xs ih =>
    rw [removeWhile, List.head?_cons, Option.any_some, List.takeWhile_cons, List.dropWhile_cons]
    cases p x with
    | true =>
      show (removeWhile p xs).map _ = _
      rw [ih]
      rfl
    | false => rfl

/-! ### Places of a text -/

/-- Asks whether a character starts at a byte offset, or the text ends there. -/
def check (s : String) (k : Nat) : Careful Unit :=
  if Boundary s k then .ok () else .error .outside

/-- The text between two byte offsets. -/
def slice (s : String) (start stop : Nat) : Careful String :=
  match slice? s start stop with
  | some part => .ok part
  | none => .error .outside

/-- The position at a byte offset. -/
def position (css : String) (locate : Nat → Position) (offset : Nat) : Careful Position := do
  check css offset
  return locate offset

/-- Stops with an issue, which is told with the positions of its offsets. -/
def refuse (css : String) (issue : Issue) : Careful α := do
  check css issue.start
  match issue.stop with
  | some stop => check css stop
  | none => pure ()
  throw (.issue issue)

theorem check_eq {s : String} {k : Nat} (h : Boundary s k) : check s k = .ok () := if_pos h

theorem slice_part (front part rest : String) :
    slice (front ++ part ++ rest) front.utf8ByteSize (front ++ part).utf8ByteSize = .ok part := by
  rw [slice, slice?_part]

theorem slice_front (front rest : String) :
    slice (front ++ rest) 0 front.utf8ByteSize = .ok front := by
  have hslice := slice_part "" front rest
  rw [String.empty_append] at hslice
  exact hslice

theorem slice_rest (front rest : String) :
    slice (front ++ rest) front.utf8ByteSize (front ++ rest).utf8ByteSize = .ok rest := by
  have hslice := slice_part front rest ""
  rwa [String.append_empty] at hslice

/-- A character of one byte can be sliced off. -/
theorem slice_char {s : String} {c : Char} {cs : List Char} (hs : s.toList = c :: cs)
    (hsize : c.utf8Size = 1) :
    slice s 0 1 = .ok (String.ofList [c]) ∧
      slice s 1 s.utf8ByteSize = .ok (String.ofList cs) := by
  have hparts : s = String.ofList [c] ++ String.ofList cs := by
    rw [← String.toList_inj, hs]
    simp
  have hone : (String.ofList [c]).utf8ByteSize = 1 := by
    rw [utf8ByteSize_ofList, bytes_cons, hsize]
    rfl
  have hfirst := slice_front (String.ofList [c]) (String.ofList cs)
  have hrest := slice_rest (String.ofList [c]) (String.ofList cs)
  rw [← hparts, hone] at hfirst hrest
  exact ⟨hfirst, hrest⟩

theorem isEmpty_ofList (cs : List Char) : (String.ofList cs).isEmpty = cs.isEmpty := by
  rw [Bool.eq_iff_iff, String.isEmpty_iff, List.isEmpty_iff, String.ofList_eq_empty_iff]

theorem position_eq {k : Nat} (h : Boundary css k) : position css locate k = .ok (locate k) := by
  rw [position, check_eq h]
  rfl

theorem refuse_eq {issue : Issue} (hstart : Boundary css issue.start)
    (hstop : ∀ stop, issue.stop = some stop → Boundary css stop) :
    (refuse css issue : Careful α) = .error (.issue issue) := by
  rw [refuse, check_eq hstart, ok_bind]
  cases hend : issue.stop with
  | none => rfl
  | some stop =>
    dsimp only
    rw [check_eq (hstop stop hend)]
    rfl

/-! ### Tokens -/

/-- The text of a token, as the text has it. -/
def textOf (css : String) (t : Token) : Careful String :=
  slice css t.start t.stop

/-- The texts of tokens, one behind the other. -/
def joined (css : String) : List Token → Careful String
  | [] => return ""
  | t :: ts => do
    let text ← textOf css t
    return text ++ (← joined css ts)

/-- Byte offset of the last character of a token. -/
def lastOf (css : String) (t : Token) : Careful Nat := do
  let text ← textOf css t
  match text.toList.getLast? with
  | some c => return t.stop - c.utf8Size
  | none => return t.start

/-- The end of a node whose last character starts at a byte offset. -/
def stopBehind (css : String) (locate : Nat → Position) (last : Nat) : Careful Position := do
  let place ← position css locate last
  let rest ← slice css last css.utf8ByteSize
  return { place with offset := last + ((rest.toList.head?).map Char.utf8Size).getD 1 }

/-- Stops at tokens that are no statement. There are some, and the first one is to blame. -/
def refuseUnknown (css : String) (ts : List Token) : Careful α := do
  let t ← item ts 0
  refuse css (.about .unknownWord t)

theorem textOf_eq (h : t.From css) : textOf css t = .ok t.text := by
  obtain ⟨front, rest, hcss, hstart⟩ := h.placed
  have hstop : t.stop = (front ++ t.text).utf8ByteSize := by
    rw [Token.stop, hstart, String.utf8ByteSize_append]
  rw [textOf, hstart, hstop, hcss, slice_part]

theorem joined_eq (h : ∀ t ∈ ts, t.From css) : joined css ts = .ok (Token.join ts) := by
  induction ts with
  | nil => rfl
  | cons t ts ih =>
    obtain ⟨ht, hts⟩ := List.forall_mem_cons.mp h
    rw [joined, textOf_eq ht, ok_bind, ih hts, Token.join_cons]
    rfl

theorem lastOf_eq (h : t.From css) : lastOf css t = .ok t.last := by
  rw [lastOf, textOf_eq h, ok_bind, Token.last]
  cases t.text.toList.getLast? <;> rfl

theorem stopBehind_last (h : t.From css) :
    stopBehind css locate t.last = .ok (Outline.stopAt locate t) := by
  obtain ⟨front, rest, hcss, hstart⟩ := h.placed
  have hne : t.text.toList ≠ [] := fun hnil =>
    h.tidy.spelled.text_ne (String.toList_inj.mp hnil)
  obtain ⟨cs, c, hcs⟩ : ∃ cs c, t.text.toList = cs ++ [c] :=
    ⟨_, _, (List.dropLast_append_getLast hne).symm⟩
  obtain ⟨hstop, hlast⟩ := Token.stop_last_of_concat hcs
  -- In front of the last character and from it on.
  have hparts : css = front ++ String.ofList cs ++ (String.ofList [c] ++ rest) := by
    rw [hcss, ← String.toList_inj]
    simp only [String.toList_append, String.toList_ofList, hcs, List.append_assoc]
  have hsize : t.last = (front ++ String.ofList cs).utf8ByteSize := by
    rw [hlast, hstart, String.utf8ByteSize_append, utf8ByteSize_ofList]
  have hplace : Boundary css t.last := h.standsIn.last.1.2
  have hslice := slice_rest (front ++ String.ofList cs) (String.ofList [c] ++ rest)
  rw [← hparts, ← hsize] at hslice
  rw [stopBehind, position_eq hplace, ok_bind, hslice, ok_bind, Outline.stopAt, hstop, hlast]
  simp only [String.toList_append, String.toList_ofList, List.cons_append, List.head?_cons,
    Option.map_some, Option.getD_some]
  rfl

theorem refuse_about (h : t.From css) (reason : Reason) :
    (refuse css (.about reason t) : Careful α) = .error (.issue (.about reason t)) := by
  refine refuse_eq h.standsIn.start_boundary fun stop hstop => ?_
  cases hstop
  exact h.standsIn.stop_boundary

theorem refuseUnknown_cons (h : t.From css) :
    (refuseUnknown css (t :: ts) : Careful α) = .error (.issue (.about .unknownWord t)) :=
  refuse_about h _

/-! ### Ends of lists of tokens -/

/-- Tokens without those at their end that pass the test, and the text of these. -/
def cutEnd (css : String) (p : Token → Bool) (ts : List Token) :
    Careful (List Token × String) := do
  let split := ts.length - ts.reverse.findIdx fun t => !p t
  let tail ← joined css (← behind ts split)
  return (ts.take split, tail)

/-- The text of the gaps in front, and the other tokens. -/
def cutStart (css : String) (ts : List Token) : Careful (String × List Token) := do
  let split := ts.findIdx fun t => !t.isGap
  let head ← joined css (← upTo ts split)
  return (head, ← behind ts split)

theorem cutEnd_eq (h : ∀ t ∈ ts, t.From css) (p : Token → Bool) :
    cutEnd css p ts = .ok ((ts.reverse.dropWhile p).reverse,
      Token.join (ts.reverse.takeWhile p).reverse) := by
  rw [List.takeWhile_eq_take_findIdx_not, List.dropWhile_eq_drop_findIdx_not, List.take_reverse,
    List.drop_reverse, List.reverse_reverse, List.reverse_reverse, cutEnd, behind,
    if_pos (Nat.sub_le _ _), ok_bind, joined_eq fun t ht => h t (List.mem_of_mem_drop ht)]
  rfl

theorem cutStart_eq (h : ∀ t ∈ ts, t.From css) :
    cutStart css ts = .ok (Token.join (ts.takeWhile Token.isGap), ts.dropWhile Token.isGap) := by
  have hle : (ts.findIdx fun t => !t.isGap) ≤ ts.length := List.findIdx_le_length
  rw [List.takeWhile_eq_take_findIdx_not, List.dropWhile_eq_drop_findIdx_not, cutStart, upTo,
    if_pos hle, ok_bind, joined_eq fun t ht => h t (List.mem_of_mem_take ht), ok_bind, behind,
    if_pos hle]
  rfl

/-! ### Fields -/

/-- The kind of the token in front of an index. -/
def kindBefore (ts : List Token) : Nat → Careful (Option TokenKind)
  | 0 => .ok none
  | i + 1 => (item ts i).map fun t => some t.kind

/-- Takes over the tokens from index `i` on behind `value`. -/
def fieldFrom (css : String) (custom : Bool) (ts : List Token) (i : Nat) (value : String)
    (clean : Bool) : List Token → Careful (String × Bool)
  | [] => return (value, clean)
  | t :: rest =>
    if t.kind == .space && i == ts.length - 1 && !custom then
      fieldFrom css custom ts (i + 1) value false rest
    else if t.kind == .comment then do
      let prev ← kindBefore ts i
      let next := ts[i + 1]?.map Token.kind
      if isLoose prev || isLoose next || value.toList.getLast? == some ',' then
        fieldFrom css custom ts (i + 1) value false rest
      else
        let text ← textOf css t
        fieldFrom css custom ts (i + 1) (value ++ text) clean rest
    else do
      let text ← textOf css t
      fieldFrom css custom ts (i + 1) (value ++ text) clean rest

/-- The field that tokens say, and their text when something was left out. -/
def field (css : String) (custom : Bool) (ts : List Token) :
    Careful (String × Option RawValue) := do
  let (value, clean) ← fieldFrom css custom ts 0 "" true ts
  let raw ← joined css ts
  return (value, if clean then none else some ⟨value, raw⟩)

theorem kindBefore_append (front ts : List Token) :
    kindBefore (front ++ ts) front.length = .ok (front.getLast?.map Token.kind) := by
  rcases List.eq_nil_or_concat front with rfl | ⟨as, a, rfl⟩
  · rfl
  · rw [List.concat_eq_append, List.length_append, List.getLast?_concat, List.append_assoc]
    show (item (as ++ a :: ts) as.length).map _ = _
    rw [item_append]
    rfl

theorem fieldFrom_eq {custom : Bool} (front : List Token) {value : String} {clean : Bool}
    (h : ∀ t ∈ ts, t.From css) :
    fieldFrom css custom (front ++ ts) front.length value clean ts =
      .ok (cleanFrom custom (front.getLast?.map Token.kind) value clean ts) := by
  induction ts generalizing front value clean with
  | nil => rfl
  | cons t ts ih =>
    obtain ⟨ht, hts⟩ := List.forall_mem_cons.mp h
    have hnext : ∀ {value clean}, fieldFrom css custom (front ++ t :: ts) (front.length + 1) value
        clean ts = .ok (cleanFrom custom (some t.kind) value clean ts) := by
      intro value clean
      have hih : fieldFrom css custom _ _ value clean ts = _ := ih (front ++ [t]) hts
      rw [List.append_assoc, List.length_append, List.getLast?_concat] at hih
      exact hih
    -- The checks of the index are questions about what follows.
    have hlast : (front.length == (front ++ t :: ts).length - 1) = ts.isEmpty := by
      cases ts <;> simp
    have hhead : (front ++ t :: ts)[front.length + 1]? = ts.head? := by
      rw [List.getElem?_append_right (Nat.le_add_right _ _), Nat.add_sub_cancel_left,
        List.getElem?_cons_succ, List.head?_eq_getElem?]
    rw [fieldFrom, cleanFrom.eq_def]
    dsimp only
    rw [hlast, hhead, kindBefore_append, ok_bind, textOf_eq ht, ok_bind, hnext, hnext]
    by_cases hspace : (t.kind == .space && ts.isEmpty && !custom) = true
    · rw [if_pos hspace, if_pos hspace]
      simp only [Bool.and_eq_true, List.isEmpty_iff] at hspace
      rw [hspace.1.2, cleanFrom]
    · rw [if_neg hspace, if_neg hspace]
      cases t.kind == .comment with
      | true => rw [if_pos rfl, Bool.true_and]; split <;> rfl
      | false => rfl

theorem field_eq {custom : Bool} (h : ∀ t ∈ ts, t.From css) :
    field css custom ts = .ok (cleanField custom ts) := by
  have hfrom : fieldFrom css custom ts 0 "" true ts = .ok (cleanFrom custom none "" true ts) :=
    fieldFrom_eq [] h
  rw [field, cleanField, hfrom, ok_bind, joined_eq h]
  rfl

end Careful

end Stylesheet
