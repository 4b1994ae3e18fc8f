import Stylesheet.Proofs.Draft.Basic
import Stylesheet.Proofs.Usual.Forms

/-!
# Plain stylesheets in the usual style

What the nodes of a plain stylesheet say is made of words and phrases (`Content.Plain`). In the
usual style every node stands on a line of its own, indented by its depth; `Form.spell` gives the
forms of a node with all that is below it. They fit (`Form.fit_spell`), so that the lexer gives them
back.
-/

namespace Stylesheet

open Text

/-- What a node below the root says is made of words and phrases. -/
def Content.Plain : Content → Prop
  | .root => False
  | .rule selector => IsPhrase selector
  | .atRule name params => IsWord name ∧ (params = "" ∨ IsPhrase params)
  | .declaration prop value _ => IsWord prop ∧ IsPhrase value
  | .comment text => text = "" ∨ IsPhrase text

/-- All nodes are plain, and only those that can have a block have nodes below them. -/
def Branch.Plain (b : Branch Content) : Prop :=
  b.Every fun content kids => content.Plain ∧ (content.kind.canOwn = false → kids = [])

namespace Form

/-! ### The forms of a node -/

/-- Words, each behind a blank. -/
def trail (ws : List String) : List Form :=
  ws.flatMap fun w => [blank, word w]

/-- The words of a phrase, with blanks between them. -/
def phrase (s : String) : List Form :=
  (trail (words s)).tail

/-- The mark of importance, as a word. -/
def mark (important : Bool) : List String :=
  if important then ["!important"] else []

/-- Blanks, when there are any. -/
def gap (s : String) : List Form :=
  if s = "" then [] else [⟨.space, s⟩]

/-- A declaration with blanks on both sides of its colon. -/
def separated (prop front back value : String) (important closed : Bool) : List Form :=
  word prop :: (gap front ++ colon ::
    (gap back ++ (phrase value ++ (trail (mark important) ++ if closed then [semicolon] else []))))

/-- The end of a block. -/
def ending (depth : Nat) (isEmpty : Bool) : List Form :=
  if isEmpty then [closeCurly] else [lineBreak depth, closeCurly]

/-- Whether the node on top is a comment. -/
def isComment (b : Branch Content) : Bool :=
  b.label.kind == .comment

mutual

/-- The forms of a node at a depth, with all that is below it. A declaration may be closed by a
semicolon. -/
def spell (depth : Nat) (closed : Bool) : Branch Content → List Form
  | .node content kids =>
    let block :=
      blank :: openCurly :: (spellAll (depth + 1) kids ++ ending depth kids.isEmpty)
    match content with
    | .root => []
    | .rule selector => phrase selector ++ block
    | .atRule name params => atWord name :: (trail (words params) ++ block)
    | .declaration prop value important =>
      word prop :: colon ::
        (trail (words value ++ mark important) ++ if closed then [semicolon] else [])
    | .comment text => [comment text]

/-- The forms of the nodes of a block, each on a line of its own. A declaration is closed when a
node follows that is no comment. -/
def spellAll (depth : Nat) : List (Branch Content) → List Form
  | [] => []
  | b :: bs =>
    lineBreak depth :: (spell depth (bs.any fun b => !isComment b) b ++ spellAll depth bs)

end

/-! ### Words that follow each other -/

theorem join_trail (ws : List String) : join (trail ws) = behindBlanks ws := by
  induction ws with
  | nil => rfl
  | cons w ws ih =>
    rw [behindBlanks_cons, ← ih, String.append_assoc]
    simp [trail, blank, word]

theorem trail_cons (w : String) (ws : List String) :
    trail (w :: ws) = blank :: word w :: trail ws :=
  rfl

theorem isSpelled_mark (important : Bool) : ∀ w ∈ mark important, IsSpelled w := by
  intro w hw
  cases important with
  | false => cases hw
  | true => exact Or.inr (List.mem_singleton.mp hw)

theorem endsWord_of_isSpace (c : Char) (hc : isSpace c = true) : endsWord c = true := by
  rw [endsWord, hc]
  rfl

theorem startsWith_blank (fs : List Form) : StartsWith isSpace (blank :: fs) :=
  .cons fs ' ' [] rfl rfl

theorem startsWith_lineBreak (depth : Nat) (fs : List Form) :
    StartsWith isSpace (lineBreak depth :: fs) := by
  obtain ⟨cs, htext, -⟩ := toList_lineBreak depth
  exact .cons fs _ _ htext rfl

theorem startsWith_trail {p : Char → Bool} (hp : p ' ' = true) (ws : List String) {fs : List Form}
    (hfs : StartsWith p fs) : StartsWith p (trail ws ++ fs) := by
  cases ws with
  | nil => exact hfs
  | cons w ws => exact .cons _ ' ' [] rfl hp

theorem startsWith_word {w : String} (hw : IsSpelled w) (fs : List Form) :
    StartsWith (fun c => !isSpace c) (word w :: fs) := by
  obtain ⟨c, cs, htext, hc, -⟩ := hw.exists_cons
  refine .cons fs c cs htext ?_
  rcases hc with hc | rfl
  · simp [isSpace_of_isAlphanum hc]
  · rfl

theorem fit_trail {ws : List String} (hws : ∀ w ∈ ws, IsSpelled w) {fs : List Form} (hfs : Fit fs)
    (hstart : StartsWith endsWord fs) : Fit (trail ws ++ fs) := by
  induction ws with
  | nil => exact hfs
  | cons w ws ih =>
    rw [List.forall_mem_cons] at hws
    refine ⟨fits_blank (startsWith_word hws.1 _), fits_word hws.1 ?_, ih hws.2⟩
    exact startsWith_trail rfl ws hstart

/-- A phrase is words, the first without a blank in front. -/
theorem fit_phrase {s : String} (hs : IsPhrase s) {fs : List Form} (hfs : Fit fs)
    (hstart : StartsWith endsWord fs) :
    Fit (phrase s ++ fs) ∧ StartsWith (fun c => !isSpace c) (phrase s ++ fs) := by
  obtain ⟨w, ws, hwords, hws, -⟩ := hs.exists_words
  have hspelled : ∀ v ∈ w :: ws, IsSpelled v := fun v hv => Or.inl (hws v hv)
  have hfit := fit_trail hspelled hfs hstart
  rw [trail_cons] at hfit
  rw [phrase, hwords, trail_cons, List.tail_cons]
  exact ⟨hfit.2, startsWith_word (hspelled w List.mem_cons_self) _⟩

theorem isSpelled_words {s : String} (hs : s = "" ∨ IsPhrase s) : ∀ w ∈ words s, IsSpelled w := by
  rcases hs with rfl | hs
  · intro w hw
    cases hw
  · obtain ⟨w, ws, hwords, hws, -⟩ := hs.exists_words
    rw [hwords]
    exact fun v hv => Or.inl (hws v hv)

/-! ### Declarations -/

theorem trail_append (vs ws : List String) : trail (vs ++ ws) = trail vs ++ trail ws :=
  List.flatMap_append

/-- In the usual style the colon has a blank behind it. -/
theorem separated_usual {value : String} (hvalue : IsPhrase value) (prop : String)
    (important closed : Bool) :
    separated prop "" " " value important closed = word prop :: colon ::
      (trail (words value ++ mark important) ++ if closed then [semicolon] else []) := by
  obtain ⟨w, ws, hwords, -, -⟩ := hvalue.exists_words
  rw [trail_append, separated, phrase, hwords, trail_cons]
  simp [gap, blank]

theorem fit_gap {s : String} (hs : ∀ c ∈ s.toList, isSpace c = true) {fs : List Form}
    (hfs : Fit fs) (hstart : StartsWith (fun c => !isSpace c) fs) : Fit (gap s ++ fs) := by
  rw [gap]
  split_ifs with hempty
  · exact hfs
  · exact ⟨fits_space hempty hs hstart, hfs⟩

theorem startsWith_gap {p : Char → Bool} (hp : ∀ c, isSpace c = true → p c = true) {s : String}
    (hs : ∀ c ∈ s.toList, isSpace c = true) {fs : List Form} (hfs : StartsWith p fs) :
    StartsWith p (gap s ++ fs) := by
  rw [gap]
  split_ifs with hempty
  · exact hfs
  · cases htext : s.toList with
    | nil => exact absurd (String.toList_inj.mp htext) hempty
    | cons c cs => exact .cons fs c cs htext (hp c (hs c (by rw [htext]; exact List.mem_cons_self)))

/-- A declaration fits in front of white space and at the end, whatever blanks are around its
colon. -/
theorem fit_separated {prop front back value : String} (hprop : IsWord prop)
    (hfront : ∀ c ∈ front.toList, isSpace c = true) (hback : ∀ c ∈ back.toList, isSpace c = true)
    (hvalue : IsPhrase value) (important closed : Bool) {rest : List Form} (hrest : Fit rest)
    (hstart : StartsWith isSpace rest) :
    Fit (separated prop front back value important closed ++ rest) := by
  have hend : Fit ((if closed then [semicolon] else []) ++ rest) ∧
      StartsWith endsWord ((if closed then [semicolon] else []) ++ rest) := by
    cases closed with
    | true => exact ⟨⟨fits_semicolon _, hrest⟩, .cons _ ';' [] rfl rfl⟩
    | false => exact ⟨hrest, hstart.mono endsWord_of_isSpace⟩
  have hmark := fit_trail (isSpelled_mark important) hend.1 hend.2
  obtain ⟨hfit, hword⟩ := fit_phrase hvalue hmark (startsWith_trail rfl _ hend.2)
  have hcolon : Fit (colon :: (gap back ++ (phrase value ++
      (trail (mark important) ++ ((if closed then [semicolon] else []) ++ rest))))) :=
    ⟨fits_colon _, fit_gap hback hfit hword⟩
  have hfits := fit_gap hfront hcolon (.cons _ ':' [] rfl rfl)
  simp only [separated, List.cons_append, List.append_assoc]
  refine ⟨fits_word (Or.inl hprop) ?_, hfits⟩
  exact startsWith_gap endsWord_of_isSpace hfront (.cons _ ':' [] rfl rfl)

theorem join_gap (s : String) : join (gap s) = s := by
  rw [gap]
  split_ifs with hempty
  · rw [hempty, join_nil]
  · rw [join_cons, join_nil, String.append_empty]

/-! ### Nodes -/

theorem fit_ending (depth : Nat) (isEmpty : Bool) {rest : List Form} (hrest : Fit rest) :
    Fit (ending depth isEmpty ++ rest) := by
  have hclose : Fit (closeCurly :: rest) := ⟨fits_closeCurly _, hrest⟩
  cases isEmpty with
  | true => exact hclose
  | false =>
    exact ⟨fits_lineBreak depth (.cons rest '}' [] rfl rfl), hclose⟩

theorem not_mem_of_plain {text : String} (h : text = "" ∨ IsPhrase text) {c : Char}
    (hblank : c ≠ ' ') (hc : c.isAlphanum = false) : c ∉ text.toList := by
  rcases h with rfl | h
  · exact List.not_mem_nil
  · intro hmem
    rcases h.mem hmem with rfl | halnum
    · exact hblank rfl
    · exact ne_of_isAlphanum halnum hc rfl

mutual

/-- The forms of a node fit in front of white space and at the end, and start with none. -/
theorem fit_spell (depth : Nat) (closed : Bool) : ∀ b : Branch Content, b.Plain →
    ∀ {rest : List Form}, Fit rest → StartsWith isSpace rest →
      Fit (spell depth closed b ++ rest) ∧
        StartsWith (fun c => !isSpace c) (spell depth closed b ++ rest)
  | .node content kids, hplain, rest, hrest, hstart => by
    -- Rules and at-rules share the block; it is where the recursion goes down.
    have hblock : Fit (blank :: openCurly ::
        (spellAll (depth + 1) kids ++ ending depth kids.isEmpty) ++ rest) := by
      have hkids := fit_spellAll (depth + 1) kids hplain.rest
        (fit_ending depth kids.isEmpty hrest) fun hne => by
          rw [ending, if_neg (by simpa using hne)]
          exact startsWith_lineBreak depth _
      rw [List.cons_append, List.cons_append, List.append_assoc]
      exact ⟨fits_blank (.cons _ '{' [] rfl rfl), fits_openCurly _, hkids⟩
    have htop := hplain.top.1
    cases content with
    | root => cases htop
    | rule selector =>
      rw [spell, List.append_assoc]
      exact fit_phrase htop hblock ((startsWith_blank _).mono endsWord_of_isSpace)
    | atRule name params =>
      rw [spell, List.cons_append, List.append_assoc]
      refine ⟨⟨fits_atWord htop.1 ?_, ?_⟩, .cons _ '@' name.toList ?_ rfl⟩
      · exact startsWith_trail rfl _ (startsWith_blank _)
      · exact fit_trail (isSpelled_words htop.2) hblock
          ((startsWith_blank _).mono endsWord_of_isSpace)
      · simp [atWord]
    | declaration prop value important =>
      rw [spell, ← separated_usual htop.2]
      refine ⟨?_, startsWith_word (Or.inl htop.1) _⟩
      exact fit_separated htop.1 (fun c hc => absurd hc List.not_mem_nil)
        (List.all_eq_true.mp rfl) htop.2 important closed hrest hstart
    | comment text =>
      rw [spell, List.singleton_append]
      refine ⟨⟨fits_comment (not_mem_of_plain htop (by decide) (by decide)) _, hrest⟩, ?_⟩
      exact .cons _ '/' (('*' :: ' ' :: text.toList) ++ [' ', '*', '/'])
        (by simp [comment]) rfl

theorem fit_spellAll (depth : Nat) : ∀ bs : List (Branch Content), (∀ b ∈ bs, b.Plain) →
    ∀ {rest : List Form}, Fit rest → (bs ≠ [] → StartsWith isSpace rest) →
      Fit (spellAll depth bs ++ rest)
  | [], _, rest, hrest, _ => hrest
  | b :: bs, hplain, rest, hrest, hstart => by
    rw [List.forall_mem_cons] at hplain
    have hspace := hstart (List.cons_ne_nil b bs)
    have hnext : StartsWith isSpace (spellAll depth bs ++ rest) := by
      cases bs with
      | nil => exact hspace
      | cons c cs => exact startsWith_lineBreak depth _
    obtain ⟨hfit, hnode⟩ := fit_spell depth (bs.any fun b => !isComment b) b hplain.1
      (fit_spellAll depth bs hplain.2 hrest fun _ => hspace) hnext
    rw [spellAll, List.cons_append, List.append_assoc]
    exact ⟨fits_lineBreak depth hnode, hfit⟩

end

/-! ### Characters -/

/-- The characters that stand in a plain stylesheet in the usual style. -/
def isUsual (c : Char) : Bool :=
  c.isAlphanum || isSpace c || ":;\x7b\x7d@/*!".toList.contains c

/-- The form is made of such characters. -/
def Usual (f : Form) : Prop :=
  ∀ c ∈ f.text.toList, isUsual c = true

theorem isUsual_of_mem_join {fs : List Form} (hfs : ∀ f ∈ fs, f.Usual) :
    ∀ c ∈ (join fs).toList, isUsual c = true := by
  induction fs with
  | nil =>
    intro c hc
    cases hc
  | cons f fs ih =>
    rw [List.forall_mem_cons] at hfs
    intro c hc
    rw [join_cons, String.toList_append, List.mem_append] at hc
    exact hc.elim (hfs.1 c) (ih hfs.2 c)

theorem isUsual_of_isAlphanum {c : Char} (hc : c.isAlphanum = true) : isUsual c = true := by
  rw [isUsual, hc]
  rfl

theorem usual_of_all {f : Form} (h : f.text.toList.all isUsual = true) : f.Usual :=
  List.all_eq_true.mp h

theorem usual_word {w : String} (hw : IsSpelled w) : (word w).Usual := by
  obtain ⟨c, cs, htext, hc, hcs⟩ := hw.exists_cons
  rw [Usual, word, htext, List.forall_mem_cons]
  refine ⟨?_, fun d hd => isUsual_of_isAlphanum (hcs d hd)⟩
  rcases hc with hc | rfl
  · exact isUsual_of_isAlphanum hc
  · decide

theorem usual_atWord {name : String} (hname : IsWord name) : (atWord name).Usual := by
  intro c hc
  rw [atWord, String.toList_append, List.mem_append] at hc
  rcases hc with hc | hc
  · rw [List.mem_singleton.mp hc]
    decide
  · exact isUsual_of_isAlphanum (hname.2 c hc)

theorem usual_comment {text : String} (htext : text = "" ∨ IsPhrase text) :
    (comment text).Usual := by
  intro c hc
  rw [comment, String.toList_append, String.toList_append, List.mem_append, List.mem_append] at hc
  rcases hc with (hc | hc) | hc
  · exact List.all_eq_true.mp (by decide : "/* ".toList.all isUsual = true) c hc
  · rcases htext with rfl | htext
    · cases hc
    · rcases htext.mem hc with rfl | hc
      · decide
      · exact isUsual_of_isAlphanum hc
  · exact List.all_eq_true.mp (by decide : " */".toList.all isUsual = true) c hc

theorem usual_lineBreak (depth : Nat) : (lineBreak depth).Usual := by
  obtain ⟨cs, htext, hcs⟩ := toList_lineBreak depth
  rw [Usual, htext, List.forall_mem_cons]
  refine ⟨by decide, fun c hc => ?_⟩
  rw [isUsual, hcs c hc, Bool.or_true, Bool.true_or]

theorem usual_blank : blank.Usual :=
  usual_of_all (by decide)

theorem usual_trail {ws : List String} (hws : ∀ w ∈ ws, IsSpelled w) :
    ∀ f ∈ trail ws, f.Usual := by
  intro f hf
  rw [trail, List.mem_flatMap] at hf
  obtain ⟨w, hw, hf⟩ := hf
  rcases List.mem_cons.mp hf with rfl | hf
  · exact usual_blank
  · rw [List.mem_singleton.mp hf]
    exact usual_word (hws w hw)

theorem usual_ending (depth : Nat) (isEmpty : Bool) : ∀ f ∈ ending depth isEmpty, f.Usual := by
  have hclose : closeCurly.Usual := usual_of_all (by decide)
  cases isEmpty with
  | true => simpa [ending] using hclose
  | false => simpa [ending] using ⟨usual_lineBreak depth, hclose⟩

theorem usual_gap {s : String} (hs : ∀ c ∈ s.toList, isSpace c = true) :
    ∀ f ∈ gap s, f.Usual := by
  intro f hf c hc
  rw [gap] at hf
  split_ifs at hf
  · cases hf
  · obtain rfl := List.mem_singleton.mp hf
    rw [isUsual, hs c hc, Bool.or_true, Bool.true_or]

theorem usual_separated {prop front back value : String} (hprop : IsWord prop)
    (hfront : ∀ c ∈ front.toList, isSpace c = true) (hback : ∀ c ∈ back.toList, isSpace c = true)
    (hvalue : IsPhrase value) (important closed : Bool) :
    ∀ f ∈ separated prop front back value important closed, f.Usual := by
  have hcolon : colon.Usual := usual_of_all (by decide)
  have hend : ∀ f ∈ (if closed then [semicolon] else []), f.Usual := by
    have hsemicolon : semicolon.Usual := usual_of_all (by decide)
    cases closed with
    | true => simpa using hsemicolon
    | false => simp
  simp only [separated, List.forall_mem_cons, List.forall_mem_append]
  exact ⟨usual_word (Or.inl hprop), usual_gap hfront, hcolon, usual_gap hback,
    fun f hf => usual_trail (isSpelled_words (Or.inr hvalue)) f (List.mem_of_mem_tail hf),
    usual_trail (isSpelled_mark important), hend⟩

mutual

theorem usual_spell (depth : Nat) (closed : Bool) : ∀ b : Branch Content, b.Plain →
    ∀ f ∈ spell depth closed b, f.Usual
  | .node content kids, hplain => by
    have hopen : openCurly.Usual := usual_of_all (by decide)
    -- As for what fits: the block is shared.
    have hblock : ∀ f ∈ blank :: openCurly ::
        (spellAll (depth + 1) kids ++ ending depth kids.isEmpty), f.Usual := by
      rw [List.forall_mem_cons, List.forall_mem_cons, List.forall_mem_append]
      exact ⟨usual_blank, hopen, usual_spellAll (depth + 1) kids hplain.rest,
        usual_ending depth kids.isEmpty⟩
    have htop := hplain.top.1
    cases content with
    | root => cases htop
    | rule selector =>
      rw [spell, List.forall_mem_append]
      exact ⟨fun f hf => usual_trail (isSpelled_words (Or.inr htop)) f (List.mem_of_mem_tail hf),
        hblock⟩
    | atRule name params =>
      rw [spell, List.forall_mem_cons, List.forall_mem_append]
      exact ⟨usual_atWord htop.1, usual_trail (isSpelled_words htop.2), hblock⟩
    | declaration prop value important =>
      rw [spell, ← separated_usual htop.2]
      exact usual_separated htop.1 (fun c hc => absurd hc List.not_mem_nil)
        (List.all_eq_true.mp rfl) htop.2 important closed
    | comment text =>
      rw [spell, List.forall_mem_singleton]
      exact usual_comment htop

/-- A plain stylesheet is made of letters, digits, white space and a few marks. -/
theorem usual_spellAll (depth : Nat) : ∀ bs : List (Branch Content), (∀ b ∈ bs, b.Plain) →
    ∀ f ∈ spellAll depth bs, f.Usual
  | [], _ => by simp [spellAll]
  | b :: bs, hplain => by
    rw [List.forall_mem_cons] at hplain
    rw [spellAll, List.forall_mem_cons, List.forall_mem_append]
    exact ⟨usual_lineBreak depth, usual_spell depth _ b hplain.1,
      usual_spellAll depth bs hplain.2⟩

end

end Form

end Stylesheet
