import Stylesheet.Proofs.Draft.Basic
import Stylesheet.Statement.Outline

/-!
# The text of an outline

What was read so far can be printed at any time (`Outline.text`): the blocks around the current one
up to the place where it stands, the current block, and the formatting that belongs to nothing yet.

A child of a block is printed with a semicolon as soon as another child follows, so a child that
ended without one must be the last. An outline is settled (`Outline.Settled`) when its last child
may be followed by another one.

* `Outline.Proper` is what holds of the open blocks: formatting is captured up to the opening brace
  and not behind it, and the outermost block is the root.
* `Outline.text_add`, `text_addComment`, `text_openBlock` and `close_eq_ok` say what the ways to
  extend an outline add to its text.
-/

namespace Stylesheet

/-! ### Open blocks -/

namespace Frame

/-- The text of an open block. -/
def text (closesLast : Bool) (f : Frame) : String :=
  f.detail.before ++ f.detail.heading ++ Draft.textAll closesLast f.kids.reverse

/-- A draft can stand in a block: all of its formatting is captured, and it is no root. -/
structure Takes (b : Draft) : Prop where
  captured : b.Every Detail.Captured
  before : b.label.raws.before.isSome = true
  kind : b.label.kind ≠ .root

/-- An open block: nothing is captured yet that comes behind the opening brace. -/
structure Proper (f : Frame) : Prop where
  block : f.detail.block = true
  canOwn : f.detail.kind.canOwn = true
  after : f.detail.raws.after = none
  ownSemicolon : f.detail.raws.ownSemicolon = none
  semicolon : f.detail.raws.semicolon = none
  before : f.detail.kind ≠ .root → f.detail.raws.before.isSome = true
  between : f.detail.kind ≠ .root → f.detail.raws.between.isSome = true
  kids : ∀ b ∈ f.kids, Takes b

theorem Proper.isLeaf {f : Frame} (h : f.Proper) : f.detail.isLeaf = false := by
  have hcan := h.canOwn
  have hkind : f.detail.kind = f.detail.content.kind := rfl
  rw [hkind] at hcan
  unfold Detail.isLeaf
  cases hc : f.detail.content with
  | root => rfl
  | rule selector => rfl
  | atRule name params => rw [h.block]; rfl
  | declaration prop value important => rw [hc] at hcan; cases hcan
  | comment text => rw [hc] at hcan; cases hcan

theorem Proper.add {f : Frame} (h : f.Proper) {b : Draft} (hb : Takes b) :
    Proper { f with kids := b :: f.kids } :=
  { h with
    kids := fun c hc => by
      rcases List.mem_cons.mp hc with rfl | hc
      · exact hb
      · exact h.kids c hc }

end Frame

namespace Outline

/-- The text of the blocks around the current one. -/
def around : List Frame → String
  | [] => ""
  | f :: fs => around fs ++ f.text true

/-- The text that was read. -/
def text (o : Outline) : String :=
  around o.parents ++ o.current.text o.semicolon ++ o.spaces

/-- All open blocks are proper, and the root is the outermost one. -/
def Stacked (f : Frame) : List Frame → Prop
  | [] => f.Proper ∧ f.detail.kind = .root ∧ f.detail.raws.before = none
  | g :: gs => f.Proper ∧ f.detail.kind ≠ .root ∧ Stacked g gs

/-- The open blocks of the outline are in order. -/
def Proper (o : Outline) : Prop :=
  Stacked o.current o.parents

/-- The last child may be followed by another one. -/
def Settled (o : Outline) : Prop :=
  Draft.textAll o.semicolon o.current.kids.reverse = Draft.textAll true o.current.kids.reverse

theorem Stacked.proper {f : Frame} {fs : List Frame} (h : Stacked f fs) : f.Proper := by
  cases fs with
  | nil => exact h.1
  | cons g gs => exact h.1

theorem Stacked.with_kids {f : Frame} {fs : List Frame} (h : Stacked f fs)
    {kids : List (Branch Detail)} (hkids : ∀ b ∈ kids, Frame.Takes b) :
    Stacked { f with kids } fs := by
  cases fs with
  | nil => exact ⟨{ h.1 with kids := hkids }, h.2⟩
  | cons g gs => exact ⟨{ h.1 with kids := hkids }, h.2⟩

theorem Proper.add {o : Outline} (h : o.Proper) {b : Draft} (hb : Frame.Takes b)
    (semicolon : Bool) : (o.add b semicolon).Proper :=
  Stacked.with_kids h (h.proper.add hb).kids

/-! ### More children -/

/-- One more child that is no comment. -/
theorem text_add {o : Outline} (hset : o.Settled) {b : Draft} (hb : Draft.isComment b = false)
    (semicolon : Bool) {s : String}
    (hs : b.label.before ++ Draft.text semicolon b = o.spaces ++ s) :
    (o.add b semicolon).text = o.text ++ s := by
  show around o.parents ++ (o.current.detail.before ++ o.current.detail.heading ++
      Draft.textAll semicolon (b :: o.current.kids).reverse) ++ "" = o.text ++ s
  rw [List.reverse_cons, Draft.textAll_concat semicolon _ hb, ← hset, text, Frame.text]
  simp only [String.append_assoc, String.append_empty, hs]

/-- One more comment. -/
theorem text_addComment {o : Outline} {b : Draft} (hb : Draft.isComment b = true) {s : String}
    (hs : b.label.before ++ Draft.text false b = o.spaces ++ s) :
    (o.add b o.semicolon).text = o.text ++ s := by
  show around o.parents ++ (o.current.detail.before ++ o.current.detail.heading ++
      Draft.textAll o.semicolon (b :: o.current.kids).reverse) ++ "" = o.text ++ s
  rw [List.reverse_cons, Draft.textAll_concat_comment o.semicolon _ hb false, text, Frame.text]
  simp only [String.append_assoc, String.append_empty, hs]

theorem settled_add_closed (o : Outline) (b : Draft) : (o.add b true).Settled :=
  rfl

theorem Settled.addComment {o : Outline} (hset : o.Settled) {b : Draft}
    (hb : Draft.isComment b = true) : (o.add b o.semicolon).Settled := by
  show Draft.textAll o.semicolon (b :: o.current.kids).reverse =
    Draft.textAll true (b :: o.current.kids).reverse
  rw [List.reverse_cons, Draft.textAll_concat_comment _ _ hb false,
    Draft.textAll_concat_comment _ _ hb false, hset]

/-- Behind a child that has a block, another one may follow. -/
theorem settled_of_isLeaf_false {o : Outline} {b : Draft} {bs : List Draft}
    (hkids : o.current.kids = b :: bs) (hb : b.label.isLeaf = false) : o.Settled := by
  have hcomment := Draft.isComment_of_isLeaf_false hb
  rw [Settled, hkids, List.reverse_cons, Draft.textAll_concat _ _ hcomment,
    Draft.textAll_concat _ _ hcomment, Draft.text_eq_of_isLeaf_false hb o.semicolon true]

/-! ### Blocks -/

/-- A block that opens. -/
theorem text_openBlock {o : Outline} (hset : o.Settled) {d : Detail} {s : String}
    (hs : d.before ++ d.heading = o.spaces ++ s) : (o.openBlock d).text = o.text ++ s := by
  show around o.parents ++ o.current.text true ++ (d.before ++ d.heading ++ "") ++ "" = o.text ++ s
  rw [Frame.text, ← hset, text, Frame.text]
  simp only [String.append_assoc, String.append_empty, hs]

theorem settled_openBlock (o : Outline) (d : Detail) : (o.openBlock d).Settled :=
  rfl

theorem Proper.openBlock {o : Outline} (h : o.Proper) {d : Detail}
    (hd : Frame.Proper { detail := { d with block := true } }) (hkind : d.kind ≠ .root) :
    (o.openBlock d).Proper :=
  ⟨hd, hkind, h⟩

/-- What the end of a block captures. -/
theorem captured_sealed {o : Outline} (h : o.current.Proper) (stop : Position) :
    (withStop o.sealed stop).Captured o.current.kids.reverse where
  block _ := h.block
  canOwn _ := h.canOwn
  nested b hb := (h.kids b (List.mem_reverse.mp hb)).kind
  before b hb := (h.kids b (List.mem_reverse.mp hb)).before
  between hkind := by
    refine h.between fun hroot => ?_
    change o.current.detail.kind = .rule ∨ o.current.detail.kind = .declaration ∨
      o.current.detail.kind = .atRule ∧ _ at hkind
    rw [hroot] at hkind
    rcases hkind with h | h | ⟨h, -⟩ <;> cases h
  after _ := rfl
  semicolon _ := by
    show (if o.current.kids.isEmpty then o.current.detail.raws.semicolon
      else some o.semicolon).isSome = !o.current.kids.reverse.isEmpty
    rw [h.semicolon, List.isEmpty_reverse]
    cases o.current.kids.isEmpty <;> rfl
  -- A comment is never open.
  marks hkind := by
    have hcan := h.canOwn
    rw [show o.current.detail.kind = .comment from hkind] at hcan
    cases hcan

/-- The text of the current block, when it ends here. -/
theorem text_sealed {o : Outline} (h : o.current.Proper) (closed : Bool) (stop : Position) :
    Draft.text closed (.node (withStop o.sealed stop) o.current.kids.reverse) =
      o.current.detail.heading ++ Draft.textAll o.semicolon o.current.kids.reverse ++
        o.sealed.ending := by
  have hleaf : (withStop o.sealed stop).isLeaf = false := h.isLeaf
  have hsemicolon : Draft.textAll ((withStop o.sealed stop).raws.semicolon.getD false)
      o.current.kids.reverse = Draft.textAll o.semicolon o.current.kids.reverse := by
    show Draft.textAll ((if o.current.kids.isEmpty then o.current.detail.raws.semicolon
      else some o.semicolon).getD false) _ = _
    cases hkids : o.current.kids with
    | nil => rfl
    | cons b bs => rfl
  rw [Draft.text, hleaf, if_neg Bool.false_ne_true, hsemicolon]
  rfl

theorem ending_sealed_of_root {o : Outline} (h : o.current.Proper)
    (hkind : o.current.detail.kind = .root) : o.sealed.ending = o.spaces := by
  have hafter : o.sealed.raws.after = some (o.current.detail.raws.after.getD "" ++ o.spaces) := rfl
  rw [Detail.ending_of_root (show o.sealed.kind = .root from hkind), hafter, h.after]
  exact String.empty_append

theorem ending_sealed_of_ne_root {o : Outline} (h : o.current.Proper)
    (hkind : o.current.detail.kind ≠ .root) : o.sealed.ending = o.spaces ++ "\x7d" := by
  have hafter : o.sealed.raws.after = some (o.current.detail.raws.after.getD "" ++ o.spaces) := rfl
  have hown : o.sealed.raws.ownSemicolon = none := h.ownSemicolon
  have hcan : o.sealed.content.kind.canOwn = true := h.canOwn
  unfold Detail.ending
  rw [hafter, h.after, hown]
  cases hc : o.sealed.content with
  | root => exact absurd (by rw [Detail.kind]; exact congrArg Content.kind hc) hkind
  | rule selector => simp
  | atRule name params => simp
  | declaration prop value important => rw [hc] at hcan; cases hcan
  | comment text => rw [hc] at hcan; cases hcan

/-- The current block becomes a child of the block around it. -/
theorem takes_sealed {o : Outline} (h : o.current.Proper) (hkind : o.current.detail.kind ≠ .root)
    (stop : Position) : Frame.Takes (.node (withStop o.sealed stop) o.current.kids.reverse) where
  captured := .node (captured_sealed h stop) fun b hb =>
    (h.kids b (List.mem_reverse.mp hb)).captured
  before := h.before hkind
  kind := hkind

/-- A block that closes becomes a child of the block around it. -/
theorem exists_of_close {o o' : Outline} {locate : Nat → Position} {t : Token}
    (h : o.close locate t = .ok o') :
    ∃ parent parents, o.parents = parent :: parents ∧
      o' = {
        current := { parent with
          kids :=
            .node (withStop o.sealed (stopAt locate t)) o.current.kids.reverse :: parent.kids }
        parents } := by
  rw [close] at h
  cases hparents : o.parents with
  | nil => rw [hparents] at h; cases h
  | cons parent parents =>
    rw [hparents] at h
    cases h
    exact ⟨parent, parents, rfl, rfl⟩

/-- A semicolon that ends nothing stays with the white space, or goes to the rule in front of it. -/
theorem freeSemicolon_cases (o : Outline) (locate : Nat → Position) (t : Token) :
    o.freeSemicolon locate t = { o with spaces := o.spaces ++ t.text } ∨
      ∃ d kids more, o.current.kids = .node d kids :: more ∧ d.kind = .rule ∧
        d.raws.ownSemicolon.getD "" = "" ∧
        o.freeSemicolon locate t = { o with
          current := { o.current with
            kids := .node (withStop
              { d with raws := { d.raws with ownSemicolon := some (o.spaces ++ t.text) } }
              { locate t.start with
                offset := (locate t.start).offset + (o.spaces ++ t.text).utf8ByteSize }) kids ::
              more }
          spaces := "" } := by
  rw [freeSemicolon]
  cases o.current.kids with
  | nil => exact Or.inl rfl
  | cons b more =>
    obtain ⟨d, kids⟩ := b
    dsimp only
    split_ifs with hrule
    · rw [Bool.and_eq_true, beq_iff_eq, String.isEmpty_iff] at hrule
      exact Or.inr ⟨d, kids, more, rfl, hrule.1, hrule.2, rfl⟩
    · exact Or.inl rfl

/-- A block that closes. -/
theorem close_eq_ok {o o' : Outline} {locate : Nat → Position} {t : Token} (h : o.Proper)
    (ht : t.text = "\x7d") (hclose : o.close locate t = .ok o') :
    o'.Proper ∧ o'.Settled ∧ o'.text = o.text ++ t.text := by
  obtain ⟨parent, parents, hparents, rfl⟩ := exists_of_close hclose
  rw [Proper, hparents] at h
  obtain ⟨hproper, hkind, hstack⟩ := h
  have htakes := takes_sealed hproper hkind (stopAt locate t)
  have hleaf : (Branch.node (withStop o.sealed (stopAt locate t))
      o.current.kids.reverse).label.isLeaf = false := hproper.isLeaf
  refine ⟨hstack.with_kids (hstack.proper.add htakes).kids, settled_of_isLeaf_false rfl hleaf, ?_⟩
  show around parents ++ (parent.detail.before ++ parent.detail.heading ++ Draft.textAll false
    (.node (withStop o.sealed (stopAt locate t)) o.current.kids.reverse ::
      parent.kids).reverse) ++ "" = o.text ++ t.text
  rw [List.reverse_cons, Draft.textAll_concat _ _ (Draft.isComment_of_isLeaf_false hleaf),
    text_sealed hproper, ending_sealed_of_ne_root hproper hkind, text, hparents, around,
    Frame.text, Frame.text, ht]
  simp only [String.append_assoc, String.append_empty]
  rfl

end Outline

end Stylesheet
