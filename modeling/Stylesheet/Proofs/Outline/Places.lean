import Mathlib.Data.List.Basic
import Stylesheet.Proofs.Draft.Places
import Stylesheet.Proofs.Outline.Step

/-!
# Where the nodes of an outline were read

The nodes of an outline have their places in its text (`Outline.places`), and each of them was read
where it is printed (`Draft.Place.Read`). The one exception is a declaration with a mark of old
browsers: it was read from the mark on, which is printed as part of what stands in front of it.

Tokens that stand behind the text of the outline keep it so, statement by statement
(`Outline.step_read_of_settled` and `Outline.step_read_of_isTrailing`).
-/

namespace Stylesheet

open Draft (Place)

/-! ### Marks of old browsers -/

theorem cutHack_fst (prop : String) :
    (cutHack prop).1 =
      if prop.toList.head? = some '_' then "_" else if prop.toList.head? = some '*' then "*"
      else "" := by
  rw [cutHack]
  split
  · rename_i cs hcs
    rw [hcs, List.head?_cons, if_pos rfl]
  · rename_i cs hcs
    rw [hcs, List.head?_cons, if_neg (by decide), if_pos rfl]
  · rename_i hunder hstar
    rw [if_neg, if_neg]
    · intro hhead
      obtain ⟨cs, hcs⟩ := List.head?_eq_some_iff.mp hhead
      exact hstar cs hcs
    · intro hhead
      obtain ⟨cs, hcs⟩ := List.head?_eq_some_iff.mp hhead
      exact hunder cs hcs

/-- Whether there is a mark depends on the first character only. -/
theorem cutHack_append_fst {prop : String} (h : prop ≠ "") (more : String) :
    (cutHack (prop ++ more)).1 = (cutHack prop).1 := by
  have hne : prop.toList ≠ [] := fun hnil => h (String.toList_inj.mp hnil)
  rw [cutHack_fst, cutHack_fst, String.toList_append, List.head?_append_of_ne_nil _ hne]

/-- The tokens of a declaration up to the first one of its property, and the mark that is cut off
the property. -/
theorem readDeclaration_mark {custom : Bool} {ts : List Token} {parts : DeclarationParts}
    (h : readDeclaration custom ts = .ok parts) (hts : ∀ t ∈ ts, t.Spelled) :
    ∃ lead rest hack, lead ++ parts.first :: rest = ts ∧ parts.lead = Token.join lead ++ hack ∧
      hack ++ parts.prop ≠ "" ∧ (cutHack (hack ++ parts.prop)).1 = hack := by
  obtain ⟨lead, rest, body, between, hlead, -, hfront, hprop, -⟩ := readDeclaration_eq_ok h
  have hsplit := append_cutLead hlead
  -- The property has a token, which is not empty.
  have hproperty : Token.join ((parts.first :: rest).takeWhile fun t => !endsProperty t) ≠ "" := by
    have hword : endsProperty parts.first = false := by
      rw [endsProperty, Token.isGap, kind_of_cutLead hlead]
      rfl
    have hspelled : parts.first.Spelled := hts _ (by rw [← hsplit]; simp)
    rw [List.takeWhile_cons_of_pos (by rw [hword]; rfl), Token.join_cons]
    simp [hspelled.text_ne]
  refine ⟨lead, rest, _, hsplit, hfront, ?_, ?_⟩
  · rw [hprop, append_cutHack]
    exact hproperty
  · rw [hprop, append_cutHack]

namespace Draft.Place

variable {locate : Nat → Position}

/-- What holds of a node that was read at its place. In front of a declaration a mark may stand,
which its text starts with in what was read. -/
structure Read (locate : Nat → Position) (p : Place) : Prop where
  block : p.detail.content.opensBlock = true → p.detail.block = true
  starts : ∃ front hack, p.front = front ++ hack ∧
    p.detail.StartsAt locate front.utf8ByteSize ∧
    (p.detail.kind ≠ .declaration → hack = "") ∧
    (p.detail.kind = .declaration → hack ++ p.own ≠ "" ∧ (cutHack (hack ++ p.own)).1 = hack ∧
      ∃ lead, p.detail.before = lead ++ hack)

/-- A node that is no declaration was read from its place on. -/
theorem read_of_startsAt {front own : String} {d : Detail} (hkind : d.kind ≠ .declaration)
    (hblock : d.content.opensBlock = true → d.block = true)
    (hd : d.StartsAt locate front.utf8ByteSize) : Read locate ⟨front, d, own⟩ :=
  ⟨hblock, front, "", String.append_empty.symm, hd, fun _ => rfl, fun h => absurd h hkind⟩

/-- Neither the end of a node nor the formatting behind its start make a difference. -/
theorem Read.congr {p : Place} (h : p.Read locate) {d : Detail}
    (hcontent : d.content = p.detail.content) (hblock : d.block = p.detail.block)
    (hbefore : d.raws.before = p.detail.raws.before)
    (hstarts : ∀ offset, p.detail.StartsAt locate offset → d.StartsAt locate offset) :
    Read locate ⟨p.front, d, p.own⟩ := by
  have hkind : d.kind = p.detail.kind := congrArg Content.kind hcontent
  obtain ⟨front, hack, hfront, hstart, hno, hdecl⟩ := h.starts
  refine ⟨?_, front, hack, hfront, hstarts _ hstart, ?_, ?_⟩
  · show d.content.opensBlock = true → d.block = true
    rw [hcontent, hblock]
    exact h.block
  · show d.kind ≠ .declaration → _
    rw [hkind]
    exact hno
  · show d.kind = .declaration → _ ∧ _ ∧ ∃ lead, d.before = lead ++ hack
    rw [hkind, Detail.before, hbefore]
    exact hdecl

end Draft.Place

/-- A node keeps its start when it gets an end. -/
theorem Detail.StartsAt.withStop {locate : Nat → Position} {offset : Nat} {d : Detail}
    (h : d.StartsAt locate offset) (stop : Position) :
    (Outline.withStop d stop).StartsAt locate offset := by
  obtain ⟨_, hsource⟩ := h
  refine ⟨some stop, ?_⟩
  rw [Outline.withStop, hsource]
  rfl

/-! ### The places of an outline -/

/-- The places of an open block that is printed behind a text. -/
def Frame.places (front : String) (closesLast : Bool) (f : Frame) : List Place :=
  ⟨front ++ f.detail.before, f.detail, f.detail.heading⟩ ::
    Draft.placesAll (front ++ f.detail.before ++ f.detail.heading) closesLast f.kids.reverse

namespace Outline

variable {locate : Nat → Position}

/-- The places of the blocks around the current one. -/
def placesAround : List Frame → List Place
  | [] => []
  | f :: fs => placesAround fs ++ f.places (around fs) true

/-- The places of all nodes. -/
def places (o : Outline) : List Place :=
  placesAround o.parents ++ o.current.places (around o.parents) o.semicolon

/-- Every node was read at its place. -/
def Read (locate : Nat → Position) (o : Outline) : Prop :=
  ∀ p ∈ o.places, p.Read locate

/-- The text without the formatting that belongs to nothing yet. -/
def taken (o : Outline) : String :=
  around o.parents ++ o.current.text o.semicolon

/-- Behind a settled outline, the places stay when another child follows. -/
theorem Settled.places {o : Outline} (hset : o.Settled) (front : String) :
    o.current.places front o.semicolon = o.current.places front true := by
  rw [Frame.places, Frame.places, Draft.placesAll_eq_of_textAll_eq hset]

/-- One more child that is no comment. -/
theorem places_add {o : Outline} (hset : o.Settled) {b : Draft} (hb : Draft.isComment b = false)
    (semicolon : Bool) :
    (o.add b semicolon).places =
      o.places ++ Draft.places (o.taken ++ b.label.before) semicolon b := by
  rw [places, places, hset.places, taken, Frame.text, hset]
  show _ ++ Frame.places _ semicolon { o.current with kids := b :: o.current.kids } = _
  rw [Frame.places, Frame.places, List.reverse_cons, Draft.placesAll_concat _ _ _ hb]
  simp only [String.append_assoc, List.append_assoc, List.cons_append]
  rfl

/-- One more comment. -/
theorem places_addComment {o : Outline} {b : Draft} (hb : Draft.isComment b = true)
    (closed : Bool) :
    (o.add b o.semicolon).places =
      o.places ++ Draft.places (o.taken ++ b.label.before) closed b := by
  rw [places, places, taken, Frame.text]
  show _ ++ Frame.places _ o.semicolon { o.current with kids := b :: o.current.kids } = _
  rw [Frame.places, Frame.places, List.reverse_cons, Draft.placesAll_concat_comment _ _ _ hb closed]
  simp only [String.append_assoc, List.append_assoc, List.cons_append]
  rfl

/-- A block that opens. -/
theorem places_openBlock {o : Outline} (hset : o.Settled) (d : Detail) :
    (o.openBlock d).places =
      o.places ++ [⟨o.taken ++ d.before, { d with block := true }, d.heading⟩] := by
  rw [places, places, hset.places, taken, Frame.text, hset]
  rfl

/-! ### One more node -/

/-- A node without children is added. -/
theorem Read.addLeaf {o : Outline} (h : o.Read locate) (hset : o.Settled) {d : Detail}
    {lead : String} {closed : Bool} (hcomment : Draft.isComment (.node d []) = false)
    (hbefore : d.before = o.spaces ++ lead)
    (hd : Place.Read locate ⟨o.text ++ lead, d, d.own closed⟩) :
    (o.addLeaf d closed).Read locate := by
  intro p hp
  rw [Outline.addLeaf, places_add hset hcomment, List.mem_append] at hp
  rcases hp with hp | hp
  · exact h p hp
  · rw [Branch.label, hbefore, ← String.append_assoc, Draft.places, Draft.placesAll,
      List.mem_singleton] at hp
    rw [hp]
    exact hd

/-- A comment is added. -/
theorem Read.addComment {o : Outline} (h : o.Read locate) {t : Token}
    (ht : t.start = o.text.utf8ByteSize) :
    (o.addLeaf (o.commentDetail locate t) o.semicolon).Read locate := by
  have hcomment : Draft.isComment (.node (o.commentDetail locate t) []) = true := rfl
  intro p hp
  rw [Outline.addLeaf, places_addComment hcomment false, List.mem_append] at hp
  rcases hp with hp | hp
  · exact h p hp
  · rw [Draft.places, Draft.placesAll, List.mem_singleton] at hp
    rw [hp]
    refine Place.read_of_startsAt ?_ (fun h => by cases h) ⟨some (stopAt locate t), ?_⟩
    · exact NodeKind.noConfusion
    · show _ = some (Source.mk 0 (some (locate (o.taken ++ o.spaces).utf8ByteSize)) _)
      rw [show o.taken ++ o.spaces = o.text from rfl, ← ht]
      rfl

/-- The block of a node is opened. -/
theorem Read.openBlock {o : Outline} (h : o.Read locate) (hset : o.Settled) {d : Detail}
    (hkind : d.kind ≠ .declaration) (hbefore : d.before = o.spaces)
    (hd : d.StartsAt locate o.text.utf8ByteSize) : (o.openBlock d).Read locate := by
  intro p hp
  rw [places_openBlock hset, List.mem_append, List.mem_singleton] at hp
  rcases hp with hp | rfl
  · exact h p hp
  · rw [hbefore]
    exact Place.read_of_startsAt hkind (fun _ => rfl) hd

/-! ### The end of a block -/

/-- The nodes of the current block are where they were when it ends. -/
theorem read_sealed {o : Outline} (h : o.current.Proper) {front : String}
    (hread : ∀ p ∈ o.current.places front o.semicolon, p.Read locate) (closed : Bool)
    (stop : Position) :
    ∀ p ∈ Draft.places (front ++ o.current.detail.before) closed
      (.node (withStop o.sealed stop) o.current.kids.reverse), p.Read locate := by
  have hleaf : (withStop o.sealed stop).isLeaf = false := h.isLeaf
  have hown : (withStop o.sealed stop).own closed = o.current.detail.heading := by
    rw [Detail.own, hleaf]
    rfl
  -- The block keeps what it knows about its last child, unless there is none.
  have hsemicolon : ∀ front, Draft.placesAll front
      ((withStop o.sealed stop).raws.semicolon.getD false) o.current.kids.reverse =
        Draft.placesAll front o.semicolon o.current.kids.reverse := by
    intro front
    show Draft.placesAll front ((if o.current.kids.isEmpty then o.current.detail.raws.semicolon
      else some o.semicolon).getD false) _ = _
    cases hkids : o.current.kids with
    | nil => rfl
    | cons b bs => rfl
  rw [Frame.places, List.forall_mem_cons] at hread
  rw [Draft.places, hown, hsemicolon, List.forall_mem_cons]
  refine ⟨hread.1.congr rfl rfl rfl fun offset hd => ?_, hread.2⟩
  exact Detail.StartsAt.withStop (d := o.sealed) hd stop

/-- The current block becomes a child of the block around it. -/
theorem Read.close {o o' : Outline} (h : o.Read locate) (hproper : o.Proper) {t : Token}
    (hclose : o.close locate t = .ok o') : o'.Read locate := by
  obtain ⟨parent, parents, hparents, rfl⟩ := exists_of_close hclose
  have hleaf : (Branch.node (withStop o.sealed (stopAt locate t))
      o.current.kids.reverse).label.isLeaf = false := hproper.proper.isLeaf
  have hcomment := Draft.isComment_of_isLeaf_false hleaf
  rw [Read, places, List.forall_mem_append] at h
  intro p hp
  rw [places] at hp
  change p ∈ placesAround parents ++ Frame.places (around parents) false
    { parent with
      kids := .node (withStop o.sealed (stopAt locate t)) o.current.kids.reverse ::
        parent.kids } at hp
  rw [Frame.places, List.reverse_cons, Draft.placesAll_concat _ _ _ hcomment,
    ← List.cons_append, ← List.append_assoc, List.mem_append] at hp
  -- A place around the closed node, or one within it.
  rcases hp with hp | hp
  · refine h.1 p ?_
    rw [hparents]
    exact hp
  · refine read_sealed hproper.proper h.2 false (stopAt locate t) p ?_
    rw [hparents, around, Frame.text]
    simp only [← String.append_assoc] at hp ⊢
    exact hp

/-! ### Free semicolons -/

theorem Read.freeSemicolon {o : Outline} (h : o.Read locate) (t : Token) :
    (o.freeSemicolon locate t).Read locate := by
  rcases freeSemicolon_cases o locate t with heq | ⟨d, kids, more, hkids, hkind, -, heq⟩
  · rw [heq]
    exact h
  · rw [heq]
    set stop : Position := { locate t.start with
      offset := (locate t.start).offset + (o.spaces ++ t.text).utf8ByteSize }
    set d' := withStop { d with raws := { d.raws with
      ownSemicolon := some (o.spaces ++ t.text) } } stop with hd'
    have hleaf : d.isLeaf = false := Detail.isLeaf_of_rule hkind
    have hleaf' : d'.isLeaf = false := hleaf
    have hcomment : Draft.isComment (.node d kids) = false :=
      Draft.isComment_of_isLeaf_false hleaf
    have hcomment' : Draft.isComment (.node d' kids) = false :=
      Draft.isComment_of_isLeaf_false hleaf'
    -- The semicolon is printed behind the rule, so no place moves.
    have hown : d'.own o.semicolon = d.own o.semicolon := by
      rw [Detail.own, Detail.own, hleaf, hleaf']
      rfl
    rw [Read, places, Frame.places, hkids, List.reverse_cons,
      Draft.placesAll_concat _ _ _ hcomment, Draft.places] at h
    rw [Read, places]
    show ∀ p ∈ placesAround o.parents ++ Frame.places (around o.parents) o.semicolon
      { o.current with kids := .node d' kids :: more }, p.Read locate
    rw [Frame.places, List.reverse_cons, Draft.placesAll_concat _ _ _ hcomment', Draft.places,
      hown]
    simp only [List.forall_mem_append, List.forall_mem_cons] at h ⊢
    obtain ⟨haround, htop, hmore, hrule, hkids⟩ := h
    refine ⟨haround, htop, hmore, ?_, hkids⟩
    exact hrule.congr rfl rfl rfl fun offset hd => Detail.StartsAt.withStop (d := { d with
      raws := { d.raws with ownSemicolon := some (o.spaces ++ t.text) } }) hd stop

/-! ### Statements -/

/-- A declaration is added. It was read from the mark in front of its property on. -/
theorem Read.declaration {o o' : Outline} (h : o.Read locate) (hset : o.Settled) {custom : Bool}
    {ts : List Token} (hts : ∀ t ∈ ts, t.Spelled) (hfollow : Token.Follow o.text.utf8ByteSize ts)
    (hread : o.declaration locate custom ts = .ok o') : o'.Read locate := by
  obtain ⟨parts, d, hparts, rfl, -, hcontent, hbefore, -, -, -, hsource⟩ :=
    declaration_eq_ok rfl hread
  have hstarts : d.StartsAt locate parts.first.start := ⟨_, hsource⟩
  set closed := ts.getLast?.any fun t => t.kind == .semicolon
  have hbody : (if closed then ts.dropLast else ts) <+: ts := by
    split_ifs
    · exact List.dropLast_prefix ts
    · exact List.prefix_rfl
  obtain ⟨lead, rest, hack, hsplit, hfront, hne, hcut⟩ :=
    readDeclaration_mark hparts fun t ht => hts t (hbody.subset ht)
  have hkind : d.kind = .declaration := by rw [Detail.kind, hcontent]; rfl
  have hleaf : d.isLeaf = true := by rw [Detail.isLeaf, hcontent]
  have hcomment : Draft.isComment (.node d []) = false := by
    rw [Draft.isComment, Branch.label, hkind]
    rfl
  -- The tokens in front of the property stand behind the text of the outline.
  have hfirst : parts.first.start = (o.text ++ Token.join lead).utf8ByteSize := by
    obtain ⟨tail, htail⟩ := hbody
    rw [← htail, ← hsplit, List.append_assoc, List.cons_append, Token.follow_append] at hfollow
    rw [String.utf8ByteSize_append]
    exact hfollow.2.1
  -- What is printed of the declaration starts with the property.
  obtain ⟨tail, hown⟩ : ∃ tail, hack ++ d.own closed = hack ++ parts.prop ++ tail := by
    rw [Detail.own, if_pos hleaf, Detail.leafText, hcontent]
    dsimp only
    rw [Tree.declarationText]
    simp only [String.append_assoc]
    exact ⟨_, rfl⟩
  have hspaces : d.before = o.spaces ++ parts.lead := by rw [Detail.before, hbefore]; rfl
  refine h.addLeaf hset hcomment hspaces ⟨by rw [hcontent]; exact (fun h => by cases h), ?_⟩
  refine ⟨o.text ++ Token.join lead, hack, ?_, hfirst ▸ hstarts, fun hno => absurd hkind hno,
    fun _ => ⟨?_, ?_, o.spaces ++ Token.join lead, ?_⟩⟩
  · rw [hfront, String.append_assoc]
  · rw [hown]
    simp [hne]
  · rw [hown, cutHack_append_fst hne, hcut]
  · rw [hspaces, hfront, String.append_assoc]

/-- An at-rule is added, or its block is opened. -/
theorem Read.atRule {o o' : Outline} (h : o.Read locate) (hproper : o.Proper) (hset : o.Settled)
    {name : Token} {params : List Token} {ending : AtRuleEnd}
    (hname : name.start = o.text.utf8ByteSize)
    (hread : o.atRule locate name params ending = .ok o') : o'.Read locate := by
  obtain ⟨d, between, left, hd, -, -, hcase⟩ := atRule_eq_ok hread
  have hkind : d.kind ≠ .declaration := by rw [hd.kind]; decide
  have hbefore : d.before = o.spaces := by rw [Detail.before, hd.raws]; rfl
  have hstarts : d.StartsAt locate o.text.utf8ByteSize := hname ▸ hd.starts
  -- Three of the four ends add a leaf.
  have hleaf : ∀ closed, (o.addLeaf d closed).Read locate := by
    intro closed
    refine h.addLeaf hset (hd.isComment []) (hbefore.trans String.append_empty.symm) ?_
    rw [String.append_empty]
    exact Place.read_of_startsAt hkind (by rw [hd.content]; intro h; cases h) hstarts
  cases ending with
  | semicolon t =>
    obtain ⟨-, rfl⟩ := hcase
    exact hleaf true
  | block t =>
    obtain ⟨-, rfl⟩ := hcase
    exact h.openBlock hset hkind hbefore hstarts
  | close t => exact (hleaf false).close (hproper.add hd.takes false) hcase.2
  | textEnd =>
    rw [hcase]
    exact hleaf false

/-- Behind a settled outline, the nodes of every statement are read at their places. -/
theorem step_read_of_settled {o o' : Outline} {s : Statement} (h : o.Read locate)
    (hproper : o.Proper) (hset : o.Settled) (hfits : s.Fits)
    (hfollow : Token.Follow o.text.utf8ByteSize s.tokens) (hstep : step locate o s = .ok o') :
    o'.Read locate := by
  have hrule : NodeKind.rule ≠ .declaration := by decide
  -- Statement by statement; those that add a node start where the text has got to.
  cases s with
  | space t => cases hstep; exact h
  | semicolon t => cases hstep; exact h.freeSemicolon t
  | close t => exact h.close hproper hstep
  | comment t => cases hstep; exact h.addComment hfollow.1
  | block t =>
    cases hstep
    exact h.openBlock hset hrule rfl ⟨none, by rw [← hfollow.1]; rfl⟩
  | rule head brace =>
    have hstart : (head.headD brace).start = o.text.utf8ByteSize := by
      cases head with
      | nil => exact hfollow.1
      | cons t ts => exact hfollow.1
    cases hstep
    exact h.openBlock hset hrule rfl ⟨none, by rw [← hstart]; rfl⟩
  | declaration custom ts => exact h.declaration hset hfits hfollow hstep
  | atRule name params ending => exact h.atRule hproper hset hfollow.1 hstep

/-- Behind any outline, comments are read at their places, and the end of the block moves no
node. -/
theorem step_read_of_isTrailing {o o' : Outline} {s : Statement} (h : o.Read locate)
    (hproper : o.Proper) (htrailing : s.isTrailing = true)
    (hfollow : Token.Follow o.text.utf8ByteSize s.tokens) (hstep : step locate o s = .ok o') :
    o'.Read locate := by
  cases s with
  | space t => cases hstep; exact h
  | comment t => cases hstep; exact h.addComment hfollow.1
  | close t => exact h.close hproper hstep
  | _ => cases htrailing

end Outline

end Stylesheet
