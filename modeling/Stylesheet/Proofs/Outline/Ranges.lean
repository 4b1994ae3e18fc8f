import Stylesheet.Proofs.Outline.Read

/-!
# The ranges of the nodes that were read

A node takes up the bytes of the text from its start (`Detail.opens`) up to its end
(`Detail.closes`). Nodes next to each other take up different bytes, in the order in which they
stand, and a node has its children inside (`Detail.Encloses`).

The start of a node is always recorded, and its end as well, with two exceptions:

* An at-rule that is nothing but its name, and that neither a semicolon nor a block ends, has no
  recorded end.
* The recorded end of a rule with semicolons of its own lies behind them, by as many bytes as there
  is formatting in front of the last of them (`Detail.overrun`).

`Outline.Ranged` says the same of an outline: the children of the open blocks lie in front of what
is left of the text. One lemma for each way to extend an outline keeps it so, and
`outlineText_ranged` is about the whole text.
-/

namespace Stylesheet

/-! ### Tokens -/

namespace Token

theorem Spelled.start_lt_stop {t : Token} (h : t.Spelled) : t.start < t.stop := by
  have hpos : t.text.utf8ByteSize ≠ 0 :=
    fun hzero => h.text_ne (String.utf8ByteSize_eq_zero_iff.mp hzero)
  rw [stop]
  omega

/-- Each of the tokens lies in the text that they make up. -/
theorem Follow.bounds {offset : Nat} {ts : List Token} (h : Follow offset ts) {t : Token}
    (ht : t ∈ ts) : offset ≤ t.start ∧ t.stop ≤ offset + (join ts).utf8ByteSize := by
  obtain ⟨front, behind, rfl⟩ := List.append_of_mem ht
  rw [follow_append, Follow] at h
  rw [stop, h.2.1, join_append, join_cons, String.utf8ByteSize_append, String.utf8ByteSize_append]
  omega

end Token

/-- The last token that is not dropped stands at or behind any token that would not be. -/
theorem head?_dropWhile_reverse {p : Token → Bool} (front behind : List Token) {t : Token}
    (ht : p t = false) :
    ∃ e ∈ t :: behind, ((front ++ t :: behind).reverse.dropWhile p).head? = some e := by
  have hreverse : (front ++ t :: behind).reverse = behind.reverse ++ t :: front.reverse := by simp
  rw [hreverse, List.dropWhile_append]
  split_ifs with hnil
  · rw [List.dropWhile_cons_of_neg (by rw [ht]; exact Bool.false_ne_true)]
    exact ⟨t, List.mem_cons_self, rfl⟩
  · obtain ⟨e, more, he⟩ := List.exists_cons_of_ne_nil
      (fun h => hnil (by rw [h]; rfl) : behind.reverse.dropWhile p ≠ [])
    refine ⟨e, List.mem_cons_of_mem _ (List.mem_reverse.mp ?_), by rw [he]; rfl⟩
    exact (List.dropWhile_sublist p).subset (by rw [he]; exact List.mem_cons_self)

/-! ### Ranges -/

namespace Detail

/-- The byte offset that is recorded as the start of the node. -/
def start? (d : Detail) : Option Nat :=
  (d.source.bind Source.start).map Position.offset

/-- The byte offset that is recorded as the end of the node. -/
def stop? (d : Detail) : Option Nat :=
  (d.source.bind Source.stop).map Position.offset

/-- How far the recorded end of a node lies behind the node. The formatting in front of the
semicolon of a rule is counted from the semicolon on, although it stands in front of it. -/
def overrun (d : Detail) : Nat :=
  match d.content with
  | .rule _ => (d.raws.ownSemicolon.getD "").utf8ByteSize - 1
  | _ => 0

/-- The bytes of the name of an at-rule, with the sign in front of it. -/
def nameSize (d : Detail) : Nat :=
  match d.content with
  | .atRule name _ => name.utf8ByteSize + 1
  | _ => 0

/-- The byte offset at which the node starts. -/
def opens (d : Detail) : Nat :=
  d.start?.getD 0

/-- The byte offset behind the node. A node without a recorded end is a name. -/
def closes (d : Detail) : Nat :=
  match d.stop? with
  | some stop => stop - d.overrun
  | none => d.opens + d.nameSize

/-- The node is an at-rule with nothing but a name. -/
def IsBare (d : Detail) : Prop :=
  d.block = false ∧ ∃ name, d.content = .atRule name ""

/-- The node takes up some of the text, and its ends are recorded, up to the end of a name. -/
structure Ranged (d : Detail) : Prop where
  start : d.start? = some d.opens
  stop : d.stop? = some (d.closes + d.overrun) ∨ d.stop? = none ∧ d.IsBare
  lt : d.opens < d.closes

theorem overrun_of_ne_rule {d : Detail} (h : d.kind ≠ .rule) : d.overrun = 0 := by
  unfold overrun
  split
  · rename_i selector hcontent
    exact absurd (congrArg Content.kind hcontent) h
  · rfl

theorem overrun_of_own {d : Detail} (h : d.raws.ownSemicolon = none) : d.overrun = 0 := by
  unfold overrun
  split
  · rw [h]
    rfl
  · rfl

theorem opens_of_start {d : Detail} {a : Nat} (hstart : d.start? = some a) : d.opens = a := by
  rw [opens, hstart]
  rfl

theorem closes_of_stop {d : Detail} {e : Nat} (hstop : d.stop? = some (e + d.overrun)) :
    d.closes = e := by
  rw [closes, hstop]
  exact Nat.add_sub_cancel _ _

/-- A node with a recorded end. -/
theorem ranged_of_stop {d : Detail} {a e : Nat} (hstart : d.start? = some a)
    (hstop : d.stop? = some (e + d.overrun)) (hlt : a < e) :
    d.Ranged ∧ d.opens = a ∧ d.closes = e := by
  have hopens := opens_of_start hstart
  have hcloses := closes_of_stop hstop
  exact ⟨⟨by rw [hopens, hstart], Or.inl (by rw [hcloses, hstop]), by rwa [hopens, hcloses]⟩,
    hopens, hcloses⟩

/-- An at-rule without a recorded end. -/
theorem ranged_of_bare {d : Detail} {a : Nat} {name : String} (hstart : d.start? = some a)
    (hstop : d.stop? = none) (hblock : d.block = false) (hcontent : d.content = .atRule name "") :
    d.Ranged ∧ d.opens = a ∧ d.closes = a + (name.utf8ByteSize + 1) := by
  have hopens := opens_of_start hstart
  have hcloses : d.closes = a + (name.utf8ByteSize + 1) := by
    rw [closes, hstop, hopens, nameSize, hcontent]
  refine ⟨⟨by rw [hopens, hstart], Or.inr ⟨hstop, hblock, name, hcontent⟩, ?_⟩, hopens, hcloses⟩
  rw [hopens, hcloses]
  omega

theorem start?_withStop (d : Detail) (stop : Position) :
    (Outline.withStop d stop).start? = d.start? := by
  rw [start?, start?, Outline.withStop]
  cases d.source <;> rfl

theorem stop?_withStop {d : Detail} {a : Nat} (hstart : d.start? = some a) (stop : Position) :
    (Outline.withStop d stop).stop? = some stop.offset := by
  rw [stop?, Outline.withStop]
  cases hsource : d.source with
  | none =>
    rw [start?, hsource] at hstart
    cases hstart
  | some s => rfl

end Detail

namespace Draft

/-- The drafts lie behind each other between two offsets. -/
structure Between (lo hi : Nat) (bs : List Draft) : Prop where
  ranged : ∀ b ∈ bs, b.label.Ranged
  inside : ∀ b ∈ bs, lo ≤ b.label.opens ∧ b.label.closes ≤ hi
  ordered : bs.Pairwise fun a b => a.label.closes ≤ b.label.opens

theorem between_nil (lo hi : Nat) : Between lo hi [] :=
  ⟨nofun, nofun, .nil⟩

theorem Between.mono {lo hi hi' : Nat} {bs : List Draft} (h : Between lo hi bs) (hle : hi ≤ hi') :
    Between lo hi' bs :=
  ⟨h.ranged, fun b hb => ⟨(h.inside b hb).1, (h.inside b hb).2.trans hle⟩, h.ordered⟩

/-- One more draft behind the others. -/
theorem Between.concat {lo hi hi' : Nat} {bs : List Draft} (h : Between lo hi bs) {b : Draft}
    (hb : b.label.Ranged) (hlo : lo ≤ b.label.opens) (hopens : hi ≤ b.label.opens)
    (hcloses : b.label.closes ≤ hi') : Between lo hi' (bs ++ [b]) where
  ranged := List.forall_mem_append.mpr ⟨h.ranged, List.forall_mem_singleton.mpr hb⟩
  inside := by
    have hle : hi ≤ hi' := hopens.trans (hb.lt.le.trans hcloses)
    exact List.forall_mem_append.mpr
      ⟨(h.mono hle).inside, List.forall_mem_singleton.mpr ⟨hlo, hcloses⟩⟩
  ordered := by
    refine List.pairwise_append.mpr ⟨h.ordered, List.pairwise_singleton _ _, fun a ha c hc => ?_⟩
    rw [List.mem_singleton.mp hc]
    exact (h.inside a ha).2.trans hopens

/-- The last draft lies behind the others. -/
theorem Between.front {lo hi : Nat} {bs : List Draft} {b : Draft}
    (h : Between lo hi (bs ++ [b])) : Between lo b.label.opens bs where
  ranged := (List.forall_mem_append.mp h.ranged).1
  inside a ha :=
    ⟨(h.inside a (List.mem_append_left _ ha)).1,
      (List.pairwise_append.mp h.ordered).2.2 a ha b (List.mem_singleton.mpr rfl)⟩
  ordered := (List.pairwise_append.mp h.ordered).1

end Draft

/-- The children lie inside of the node, behind each other. -/
def Detail.Encloses (d : Detail) (kids : List Draft) : Prop :=
  Draft.Between d.opens d.closes kids

/-! ### Open blocks -/

/-- The block starts somewhere, and its children lie between its start and an offset. -/
structure Frame.UpTo (hi : Nat) (f : Frame) : Prop where
  start : f.detail.start? = some f.detail.opens
  le : f.detail.opens ≤ hi
  kids : Draft.Between f.detail.opens hi f.kids.reverse
  every : ∀ b ∈ f.kids, b.Every Detail.Encloses

namespace Frame.UpTo

variable {f : Frame} {hi hi' : Nat}

theorem mono (h : f.UpTo hi) (hle : hi ≤ hi') : f.UpTo hi' :=
  ⟨h.start, h.le.trans hle, h.kids.mono hle, h.every⟩

theorem add (h : f.UpTo hi) {b : Draft} (hb : b.label.Ranged) (hevery : b.Every Detail.Encloses)
    (hopens : hi ≤ b.label.opens) (hcloses : b.label.closes ≤ hi') :
    UpTo hi' { f with kids := b :: f.kids } where
  start := h.start
  le := h.le.trans (hopens.trans (hb.lt.le.trans hcloses))
  kids := by
    show Draft.Between f.detail.opens hi' (b :: f.kids).reverse
    rw [List.reverse_cons]
    exact h.kids.concat hb (h.le.trans hopens) hopens hcloses
  every := List.forall_mem_cons.mpr ⟨hevery, h.every⟩

/-- The block without its last child. -/
theorem front (h : f.UpTo hi) {b : Draft} {bs : List Draft} (hkids : f.kids = b :: bs) :
    UpTo b.label.opens { f with kids := bs } ∧ b.label.Ranged ∧ b.label.closes ≤ hi ∧
      b.Every Detail.Encloses := by
  obtain ⟨hstart, hle, hbetween, hevery⟩ := h
  rw [hkids, List.reverse_cons] at hbetween
  rw [hkids, List.forall_mem_cons] at hevery
  have hmem : b ∈ bs.reverse ++ [b] := by simp
  have hinside := hbetween.inside b hmem
  exact ⟨⟨hstart, hinside.1, hbetween.front, hevery.2⟩, hbetween.ranged b hmem, hinside.2,
    hevery.1⟩

end Frame.UpTo

namespace Outline

variable {locate : Nat → Position} {o o' : Outline} {lo hi : Nat} {t : Token}

/-- Each open block lies behind the children of the one around it, and the outermost one starts at
the start of the text. -/
def Nested (hi : Nat) : List Frame → Prop
  | [] => hi = 0
  | f :: fs => f.UpTo hi ∧ Nested f.detail.opens fs

/-- What was read lies in front of an offset. -/
def Ranged (hi : Nat) (o : Outline) : Prop :=
  Nested hi (o.current :: o.parents)

theorem Ranged.mono (h : o.Ranged lo) (hle : lo ≤ hi) : o.Ranged hi :=
  ⟨h.1.mono hle, h.2⟩

theorem Ranged.add (h : o.Ranged lo) {b : Draft} (hb : b.label.Ranged)
    (hevery : b.Every Detail.Encloses) (hopens : lo ≤ b.label.opens)
    (hcloses : b.label.closes ≤ hi) (semicolon : Bool) : (o.add b semicolon).Ranged hi :=
  ⟨h.1.add hb hevery hopens hcloses, h.2⟩

theorem Ranged.addLeaf (h : o.Ranged lo) {d : Detail} (hd : d.Ranged) (hopens : lo ≤ d.opens)
    (hcloses : d.closes ≤ hi) (semicolon : Bool) : (o.addLeaf d semicolon).Ranged hi :=
  h.add (b := .node d []) hd (.node (Draft.between_nil _ _) nofun) hopens hcloses semicolon

/-- A block that opens where the text of the outline ends. -/
theorem Ranged.openBlock (h : o.Ranged lo) {d : Detail} (hd : d.start? = some lo) (hle : lo ≤ hi) :
    (o.openBlock d).Ranged hi := by
  have hopens := Detail.opens_of_start hd
  have hstart : d.start? = some d.opens := by rw [hopens, hd]
  refine ⟨⟨hstart, ?_, Draft.between_nil _ _, nofun⟩, ?_⟩
  · exact hopens.trans_le hle
  · show Nested d.opens (o.current :: o.parents)
    rwa [hopens]

/-- The ends of the current block, when it is closed. -/
theorem sealed_ends (hproper : o.current.Proper) (h : o.current.UpTo lo) (stop : Position) :
    (withStop o.sealed stop).start? = some o.current.detail.opens ∧
      (withStop o.sealed stop).stop? = some (stop.offset + (withStop o.sealed stop).overrun) := by
  have hoverrun : (withStop o.sealed stop).overrun = 0 :=
    Detail.overrun_of_own (d := withStop o.sealed stop) hproper.ownSemicolon
  have hstart : o.sealed.start? = some o.current.detail.opens := h.start
  rw [Detail.start?_withStop, Detail.stop?_withStop hstart, hoverrun]
  exact ⟨hstart, rfl⟩

/-- The current block and all that is below it. -/
theorem sealed_every (h : o.current.UpTo lo) {d : Detail}
    (hopens : d.opens = o.current.detail.opens) (hcloses : lo ≤ d.closes) :
    (Branch.node d o.current.kids.reverse : Draft).Every Detail.Encloses := by
  refine .node ?_ fun b hb => h.every b (List.mem_reverse.mp hb)
  rw [Detail.Encloses, hopens]
  exact h.kids.mono hcloses

/-- A block that closes becomes a child of the block around it. -/
theorem Ranged.close (h : o.Ranged lo) (hproper : o.Proper) (ht : lo < t.stop)
    (hclose : o.close locate t = .ok o') : o'.Ranged t.stop := by
  obtain ⟨parent, parents, hp, rfl⟩ := exists_of_close hclose
  obtain ⟨hcurrent, hparents⟩ := h
  rw [hp] at hparents
  obtain ⟨hstart, hstop⟩ := sealed_ends hproper.proper hcurrent (stopAt locate t)
  obtain ⟨hranged, hopens, hcloses⟩ :=
    Detail.ranged_of_stop hstart hstop (hcurrent.le.trans_lt ht)
  refine ⟨hparents.1.add hranged (sealed_every hcurrent hopens ?_) hopens.ge hcloses.le,
    hparents.2⟩
  rw [hcloses]
  exact ht.le

/-- A rule with semicolons of its own. The recorded end counts the formatting in front of the last
one twice. -/
theorem rule_ranged {d : Detail} (hkind : d.kind = .rule) (hd : d.Ranged) {own : String}
    {stop : Position} (hown : own ≠ "") (hstop : stop.offset = hi + own.utf8ByteSize)
    (hcloses : d.closes ≤ hi) (d' : Detail)
    (hd' : d' = withStop { d with raws := { d.raws with ownSemicolon := some own } } stop) :
    d'.Ranged ∧ d'.opens = d.opens ∧ d'.closes = hi + 1 := by
  have hstart : Detail.start? { d with raws := { d.raws with ownSemicolon := some own } } =
      some d.opens := hd.start
  obtain ⟨selector, hcontent⟩ : ∃ selector, d.content = .rule selector := by
    rw [Detail.kind] at hkind
    cases hc : d.content <;> rw [hc] at hkind <;> first | exact ⟨_, rfl⟩ | cases hkind
  have hoverrun : d'.overrun = own.utf8ByteSize - 1 := by
    rw [hd', Detail.overrun, withStop, hcontent]
    rfl
  have hpos : own.utf8ByteSize ≠ 0 := fun hzero => hown (String.utf8ByteSize_eq_zero_iff.mp hzero)
  refine Detail.ranged_of_stop ?_ ?_ ?_
  · rw [hd', Detail.start?_withStop, hstart]
  · rw [hoverrun, hd', Detail.stop?_withStop hstart, hstop]
    congr 1
    omega
  · have := hd.lt
    omega

/-- Semicolons behind a rule become a part of it. -/
theorem Ranged.freeSemicolon (hlocate : ∀ offset, (locate offset).offset = offset)
    (h : o.Ranged t.start) (ht : t.text = ";") : (o.freeSemicolon locate t).Ranged t.stop := by
  have hstop : t.stop = t.start + 1 := by rw [Token.stop, ht]; rfl
  have hle : t.start ≤ t.stop := by omega
  rcases freeSemicolon_cases o locate t with heq | ⟨d, kids, more, hkids, hkind, -, heq⟩
  · rw [heq]
    exact h.mono hle
  · rw [heq]
    obtain ⟨hfront, hd, hcloses, hevery⟩ := h.1.front hkids
    set d' := withStop
      { d with raws := { d.raws with ownSemicolon := some (o.spaces ++ t.text) } }
      { locate t.start with
        offset := (locate t.start).offset + (o.spaces ++ t.text).utf8ByteSize } with hd'
    obtain ⟨hranged, hopens', hcloses'⟩ : d'.Ranged ∧ d'.opens = d.opens ∧
        d'.closes = t.start + 1 := by
      refine rule_ranged hkind hd ?_ (by rw [hlocate]) hcloses d' hd'
      simp [ht]
    refine ⟨hfront.add (b := .node d' kids) hranged (.node ?_ hevery.rest) hopens'.ge ?_, h.2⟩
    · -- The rule only grows.
      rw [Detail.Encloses, hopens', hcloses']
      exact hevery.top.mono (hcloses.trans (Nat.le_succ _))
    · exact (hcloses'.trans hstop.symm).le

/-! ### Statements -/

/-- A node that a token ends. -/
theorem leaf_ranged (hlocate : ∀ offset, (locate offset).offset = offset) {d : Detail} {start : Nat}
    (hsource : d.source = some ⟨0, some (locate start), some (stopAt locate t)⟩)
    (hkind : d.kind ≠ .rule) (hlt : start < t.stop) :
    d.Ranged ∧ d.opens = start ∧ d.closes = t.stop := by
  refine Detail.ranged_of_stop ?_ ?_ hlt
  · rw [Detail.start?, hsource]
    exact congrArg some (hlocate start)
  · rw [Detail.stop?, hsource, Detail.overrun_of_ne_rule hkind]
    rfl

theorem Ranged.comment (hlocate : ∀ offset, (locate offset).offset = offset)
    (h : o.Ranged t.start) (ht : t.Spelled) :
    (o.addLeaf (o.commentDetail locate t) o.semicolon).Ranged t.stop := by
  have hsource : (o.commentDetail locate t).source =
      some ⟨0, some (locate t.start), some (stopAt locate t)⟩ := rfl
  obtain ⟨hranged, hopens, hcloses⟩ :=
    leaf_ranged hlocate hsource (fun hkind => by cases hkind) ht.start_lt_stop
  exact h.addLeaf hranged hopens.ge hcloses.le _

/-- A declaration ends with a token at or behind the first one of its property. -/
theorem declarationLast?_eq_some {custom closed : Bool} {ts : List Token}
    (hclosed : closed = ts.getLast?.any fun t => t.kind == .semicolon) {parts : DeclarationParts}
    (h : readDeclaration custom (if closed then ts.dropLast else ts) = .ok parts) :
    ∃ lead rest e, ts = lead ++ parts.first :: rest ∧ e ∈ parts.first :: rest ∧
      declarationLast? closed ts = some e := by
  obtain ⟨lead, rest, -, -, hlead, -⟩ := readDeclaration_eq_ok h
  have hsplit := append_cutLead hlead
  cases hc : closed with
  | true =>
    rw [hc] at hclosed hsplit
    cases hlast : ts.getLast? with
    | none => rw [hlast] at hclosed; cases hclosed
    | some e =>
      obtain ⟨front, rfl⟩ := List.getLast?_eq_some_iff.mp hlast
      rw [if_pos rfl, List.dropLast_concat] at hsplit
      refine ⟨lead, rest ++ [e], e, by simp [← hsplit], by simp, hlast⟩
  | false =>
    rw [hc, if_neg Bool.false_ne_true] at hsplit
    have hword : (parts.first.kind == .space) = false := by rw [kind_of_cutLead hlead]; rfl
    obtain ⟨e, hmem, he⟩ :=
      head?_dropWhile_reverse (p := fun t => t.kind == .space) lead rest hword
    exact ⟨lead, rest, e, hsplit.symm, hmem, by rw [← hsplit]; exact he⟩

theorem Ranged.declaration (hlocate : ∀ offset, (locate offset).offset = offset)
    (h : o.Ranged lo) {custom : Bool} {ts : List Token} (hts : ∀ t ∈ ts, t.Spelled)
    (hfollow : Token.Follow lo ts) (hread : o.declaration locate custom ts = .ok o') :
    o'.Ranged (lo + (Token.join ts).utf8ByteSize) := by
  obtain ⟨parts, d, hparts, rfl, -, hcontent, -, -, -, -, hsource⟩ := declaration_eq_ok rfl hread
  obtain ⟨lead, rest, e, hsplit, hmem, hlast⟩ := declarationLast?_eq_some rfl hparts
  rw [hlast] at hsource
  have hkind : d.kind ≠ .rule := by
    rw [Detail.kind, hcontent]
    intro h
    cases h
  -- The first token of the property is in front of the last token, or is the last token.
  have hbehind : parts.first.start < e.stop := by
    rw [hsplit, Token.follow_append] at hfollow
    have hspelled : e.Spelled := hts e (by rw [hsplit]; exact List.mem_append_right _ hmem)
    rw [hfollow.2.1]
    exact (hfollow.2.bounds hmem).1.trans_lt hspelled.start_lt_stop
  obtain ⟨hranged, hopens, hcloses⟩ := leaf_ranged hlocate hsource hkind hbehind
  refine h.addLeaf hranged ?_ ?_ _
  · rw [hopens]
    exact (hfollow.bounds (by rw [hsplit]; simp)).1
  · rw [hcloses]
    exact (hfollow.bounds (by rw [hsplit]; exact List.mem_append_right _ hmem)).2

/-- The name of an at-rule is what stands behind the sign. -/
theorem utf8ByteSize_name {name : Token} (hname : name.Spelled) (hkind : name.kind = .atWord) :
    (String.ofList (name.text.toList.drop 1)).utf8ByteSize + 1 = name.text.utf8ByteSize := by
  rw [Token.Spelled, hkind] at hname
  obtain ⟨cs, hcs⟩ := List.head?_eq_some_iff.mp hname
  have htext : name.text = "@" ++ String.ofList cs := by
    rw [← String.toList_inj, hcs]
    simp
  rw [hcs, htext, String.utf8ByteSize_append, List.drop_one, List.tail_cons, Nat.add_comm]
  rfl

/-- An at-rule without a block ends with its last token, or its name when it has no other one. -/
theorem AtRuleRead.ranged (hlocate : ∀ offset, (locate offset).offset = offset) {name : Token}
    {params : List Token} {between : String} {d : Detail}
    (hd : o.AtRuleRead locate name params between d) (hname : name.Spelled)
    (hkind : name.kind = .atWord) {last : Option Token}
    (hsource : d.source = some ⟨0, some (locate name.start), last.map (stopAt locate)⟩)
    (hnone : last = none → (cutGaps params).1 = []) (hlt : name.start < (last.getD name).stop) :
    d.Ranged ∧ d.opens = name.start ∧ d.closes = (last.getD name).stop := by
  cases last with
  | some e => exact leaf_ranged hlocate hsource (by rw [hd.kind]; exact nofun) hlt
  | none =>
    have hcontent := hd.content
    rw [hnone rfl] at hcontent
    rw [Option.getD_none, Token.stop, ← utf8ByteSize_name hname hkind]
    refine Detail.ranged_of_bare ?_ ?_ hd.block hcontent
    · rw [Detail.start?, hsource]
      exact congrArg some (hlocate name.start)
    · rw [Detail.stop?, hsource]
      rfl

/-- Behind an at-rule that a brace or the end of the text ends, the last token is a parameter. -/
theorem mem_of_atRuleLast? {params : List Token} {ending : AtRuleEnd}
    (hend : (∃ t, ending = .close t) ∨ ending = .textEnd) {e : Token}
    (he : atRuleLast? params ending = some e) : e ∈ params := by
  rcases hend with ⟨t, rfl⟩ | rfl
  · have hmem := List.mem_of_mem_head? he
    exact List.mem_reverse.mp ((List.dropWhile_sublist _).subset hmem)
  · have hmem := List.mem_of_getLast? he
    rw [← cutGaps_append params]
    exact List.mem_append_left _ hmem

/-- Without a last token there are no parameters. -/
theorem cutGaps_of_atRuleLast? {params : List Token} {ending : AtRuleEnd}
    (hend : (∃ t, ending = .close t) ∨ ending = .textEnd)
    (hnone : atRuleLast? params ending = none) : (cutGaps params).1 = [] := by
  rcases hend with ⟨t, rfl⟩ | rfl
  · rw [atRuleLast?, List.head?_eq_none_iff, List.dropWhile_eq_nil_iff] at hnone
    rw [cutGaps, List.reverse_eq_nil_iff, List.dropWhile_eq_nil_iff]
    intro p hp
    rw [Token.isGap, hnone p hp, Bool.true_or]
  · exact List.getLast?_eq_none_iff.mp hnone

theorem Ranged.atRule (hlocate : ∀ offset, (locate offset).offset = offset) (h : o.Ranged lo)
    (hproper : o.Proper) {name : Token} {params : List Token} {ending : AtRuleEnd}
    (hfits : (Statement.atRule name params ending).Fits)
    (hspelled : ∀ t ∈ name :: params ++ ending.tokens, t.Spelled)
    (hfollow : Token.Follow lo (name :: params ++ ending.tokens))
    (hread : o.atRule locate name params ending = .ok o') :
    o'.Ranged (lo + (Token.join (name :: params ++ ending.tokens)).utf8ByteSize) := by
  obtain ⟨d, between, left, hd, -, hsource, hcase⟩ := atRule_eq_ok hread
  obtain ⟨hname, hkind, -, -⟩ := hfits
  have hstart : name.start = lo := hfollow.1
  -- Any token of the at-rule ends behind its start.
  have hlt : ∀ e ∈ name :: params ++ ending.tokens, name.start < e.stop := by
    intro e he
    rw [hstart]
    exact (hfollow.bounds he).1.trans_lt (hspelled e he).start_lt_stop
  -- What ends without a token of its own is read up to the end of its parameters at most.
  have hopen : (∃ t, ending = .close t) ∨ ending = .textEnd →
      (o.addLeaf d false).Ranged (lo + (Token.join (name :: params)).utf8ByteSize) := by
    intro hend
    have hmem : (atRuleLast? params ending).getD name ∈ name :: params := by
      cases hlast : atRuleLast? params ending with
      | none => exact List.mem_cons_self
      | some e => exact List.mem_cons_of_mem _ (mem_of_atRuleLast? hend hlast)
    obtain ⟨hranged, hopens, hcloses⟩ := hd.ranged hlocate hname hkind hsource
      (cutGaps_of_atRuleLast? hend) (hlt _ (List.mem_append_left _ hmem))
    refine h.addLeaf hranged (hopens.trans hstart).ge ?_ false
    rw [hcloses]
    exact ((Token.follow_append.mp hfollow).1.bounds hmem).2
  cases ending with
  | semicolon t =>
    obtain ⟨-, rfl⟩ := hcase
    have hmem : t ∈ name :: params ++ [t] := by simp
    obtain ⟨hranged, hopens, hcloses⟩ := hd.ranged hlocate hname hkind hsource nofun (hlt t hmem)
    refine h.addLeaf hranged (hopens.trans hstart).ge ?_ true
    rw [hcloses]
    exact (hfollow.bounds hmem).2
  | block t =>
    obtain ⟨-, rfl⟩ := hcase
    refine h.openBlock ?_ (Nat.le_add_right _ _)
    rw [Detail.start?, hsource, ← hstart]
    exact congrArg some (hlocate name.start)
  | close t =>
    have hbrace := (Token.follow_append.mp hfollow).2.1
    have hclosed := (hopen (Or.inl ⟨t, rfl⟩)).close (hproper.add hd.takes false)
      (by rw [← hbrace]; exact (hspelled t (by simp [AtRuleEnd.tokens])).start_lt_stop) hcase.2
    exact hclosed.mono (hfollow.bounds (by simp [AtRuleEnd.tokens])).2
  | textEnd =>
    rw [hcase, AtRuleEnd.tokens, List.append_nil]
    exact hopen (Or.inr rfl)

/-! ### All statements -/

/-- A statement behind the text of the outline. -/
theorem step_ranged (hlocate : ∀ offset, (locate offset).offset = offset) (h : o.Ranged lo)
    (hproper : o.Proper) {s : Statement} (hfits : s.Fits) (hspelled : ∀ t ∈ s.tokens, t.Spelled)
    (hfollow : Token.Follow lo s.tokens) (hstep : step locate o s = .ok o') :
    o'.Ranged (lo + (Token.join s.tokens).utf8ByteSize) := by
  -- Many statements are one token, from `lo` to the new bound.
  have hone : ∀ t : Token, s.tokens = [t] →
      t.start = lo ∧ t.stop = lo + (Token.join s.tokens).utf8ByteSize := by
    intro t ht
    rw [ht] at hfollow ⊢
    rw [Token.stop, Token.join_singleton, hfollow.1]
    exact ⟨rfl, rfl⟩
  cases s with
  | space t =>
    cases hstep
    exact h.mono (Nat.le_add_right _ _)
  | semicolon t =>
    cases hstep
    obtain ⟨hstart, hstop⟩ := hone t rfl
    rw [← hstart] at h
    rw [← hstop]
    exact h.freeSemicolon hlocate hfits
  | close t =>
    obtain ⟨hstart, hstop⟩ := hone t rfl
    rw [← hstop]
    refine h.close hproper ?_ hstep
    rw [← hstart]
    exact (hspelled t List.mem_cons_self).start_lt_stop
  | comment t =>
    cases hstep
    obtain ⟨hstart, hstop⟩ := hone t rfl
    rw [← hstart] at h
    rw [← hstop]
    exact h.comment hlocate hfits.1
  | block t =>
    cases hstep
    refine h.openBlock ?_ (Nat.le_add_right _ _)
    rw [← (hone t rfl).1]
    exact congrArg some (hlocate t.start)
  | rule head brace =>
    cases hstep
    refine h.openBlock ?_ (Nat.le_add_right _ _)
    have hstart : (head.headD brace).start = lo := by
      cases head with
      | nil => exact hfollow.1
      | cons t ts => exact hfollow.1
    rw [← hstart]
    exact congrArg some (hlocate (head.headD brace).start)
  | declaration custom ts => exact h.declaration hlocate hspelled hfollow hstep
  | atRule name params ending => exact h.atRule hlocate hproper hfits hspelled hfollow hstep

/-- The outline stays ranged up to where its text ends. -/
theorem InFrontOf.step_ranged {css : String} {pending : Option Unclosed} {ts rest : List Token}
    {s : Statement} (hlocate : ∀ offset, (locate offset).offset = offset)
    (ho : InFrontOf css o (t :: ts)) (h : o.Ranged o.text.utf8ByteSize)
    (hnext : nextStatement pending t ts = .ok (s, rest))
    (hstep : Outline.step locate o s = .ok o') : o'.Ranged o'.text.utf8ByteSize := by
  have hspelled := ho.spelled
  have hfollow := ho.follow
  rw [← nextStatement_append hnext] at hspelled hfollow
  rw [(ho.step_text hnext hstep).2.2.1, String.utf8ByteSize_append]
  exact Outline.step_ranged hlocate h ho.proper (nextStatement_fits ho.spelled hnext)
    (List.forall_mem_append.mp hspelled).1 (Token.follow_append.mp hfollow).1 hstep

theorem ranged_empty : empty.Ranged 0 :=
  ⟨⟨rfl, Nat.zero_le _, Draft.between_nil _ _, nofun⟩, rfl⟩

end Outline

/-- The nodes of a text take up bytes of it, each inside of its parent and behind the ones in front
of it. -/
theorem outlineText_ranged {locate : Nat → Position} {css : String} {b : Draft}
    (hlocate : ∀ offset, (locate offset).offset = offset) (h : outlineText locate css = .ok b) :
    b.Every Detail.Encloses ∧ b.label.opens = 0 ∧ b.label.closes = css.utf8ByteSize := by
  obtain ⟨o, ho, ⟨hcurrent, hopens⟩, hfinish⟩ :=
    outlineText_induction (fun o _ => o.Ranged o.text.utf8ByteSize) h Outline.ranged_empty
      (Outline.InFrontOf.step_ranged hlocate)
  obtain ⟨hparents, rfl⟩ := Outline.finish_eq_ok_iff.mp hfinish
  rw [ho.text_eq] at hcurrent
  rw [hparents] at hopens
  obtain ⟨hstart, hstop⟩ := Outline.sealed_ends ho.proper.proper hcurrent (locate css.utf8ByteSize)
  have hstarts := Detail.opens_of_start hstart
  have hcloses := Detail.closes_of_stop hstop
  rw [hlocate] at hcloses
  exact ⟨Outline.sealed_every hcurrent hstarts hcloses.ge, hstarts.trans hopens, hcloses⟩

end Stylesheet
