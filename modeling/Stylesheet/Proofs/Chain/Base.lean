import Stylesheet.Proofs.Chain.Cutoff
import Stylesheet.Proofs.Chain.Ending
import Stylesheet.Proofs.Chain.Outline

/-!
# Texts without what belongs to nothing

White space and semicolons at the end of a stylesheet belong to no node. Without them it is read
just the same (`ReadsClosed.exists_base`): they are the last tokens and the last statements of the
text, and are cut off one by one.

With a line break and a comment behind it, such a text is read with the comment as one more child
of the root (`ReadsClosed.outlineText_append`). That needs a text whose last statement does not take
the comment in.
-/

namespace Stylesheet

open Text

/-- The statements of the text are read into the outline, and the last of them does not take in what
may follow. -/
def ReadsClosed (locate : Nat → Position) (css : String) (o : Outline) : Prop :=
  ∃ tokens ss, lex false css = (tokens, none) ∧ statementsFrom none tokens = (ss, none) ∧
    (∀ s ∈ ss.getLast?, s.takesRest = false) ∧ ss.foldlM (Outline.step locate) .empty = .ok o

namespace Outline

variable {locate : Nat → Position} {o o' : Outline}

theorem spaces_close {t : Token} (h : o.close locate t = .ok o') : o'.spaces = "" := by
  obtain ⟨parent, parents, -, rfl⟩ := exists_of_close h
  rfl

/-- A statement leaves nothing that belongs to nothing, or it is white space or a semicolon that is
put to the rest. -/
theorem spaces_step {s : Statement} (hs : s.takesRest = false) (h : step locate o s = .ok o') :
    o'.spaces = "" ∨ ∃ t, (s = .space t ∨ s = .semicolon t) ∧
      o' = { o with spaces := o.spaces ++ t.text } := by
  cases s with
  | space t =>
    cases h
    exact Or.inr ⟨t, Or.inl rfl, rfl⟩
  | semicolon t =>
    cases h
    -- A semicolon on its own joins the spaces, unless a rule in front of it takes it.
    rcases freeSemicolon_cases o locate t with heq | ⟨d, kids, more, -, -, -, heq⟩
    · exact Or.inr ⟨t, Or.inr rfl, heq⟩
    · rw [heq]
      exact Or.inl rfl
  | close t => exact Or.inl (spaces_close h)
  | comment t => cases h; exact Or.inl rfl
  | block t => cases h; exact Or.inl rfl
  | rule head brace => cases h; exact Or.inl rfl
  | declaration custom ts =>
    obtain ⟨parts, d, -, rfl, -⟩ := declaration_eq_ok rfl h
    exact Or.inl rfl
  | atRule name params ending =>
    obtain ⟨d, between, left, -, -, -, hcase⟩ := atRule_eq_ok h
    cases ending with
    | semicolon t =>
      rw [hcase.2]
      exact Or.inl rfl
    | block t =>
      rw [hcase.2]
      exact Or.inl rfl
    | close t => exact Or.inl (spaces_close hcase.2)
    | textEnd => cases hs

end Outline

namespace ReadsClosed

variable {locate locate' : Nat → Position} {css : String} {o : Outline}

/-- Only the positions in the text matter. -/
theorem congr (h : ReadsClosed locate css o) (hagree : AgreeOn css locate locate') :
    ReadsClosed locate' css o := by
  obtain ⟨tokens, ss, hlex, hss, hclosed, hread⟩ := h
  refine ⟨tokens, ss, hlex, hss, hclosed, ?_⟩
  rw [← hread]
  refine (Outline.foldlM_step_congr hagree (fun s hs t ht => ?_) .empty).symm
  have hfollow := lex_follow false css
  have hjoin : Token.join (lex false css).1 = css := join_lex (by rw [hlex])
  rw [hlex] at hfollow hjoin
  have hmem : t ∈ tokens := by
    rw [← flatMap_tokens hss]
    exact List.mem_flatMap.mpr ⟨s, hs, ht⟩
  have hon := Token.on_of_follow "" hfollow t hmem
  rwa [hjoin, String.empty_append] at hon

/-- The last white space, or the last semicolon that ends nothing, can be cut off. -/
theorem shorten (h : ReadsClosed locate css o) (hspaces : o.spaces ≠ "") :
    ∃ (front : String) (t : Token) (o₁ : Outline), css = front ++ t.text ∧ t.text ≠ "" ∧
      o = { o₁ with spaces := o₁.spaces ++ t.text } ∧ ReadsClosed locate front o₁ := by
  obtain ⟨tokens, ss, hlex, hss, hclosed, hread⟩ := h
  rcases List.eq_nil_or_concat ss with rfl | ⟨ss, s, rfl⟩
  · cases hread
    exact absurd rfl hspaces
  rw [List.concat_eq_append] at *
  rw [List.foldlM_append] at hread
  obtain ⟨o₁, hread₁, hstep⟩ := Except.bind_eq_ok hread
  simp only [List.foldlM_cons, List.foldlM_nil, bind_pure] at hstep
  rcases Outline.spaces_step (hclosed s (by simp)) hstep with hnone | ⟨t, hs, rfl⟩
  · exact absurd hnone hspaces
  have hlast : s.tokens = [t] := by rcases hs with rfl | rfl <;> rfl
  have htokens := flatMap_tokens hss
  rw [List.flatMap_append, List.flatMap_singleton, hlast] at htokens
  obtain ⟨ts, rfl⟩ : ∃ ts, tokens = ts ++ [t] := ⟨_, htokens.symm⟩
  have hfront := statementsFrom_front hlast hss
  -- What is in front of the last statement does not take it in, and ends with no open bracket.
  have hclosed₁ : ∀ s₁ ∈ ss.getLast?, s₁.takesRest = false := by
    intro s₁ hs₁
    obtain ⟨front, rfl⟩ := List.getLast?_eq_some_iff.mp hs₁
    rw [List.append_assoc] at hss
    by_contra htakes
    obtain ⟨u, rfl⟩ := exists_close_of_takesRest hss (by simpa using htakes)
    rcases hs with hs | hs <;> cases hs
  have hparen : ∀ e ∈ ts.getLast?, e.kind ≠ .openParen := by
    intro e he hkind
    obtain ⟨front, rfl⟩ := List.getLast?_eq_some_iff.mp he
    obtain ⟨s₁, hs₁, htakes⟩ := takesRest_of_openParen hfront hkind
    rw [hclosed₁ s₁ hs₁] at htakes
    cases htakes
  obtain ⟨front, hcss, hlexed⟩ := lexFrom_front hlex
    (kind_of_mem_statementsFrom hss (by simp) hs) hparen
  have hspelled : t.Spelled := lex_spelled css t (by rw [hlex]; simp)
  refine ⟨String.ofList front, t, o₁, ?_, hspelled.text_ne, rfl, ts, ss, ?_, hfront, hclosed₁,
    hread₁⟩
  · rw [← String.toList_inj, String.toList_append, String.toList_ofList, hcss]
  · rw [lex, String.toList_ofList]
    exact hlexed

/-- Without the white space and the semicolons at its end a text is read just the same. -/
theorem exists_base (h : ReadsClosed locate css o) :
    ∃ base, css = base ++ o.spaces ∧ ReadsClosed locate base { o with spaces := "" } := by
  induction hlen : css.toList.length using Nat.strong_induction_on generalizing css o with
  | _ n ih =>
    by_cases hspaces : o.spaces = ""
    · refine ⟨css, by rw [hspaces, String.append_empty], ?_⟩
      rwa [← hspaces]
    · obtain ⟨front, t, o₁, rfl, hne, rfl, hfront⟩ := h.shorten hspaces
      have hlt : front.toList.length < n := by
        have hpos : 0 < t.text.toList.length :=
          List.length_pos_iff.mpr fun hnil => hne (String.toList_inj.mp hnil)
        rw [String.toList_append, List.length_append] at hlen
        omega
      obtain ⟨base, rfl, hbase⟩ := ih _ hlt hfront rfl
      exact ⟨base, by rw [String.append_assoc], hbase⟩

/-- The outline is in order, and prints as the text. -/
theorem proper (h : ReadsClosed locate css o) : o.Proper ∧ o.text = css := by
  obtain ⟨tokens, ss, hlex, hss, -, hread⟩ := h
  have hfront : Outline.InFrontOf css .empty (lex false css).1 :=
    Outline.inFrontOf_empty (by rw [hlex])
  rw [hlex] at hfront
  obtain ⟨ho, -⟩ := hfront.foldlM_induction (fun _ _ => True) (fun _ _ _ _ => trivial)
    trivial (by rw [hss]) (by rw [hss, hread])
  exact ⟨ho.proper, ho.text_eq⟩

/-- The root of an outline in which no block is open. -/
theorem root (h : ReadsClosed locate css o) (hparents : o.parents = []) :
    o.current.Proper ∧ o.current.detail.kind = .root := by
  have hproper := h.proper.1
  rw [Outline.Proper, hparents] at hproper
  exact ⟨hproper.1, hproper.2.1⟩

/-- The children of the root print as the text without the white space and semicolons at its
end. -/
theorem textAll_eq {base : String} (h : ReadsClosed locate base { o with spaces := "" })
    (hparents : o.parents = []) : Draft.textAll o.semicolon o.current.kids.reverse = base := by
  obtain ⟨hproper, htext⟩ := h.proper
  rw [Outline.Proper, hparents] at hproper
  obtain ⟨-, hroot, hbefore⟩ := hproper
  have hfront : o.current.detail.before = "" := by rw [Detail.before, hbefore]; rfl
  rw [Outline.text, hparents, Outline.around, Frame.text, hfront, Detail.heading_of_root hroot,
    String.append_empty, String.empty_append, String.empty_append, String.empty_append] at htext
  exact htext

/-- A line break and a comment behind the text are read as one more child of the root. -/
theorem outlineText_append (h : ReadsClosed locate css o) (hparents : o.parents = [])
    (r : Trailer) (hagree : AgreeOn css locate locate') :
    ∃ c d, outlineText locate' (css ++ r.text) =
        .ok (.node d (o.current.kids.reverse ++ [.node c []])) ∧
      c.content = .comment (trimmed r.body) ∧ d.raws.semicolon = some o.semicolon ∧
      d.raws.after = some "" := by
  have hroot := h.root hparents
  obtain ⟨tokens, ss₀, hlex, hss₀, hclosed, hread⟩ := h
  obtain ⟨kept, trail, gap, cm, ss, last, htrailed, rfl, rfl⟩ := exists_trailed r hlex hss₀
  -- The last statement would take the comment in.
  obtain rfl : last = .free := by
    by_contra hne
    obtain ⟨s, hs⟩ := TextEnd.exists_statement hne trail
    have htakes := htrailed.takesRest hne trail htrailed.gaps_trail s (by simp [hs])
    rw [hclosed s (by simp [hs])] at htakes
    cases htakes
  rw [List.foldlM_append, htrailed.foldlM_congr hagree] at hread
  obtain ⟨o₁, hcommon, hread⟩ := Except.bind_eq_ok hread
  obtain ⟨spaces, hspaces⟩ := Outline.foldlM_spaces locate htrailed.trail_kind o₁
  rw [TextEnd.statements, hspaces] at hread
  cases hread
  obtain ⟨spaces', c, hstep, hcontent⟩ := Outline.foldlM_gap_comment locate' o₁ htrailed.gap_kind
    htrailed.comment_kind htrailed.comment_text
  refine ⟨c, Outline.withStop (Outline.addLeaf { o₁ with spaces := spaces' } c o₁.semicolon).sealed
    (locate' (css ++ r.text).utf8ByteSize), ?_, hcontent, rfl, ?_⟩
  · rw [outlineText_eq_ok_iff htrailed.lex_text htrailed.statements_text]
    refine ⟨Outline.addLeaf { o₁ with spaces := spaces' } c o₁.semicolon, ?_,
      Outline.finish_eq_ok_iff.mpr ⟨hparents, ?_⟩⟩
    · rw [List.foldlM_append, hcommon]
      exact hstep
    · rw [← List.reverse_cons]
      rfl
  · show some (o₁.current.detail.raws.after.getD "" ++ "") = _
    rw [hroot.1.after]
    rfl

end ReadsClosed

end Stylesheet
